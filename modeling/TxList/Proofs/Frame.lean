import TxList.Proofs.Ops
import TxList.Proofs.IndexFrame

/-!
# What every call keeps

Whatever state the lists are in, a call leaves the allocated nodes' keys as they are, keeps its
pointers and sets among the allocated nodes (`Sane`), and never takes a node's mark away: a node is
*marked* for a read version if a transaction that began at that version and meets the node aborts
(`Grows`). The one exception is the `TXend` that aborts on a singleton's mark and clears it.
-/

namespace TxList

open Prog

variable {K V : Type} {m : Nat}

/-- The node was changed after a transaction with this read version began. -/
def Marked (x : LNode K V) (readVersion : Nat) : Prop :=
  readVersion < x.word.version ∨ x.word.version = readVersion ∧ x.word.singleton = true

instance (x : LNode K V) (readVersion : Nat) : Decidable (Marked x readVersion) :=
  inferInstanceAs (Decidable (_ ∨ _))

/-- A node is locked or was stamped after the transaction began. -/
def Ctx.Blocked (c : Ctx K V m) : Prop :=
  ∃ n, (c.shared.mem n).isLocked = true ∨ c.transaction.readVersion < (c.shared.mem n).word.version

/-- Nothing that `getNext` reads of the node was changed after the transaction began. -/
def Ctx.Clear (c : Ctx K V m) (n : NodeId) : Prop :=
  n ∈ c.storage.writeSet ∨ ¬ Marked (c.shared.mem n) c.transaction.readVersion ∧
    ∀ y, (c.shared.mem n).next = some y → ¬ Marked (c.shared.mem y) c.transaction.readVersion

section Checks

variable {c : Ctx K V m} {n : NodeId} {E : Err → Ctx K V m → Prop}

/-- `checkNode` throws on a locked node or a late one, and on a singleton's mark moves the clock on
first. -/
theorem checkNode_rule {Q : Unit → Ctx K V m → Prop}
    (hblocked : c.Blocked → E .txAbort { c with transaction := { c.transaction with TX := false } })
    (hmark : Marked (c.shared.mem n) c.transaction.readVersion → E .txAbort { c with
      shared := { c.shared with gvc := c.shared.gvc + 1 }
      transaction := { c.transaction with TX := false } })
    (hQ : ¬ Marked (c.shared.mem n) c.transaction.readVersion → Q () c) :
    Ends (checkNode n) c Q E := by
  simp only [checkNode, Ends_bind, Ends_node, Ends_get, Ends_ite, Ends_abortTX, Ends_pure,
    Ends_incrementAndGetVersion]
  simp only [tooNew, LNode.isSameVersionAndSingleton, Word.isSameVersionAndSingleton,
    LNode.getVersion, Bool.or_eq_true, not_or, Bool.and_eq_true, beq_iff_eq, not_and]
  refine ⟨fun h => hblocked ⟨n, h.imp id of_decide_eq_true⟩, fun hold => ⟨fun h =>
    hmark (.inr ⟨h.2, h.1⟩), fun hother => hQ ?_⟩⟩
  rintro (h | h)
  · exact hold.2 (decide_eq_true h)
  · exact hother h.2 h.1

/-- `getNext` reads the write set, or checks the node and the one it leads to. -/
theorem getNext_rule {Q : Option NodeId → Ctx K V m → Prop}
    (hblocked : c.Blocked → E .txAbort { c with transaction := { c.transaction with TX := false } })
    (hmark : ∀ k, Marked (c.shared.mem k) c.transaction.readVersion → E .txAbort { c with
      shared := { c.shared with gvc := c.shared.gvc + 1 }
      transaction := { c.transaction with TX := false } })
    (hQ : c.Clear n → Q (c.storage.nextOf c.shared.mem n) c) : Ends (getNext n) c Q E := by
  simp only [getNext, Ends_bind, Ends_get]
  split
  · rename_i we hw
    have hn : n ∈ c.storage.writeSet := AList.lookup_isSome.1 (by rw [hw]; rfl)
    simpa only [Ends_pure, LocalStorage.nextOf, hw] using hQ (.inl hn)
  · rename_i hw
    simp only [LocalStorage.nextOf, hw] at hQ
    simp only [Ends_bind, Ends_node, Ends_ite, Ends_abortTX]
    refine ⟨fun hl => hblocked ⟨n, .inl hl⟩, fun _ => checkNode_rule hblocked (hmark n) fun hm => ?_⟩
    split <;> rename_i hn
    · simpa only [Ends_pure, hn] using hQ (.inr ⟨hm, fun y hy => by simp [hn] at hy⟩)
    · rename_i y
      simp only [Ends_bind]
      refine checkNode_rule hblocked (hmark _) fun hy => ?_
      have hc : c.Clear n := .inr ⟨hm, fun y' hy' => Option.some.inj (hn.symm.trans hy') ▸ hy⟩
      simpa only [Ends_pure, hn] using hQ hc

end Checks

/-- The pointers and sets a call works with are of allocated nodes, a node to be written was read,
no node is locked and no version is ahead of the clock. -/
structure Sane (c : Ctx K V m) : Prop where
  heads : m ≤ c.shared.fresh
  next : ∀ n y, (c.shared.mem n).next = some y → y < c.shared.fresh
  index : ∀ l i, ((c.shared.index l).nodes i).node < c.shared.fresh
  version : ∀ n, (c.shared.mem n).word.version ≤ c.shared.gvc
  unlocked : ∀ n, (c.shared.mem n).isLocked = false
  readVersion : c.transaction.readVersion ≤ c.shared.gvc
  readSet : ∀ n ∈ c.storage.readSet, n < c.shared.fresh
  write_read : ∀ n ∈ c.storage.writeSet, n ∈ c.storage.readSet
  write_next : ∀ n we y, c.storage.writeSet.lookup n = some we → we.next = some y → y < c.shared.fresh
  indexAdd : ∀ l, ∀ n ∈ c.storage.indexAdd l, n < c.shared.fresh

/-- The shared memory moves on: keys stay, no version goes back, and marks stay but for those in
`X`. -/
structure Grows (X : NodeId → Nat → Prop) (s s' : Shared K V m) : Prop where
  gvc : s.gvc ≤ s'.gvc
  fresh : s.fresh ≤ s'.fresh
  key : ∀ n < s.fresh, (s'.mem n).key = (s.mem n).key
  version : ∀ n < s.fresh, (s.mem n).word.version ≤ (s'.mem n).word.version
  marked : ∀ n < s.fresh, ∀ rv ≤ s.gvc, ¬ X n rv → Marked (s.mem n) rv → Marked (s'.mem n) rv

namespace Grows

variable {X : NodeId → Nat → Prop} {s s' s'' : Shared K V m}

theorem refl (s : Shared K V m) : Grows X s s :=
  ⟨le_rfl, le_rfl, fun _ _ => rfl, fun _ _ => le_rfl, fun _ _ _ _ _ h => h⟩

theorem trans (h : Grows X s s') (h' : Grows X s' s'') : Grows X s s'' where
  gvc := h.gvc.trans h'.gvc
  fresh := h.fresh.trans h'.fresh
  key n hn := (h'.key n (hn.trans_le h.fresh)).trans (h.key n hn)
  version n hn := (h.version n hn).trans (h'.version n (hn.trans_le h.fresh))
  marked n hn rv hrv hX hm := h'.marked n (hn.trans_le h.fresh) rv (hrv.trans h.gvc) hX
    (h.marked n hn rv hrv hX hm)

theorem setNode {n : NodeId} {x : LNode K V} (hkey : n < s.fresh → x.key = (s.mem n).key)
    (hv : n < s.fresh → (s.mem n).word.version ≤ x.word.version)
    (hm : n < s.fresh → ∀ rv ≤ s.gvc, ¬ X n rv → Marked (s.mem n) rv → Marked x rv) :
    Grows X s (s.setNode n x) := by
  refine ⟨le_rfl, le_rfl, fun k hk => ?_, fun k hk => ?_, fun k hk rv hrv hX h => ?_⟩
  · by_cases he : k = n
    · subst he
      simpa [Shared.setNode] using hkey hk
    · simp [Shared.setNode, he]
  · by_cases he : k = n
    · subst he
      simpa [Shared.setNode] using hv hk
    · simp [Shared.setNode, he]
  · by_cases he : k = n
    · subst he
      simpa [Shared.setNode] using hm hk rv hrv hX h
    · simpa [Shared.setNode, he] using h

end Grows

/-- A list operation by a thread keeps this. -/
structure Onward (c c' : Ctx K V m) : Prop where
  sane : Sane c'
  grows : Grows (fun _ _ => False) c.shared c'.shared
  readSet : c.storage.readSet ⊆ c'.storage.readSet
  readVersion : c'.transaction.readVersion = c.transaction.readVersion
  open_of_open : c'.transaction.TX = true → c.transaction.TX = true

namespace Onward

variable {c c' c'' : Ctx K V m}

theorem refl (h : Sane c) : Onward c c := ⟨h, .refl _, fun _ h => h, rfl, id⟩

/-- A change of one node. -/
theorem setNode (h : Onward c c') {n : NodeId} {x : LNode K V}
    (hkey : n < c'.shared.fresh → x.key = (c'.shared.mem n).key)
    (hold : n < c'.shared.fresh → (c'.shared.mem n).word.version ≤ x.word.version)
    (hm : n < c'.shared.fresh → ∀ rv ≤ c'.shared.gvc, Marked (c'.shared.mem n) rv → Marked x rv)
    (hnext : ∀ y, x.next = some y → y < c'.shared.fresh) (hv : x.word.version ≤ c'.shared.gvc)
    (hl : x.isLocked = false) : Onward c { c' with shared := c'.shared.setNode n x } := by
  have hs := h.sane
  refine ⟨⟨hs.heads, fun k y hy => ?_, hs.index, fun k => ?_, fun k => ?_, hs.readVersion, hs.readSet,
    hs.write_read, hs.write_next, hs.indexAdd⟩,
    h.grows.trans (.setNode hkey hold fun hn rv hrv _ => hm hn rv hrv), h.readSet, h.readVersion, h.open_of_open⟩
  · by_cases he : k = n
    · subst he
      exact hnext y (by simpa [Shared.setNode] using hy)
    · exact hs.next k y (by simpa [Shared.setNode, he] using hy)
  · by_cases he : k = n
    · subst he
      simpa [Shared.setNode] using hv
    · simpa [Shared.setNode, he] using hs.version k
  · by_cases he : k = n
    · subst he
      simpa [Shared.setNode] using hl
    · simpa [Shared.setNode, he] using hs.unlocked k

/-- A new node. -/
theorem alloc (h : Onward c c') {x : LNode K V} (hnext : ∀ y, x.next = some y → y < c'.shared.fresh)
    (hv : x.word.version ≤ c'.shared.gvc) (hl : x.isLocked = false) :
    Onward c { c' with shared := c'.shared.alloc x } := by
  have hs := h.sane
  have hup : c'.shared.fresh ≤ c'.shared.fresh + 1 := Nat.le_succ _
  refine ⟨⟨hs.heads.trans hup, fun k y hy => ?_, fun l i => (hs.index l i).trans_le hup,
    fun k => ?_, fun k => ?_, hs.readVersion, fun k hk => (hs.readSet k hk).trans_le hup,
    hs.write_read,
    fun k we y hk hy => (hs.write_next k we y hk hy).trans_le hup,
    fun l k hk => (hs.indexAdd l k hk).trans_le hup⟩, h.grows.trans ⟨le_rfl, hup, fun k hk => ?_,
    fun k hk => ?_, fun k hk rv _ _ hm => ?_⟩, h.readSet, h.readVersion, h.open_of_open⟩
  · by_cases he : k = c'.shared.fresh
    · exact (hnext y (by simpa [he] using hy)).trans_le hup
    · exact (hs.next k y (by simpa [he] using hy)).trans_le hup
  · by_cases he : k = c'.shared.fresh
    · simpa [he] using hv
    · simpa [he] using hs.version k
  · by_cases he : k = c'.shared.fresh
    · simpa [he] using hl
    · simpa [he] using hs.unlocked k
  · simp [hk.ne]
  · simp [hk.ne]
  · simpa [hk.ne] using hm

/-- A change of a list's index. -/
theorem setIndex (h : Onward c c') (l : ListId m) {ix : Index}
    (hix : ∀ i, (ix.nodes i).node < c'.shared.fresh) : Onward c { c' with
      shared := { c'.shared with index := Function.update c'.shared.index l ix } } := by
  have hs := h.sane
  refine ⟨⟨hs.heads, hs.next, fun l' i => ?_, hs.version, hs.unlocked, hs.readVersion, hs.readSet,
    hs.write_read, hs.write_next, hs.indexAdd⟩,
    h.grows.trans ⟨le_rfl, le_rfl, fun _ _ => rfl, fun _ _ => le_rfl, fun _ _ _ _ _ hm => hm⟩, h.readSet,
    h.readVersion, h.open_of_open⟩
  by_cases he : l' = l
  · subst he
    simpa using hix i
  · simpa [he] using hs.index l' i

/-- The shared memory's other fields. -/
theorem retire (h : Onward c c') (r : List NodeId) :
    Onward c { c' with shared := { c'.shared with retired := r } } :=
  ⟨⟨h.sane.heads, h.sane.next, h.sane.index, h.sane.version, h.sane.unlocked, h.sane.readVersion, h.sane.readSet,
    h.sane.write_read, h.sane.write_next, h.sane.indexAdd⟩,
    h.grows.trans ⟨le_rfl, le_rfl, fun _ _ => rfl, fun _ _ => le_rfl, fun _ _ _ _ _ hm => hm⟩, h.readSet,
    h.readVersion, h.open_of_open⟩

/-- The transaction ends with a `TxAbortException`. -/
theorem abort (h : Onward c c') :
    Onward c { c' with transaction := { c'.transaction with TX := false } } :=
  ⟨⟨h.sane.heads, h.sane.next, h.sane.index, h.sane.version, h.sane.unlocked, h.sane.readVersion, h.sane.readSet,
    h.sane.write_read, h.sane.write_next, h.sane.indexAdd⟩, h.grows, h.readSet,
    h.readVersion, fun he => by simp at he⟩

theorem increment (h : Onward c c') :
    Onward c { c' with shared := { c'.shared with gvc := c'.shared.gvc + 1 } } :=
  ⟨⟨h.sane.heads, h.sane.next, h.sane.index, fun n => (h.sane.version n).trans (Nat.le_succ _),
    h.sane.unlocked, h.sane.readVersion.trans (Nat.le_succ _), h.sane.readSet, h.sane.write_read, h.sane.write_next,
    h.sane.indexAdd⟩, h.grows.trans ⟨Nat.le_succ _, le_rfl, fun _ _ => rfl,
      fun _ _ => le_rfl, fun _ _ _ _ _ hm => hm⟩, h.readSet, h.readVersion, h.open_of_open⟩

theorem readOnly (h : Onward c c') (b : Bool) :
    Onward c { c' with transaction := { c'.transaction with readOnly := b } } :=
  ⟨⟨h.sane.heads, h.sane.next, h.sane.index, h.sane.version, h.sane.unlocked, h.sane.readVersion, h.sane.readSet,
    h.sane.write_read, h.sane.write_next, h.sane.indexAdd⟩, h.grows, h.readSet, h.readVersion, h.open_of_open⟩

theorem addToReadSet (h : Onward c c') {n : NodeId} (hn : n < c'.shared.fresh) :
    Onward c { c' with storage := c'.storage.addToReadSet n } := by
  have hs := h.sane
  refine ⟨⟨hs.heads, hs.next, hs.index, hs.version, hs.unlocked, hs.readVersion, fun k hk => ?_,
    fun k hk => Finset.mem_insert_of_mem (hs.write_read k hk), hs.write_next, hs.indexAdd⟩, h.grows,
    h.readSet.trans (Finset.subset_insert _ _), h.readVersion, h.open_of_open⟩
  rcases Finset.mem_insert.1 hk with rfl | hk
  · exact hn
  · exact hs.readSet k hk

/-- A change of the local storage. -/
theorem setStorage (h : Onward c c') {ls : LocalStorage V m} (hsub : c'.storage.readSet ⊆ ls.readSet)
    (hread : ∀ n ∈ ls.readSet, n < c'.shared.fresh) (hwr : ∀ n ∈ ls.writeSet, n ∈ ls.readSet)
    (hnext : ∀ n we y, ls.writeSet.lookup n = some we → we.next = some y → y < c'.shared.fresh)
    (hadd : ∀ l, ∀ n ∈ ls.indexAdd l, n < c'.shared.fresh) :
    Onward c { c' with storage := ls } :=
  ⟨⟨h.sane.heads, h.sane.next, h.sane.index, h.sane.version, h.sane.unlocked, h.sane.readVersion, hread, hwr, hnext,
    hadd⟩, h.grows, h.readSet.trans hsub, h.readVersion, h.open_of_open⟩

end Onward

/-- Kept by whatever a list operation does in a transaction: the search, which moves the index and may
throw, the allocation of a node and what is recorded in the storage. -/
structure Stable (J : Ctx K V m → Prop) : Prop where
  next : ∀ {c : Ctx K V m} {n y : NodeId}, J c → (c.shared.mem n).next = some y → y < c.shared.fresh
  index : ∀ {c : Ctx K V m}, J c → ∀ l i, ((c.shared.index l).nodes i).node < c.shared.fresh
  write_next : ∀ {c : Ctx K V m} {n y : NodeId} {we : WriteElement V}, J c →
    c.storage.writeSet.lookup n = some we → we.next = some y → y < c.shared.fresh
  setIndex : ∀ {c : Ctx K V m} {ix : Index} (l : ListId m), J c →
    (∀ i, (ix.nodes i).node < c.shared.fresh) → J { c with
      shared := { c.shared with index := Function.update c.shared.index l ix } }
  abort : ∀ {c : Ctx K V m}, J c → J { c with transaction := { c.transaction with TX := false } }
  increment : ∀ {c : Ctx K V m}, J c → J { c with shared := { c.shared with gvc := c.shared.gvc + 1 } }
  readOnly : ∀ {c : Ctx K V m} (b : Bool), J c →
    J { c with transaction := { c.transaction with readOnly := b } }
  addToReadSet : ∀ {c : Ctx K V m} {n : NodeId}, J c → n < c.shared.fresh →
    J { c with storage := c.storage.addToReadSet n }
  write : ∀ {c : Ctx K V m} {n : NodeId} {next : Option NodeId} (val : Option V) (b : Bool), J c →
    n < c.shared.fresh → (∀ y, next = some y → y < c.shared.fresh) →
    J { c with storage := (c.storage.putIntoWriteSet n next val b).addToReadSet n }
  alloc : ∀ {c : Ctx K V m} {next : Option NodeId} (key : K) (val : V), J c →
    (∀ y, next = some y → y < c.shared.fresh) →
    J { c with shared := c.shared.alloc { key := key, val := some val, next := next } }
  addToIndexAdd : ∀ {c : Ctx K V m} {n : NodeId} (l : ListId m), J c → n < c.shared.fresh →
    J { c with storage := c.storage.addToIndexAdd l n }
  addToIndexRemove : ∀ {c : Ctx K V m} (l : ListId m) (n : NodeId), J c →
    J { c with storage := c.storage.addToIndexRemove l n }

namespace Stable

variable [LinearOrder K] {J : Ctx K V m → Prop} {c : Ctx K V m} {fuel : Nat} {l : ListId m} {key : K}

theorem indexGetPred (hJ : Stable J) (h : J c) : Ends (indexGetPred fuel l key) c
    (fun p c' => J c' ∧ p < c'.shared.fresh) (OnAbort J) := by
  simp only [TxList.indexGetPred, Ends_onIndex, OnAbort_diverged, implies_true, true_and]
  intro ix p hp
  obtain ⟨h1, i, hi⟩ := Index.sameNodes_getPredLoop hp
  refine ⟨hJ.setIndex l h fun i => ?_, ?_⟩
  · rw [h1.node i]
    exact hJ.index h l i
  · rw [← hi]
    exact hJ.index h l i

omit [LinearOrder K] in
theorem checkNode (hJ : Stable J) (h : J c) (n : NodeId) : Ends (checkNode n) c
    (fun _ c' => c' = c) (OnAbort J) :=
  checkNode_rule (fun _ => hJ.abort h) (fun _ => hJ.abort (hJ.increment h)) fun _ => rfl

theorem getPredLoop (hJ : Stable J) : ∀ (n : Nat) {c : Ctx K V m} {pred : NodeId}, J c →
    pred < c.shared.fresh → Ends (getPredLoop fuel l n pred) c
      (fun p c' => J c' ∧ p < c'.shared.fresh) (OnAbort J)
  | 0, _, _, _, _ => by simp [TxList.getPredLoop]
  | n + 1, c, pred, h, hp => by
    simp only [TxList.getPredLoop, Ends_bind]
    refine (hJ.checkNode h pred).mono (fun _ c' he => ?_) fun _ _ he => he
    subst he
    simp only [Ends_node, Ends_get, Ends_ite, Ends_pure, Ends_bind, Ends_assert,
      OnAbort_assertFailed, implies_true, and_true]
    refine ⟨fun _ _ => (hJ.indexGetPred h).mono (fun p c' hc => ?_) fun _ _ he => he,
      fun _ => ⟨h, hp⟩⟩
    exact hJ.getPredLoop n hc.1 hc.2

theorem getPred (hJ : Stable J) (h : J c) : Ends (getPred fuel l key) c
    (fun p c' => J c' ∧ p < c'.shared.fresh) (OnAbort J) := by
  simp only [TxList.getPred, Ends_bind]
  exact (hJ.indexGetPred h).mono (fun p c' hc => hJ.getPredLoop fuel hc.1 hc.2) fun _ _ he => he

omit [LinearOrder K] in
theorem getNext (hJ : Stable J) (h : J c) (n : NodeId) : Ends (getNext n) c
    (fun o c' => c' = c ∧ ∀ y, o = some y → y < c.shared.fresh) (OnAbort J) := by
  refine getNext_rule (fun _ => hJ.abort h) (fun _ _ => hJ.abort (hJ.increment h))
    fun _ => ⟨rfl, fun y hy => ?_⟩
  simp only [LocalStorage.nextOf] at hy
  split at hy
  · rename_i we hw
    exact hJ.write_next h hw hy
  · exact hJ.next h hy

theorem findLoop (hJ : Stable J) (h : J c) : ∀ (n : Nat) {pred : NodeId} {next : Option NodeId},
    pred < c.shared.fresh → (∀ y, next = some y → y < c.shared.fresh) →
    Ends (findLoop key n pred next) c (fun r c' => c' = c ∧ r.2.1 < c.shared.fresh ∧
      ∀ y, r.2.2 = some y → y < c.shared.fresh) (OnAbort J)
  | 0, _, _, _, _ => by simp [TxList.findLoop]
  | n + 1, pred, none, hp, _ => by simpa [TxList.findLoop] using hp
  | n + 1, pred, some next, hp, hn => by
    simp only [TxList.findLoop, Ends_bind, Ends_node, Ends_ite, Ends_pure]
    refine ⟨fun _ => ⟨trivial, hp, hn⟩, fun _ => ⟨fun _ => ⟨trivial, hp, hn⟩, fun _ => ?_⟩⟩
    refine (hJ.getNext h next).mono (fun o c' he => ?_) fun _ _ he => he
    obtain ⟨he, ho⟩ := he
    rw [he]
    exact hJ.findLoop h n (hn next rfl) ho

theorem find_node (hJ : Stable J) (h : J c) : Ends (find_node fuel l key) c
    (fun r c' => J c' ∧ r.2.1 < c'.shared.fresh ∧
      ∀ y, r.2.2 = some y → y < c'.shared.fresh) (OnAbort J) := by
  simp only [TxList.find_node, Ends_bind]
  refine (hJ.getPred h).mono (fun pred c₁ h₁ => ?_) fun _ _ he => he
  refine (hJ.getNext h₁.1 pred).mono (fun next c₂ h₂ => ?_) fun _ _ he => he
  obtain ⟨rfl, hn⟩ := h₂
  refine (hJ.findLoop h₁.1 fuel h₁.2 hn).mono (fun r c' hr => ?_) fun _ _ he => he
  obtain ⟨rfl, h3⟩ := hr
  exact ⟨h₁.1, h3⟩

theorem putTX (hJ : Stable J) (h : J c) (val : V) : Ends (putTX fuel l key val) c
    (fun _ => J) (OnAbort J) := by
  refine putTX_ends (hJ.find_node (hJ.readOnly false h)) (fun pred x c' hr => ?_)
    fun found pred next c' hr _ => ?_
  · obtain ⟨h₁, -, hn⟩ := hr
    refine hJ.write _ _ h₁ (hn x rfl) fun y hy => ?_
    simp only [LocalStorage.nextOf] at hy
    split at hy
    · rename_i we hwe
      exact hJ.write_next h₁ hwe hy
    · exact hJ.next h₁ hy
  · obtain ⟨h₁, hp, hn⟩ := hr
    have h₂ := hJ.addToIndexAdd l (hJ.alloc key val h₁ hn) (Nat.lt_succ_self _)
    have hnext : ∀ y, some c'.shared.fresh = some y → y < c'.shared.fresh + 1 := fun y hy =>
      Option.some.inj hy ▸ Nat.lt_succ_self _
    exact hJ.write (n := pred) _ _ h₂ (hp.trans (Nat.lt_succ_self _)) hnext

theorem removeTX (hJ : Stable J) (h : J c) : Ends (removeTX fuel l key) c
    (fun _ => J) (OnAbort J) := by
  refine removeTX_ends (hJ.find_node (hJ.readOnly false h))
    (N := fun _ _ o c' => ∀ y, o = some y → y < c'.shared.fresh) (fun pred x c' hr => ?_)
    (fun pred x o c' hr hN => ?_) fun found pred next c' hr _ => hJ.addToReadSet hr.1 hr.2.1
  · exact hJ.getNext (hJ.addToReadSet hr.1 hr.2.1) x
  · have h₁ := hJ.write (c'.storage.valOf c'.shared.mem pred) false hr.1 hr.2.1 hN
    have hnone : ∀ y, (none : Option NodeId) = some y → y < c'.shared.fresh := fun y hy => by
      simp at hy
    have h₂ := hJ.write ((c'.storage.relink c'.shared.mem pred o).valOf c'.shared.mem x) true h₁
      (hr.2.2 x rfl) hnone
    exact hJ.addToIndexRemove l x h₂

theorem getTX (hJ : Stable J) (h : J c) : Ends (getTX fuel l key) c (fun _ => J) (OnAbort J) :=
  getTX_ends (hJ.find_node h) (fun _ _ _ hr => hJ.addToReadSet hr.1 hr.2.1)
    fun _ _ _ _ hr _ => hJ.addToReadSet hr.1 hr.2.1

end Stable

/-- A node is written to, and read. -/
theorem Onward.write {c₀ c : Ctx K V m} (h : Onward c₀ c) {n : NodeId} {next : Option NodeId}
    (hn : n < c.shared.fresh) (hnext : ∀ y, next = some y → y < c.shared.fresh) (val : Option V)
    (b : Bool) :
    Onward c₀ { c with storage := (c.storage.putIntoWriteSet n next val b).addToReadSet n } := by
  have hs := h.sane
  refine h.setStorage (Finset.subset_insert _ _) (fun k hk => ?_) (fun k hk => ?_)
    (fun k we y hk hy => ?_) hs.indexAdd
  · rcases Finset.mem_insert.1 hk with rfl | hk
    · exact hn
    · exact hs.readSet k hk
  · rcases (AList.mem_insert _).1 hk with rfl | hk
    · exact Finset.mem_insert_self _ _
    · exact Finset.mem_insert_of_mem (hs.write_read k hk)
  · by_cases he : k = n
    · subst he
      simp only [LocalStorage.addToReadSet, LocalStorage.putIntoWriteSet, AList.lookup_insert,
        Option.some.injEq] at hk
      exact hnext y (by rw [← hy, ← hk])
    · simp only [LocalStorage.addToReadSet, LocalStorage.putIntoWriteSet,
        AList.lookup_insert_ne he] at hk
      exact hs.write_next k we y hk hy

theorem Onward.addToIndexAdd {c₀ c : Ctx K V m} (h : Onward c₀ c) {n : NodeId}
    (hn : n < c.shared.fresh) (l : ListId m) :
    Onward c₀ { c with storage := c.storage.addToIndexAdd l n } := by
  refine h.setStorage (fun _ h => h) h.sane.readSet h.sane.write_read h.sane.write_next
    fun l' k hk => ?_
  by_cases he : l' = l
  · subst he
    simp only [LocalStorage.addToIndexAdd, Function.update_self, List.mem_append,
      List.mem_singleton] at hk
    rcases hk with hk | rfl
    · exact h.sane.indexAdd l' k hk
    · exact hn
  · simp only [LocalStorage.addToIndexAdd, Function.update_of_ne he] at hk
    exact h.sane.indexAdd l' k hk

theorem Onward.stable (c₀ : Ctx K V m) : Stable (Onward c₀) where
  next h hy := h.sane.next _ _ hy
  index h := h.sane.index
  write_next h hw hy := h.sane.write_next _ _ _ hw hy
  setIndex l h hix := h.setIndex l hix
  abort h := h.abort
  increment h := h.increment
  readOnly b h := h.readOnly b
  addToReadSet h hn := h.addToReadSet hn
  write val b h hn hnext := h.write hn hnext val b
  alloc _ _ h hnext := h.alloc (fun y hy => hnext y hy) (Nat.zero_le _) rfl
  addToIndexAdd l h hn := h.addToIndexAdd hn l
  addToIndexRemove _ _ h := h.setStorage (fun _ h => h) h.sane.readSet h.sane.write_read
    h.sane.write_next h.sane.indexAdd

end TxList
