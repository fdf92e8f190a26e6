import TxList.Lib.Alike
import TxList.Proofs.IndexWithin
import TxList.Proofs.StepFrame

/-!
# A call stays where its pointers lead

A region is a set of nodes and of lists that no pointer leads out of. A call whose storage holds
pointers into the region only neither reads nor writes a node or an index outside: it ends alike from
two states that differ there alone, leaves what is outside as it was, and the pointers still lead
nowhere else.
-/

namespace TxList

open Prog

variable {K V : Type} {m : Nat}

/-- The call may need a new node. -/
def Op.inserts : Op K V m → Bool
  | .put _ _ _ => true
  | .txBegin | .remove _ _ | .get _ _ | .containsKey _ _ | .txEnd | .handleAbort => false

/-- Nodes and lists, and for each list index nodes that count as its index's. -/
structure Region (m : Nat) where
  nodes : Set NodeId
  lists : Set (ListId m)
  idx : ListId m → Set IdxId := fun _ => Set.univ

namespace Region

variable (D : Region m)

/-- The list the operation is on, if any, is one of these. -/
def Takes (D : Region m) : Op K V m → Prop
  | .put l _ _ | .remove l _ | .get l _ | .containsKey l _ => l ∈ D.lists
  | .txBegin | .txEnd | .handleAbort => True

/-- No pointer in shared memory leads out. -/
structure Closes (s : Shared K V m) : Prop where
  head : ∀ l ∈ D.lists, head l ∈ D.nodes
  next : ∀ n ∈ D.nodes, ∀ y, (s.mem n).next = some y → y ∈ D.nodes
  index : ∀ l ∈ D.lists, ∃ S H, D.idx l ⊆ S ∧ (s.index l).Within D.nodes S H

variable {D} in
/-- All index nodes of a list may count. -/
theorem Closes.node {s : Shared K V m} (h : D.Closes s) {l : ListId m} (hl : l ∈ D.lists)
    (hidx : D.idx l = Set.univ) (i : IdxId) : ((s.index l).nodes i).node ∈ D.nodes := by
  obtain ⟨S, H, hS, hw⟩ := h.index l hl
  exact hw.node i (hS (hidx ▸ trivial))

theorem closes_index_of {s : Shared K V m} {l : ListId m}
    (h : ∀ i, ((s.index l).nodes i).node ∈ D.nodes) :
    ∃ S H, D.idx l ⊆ S ∧ (s.index l).Within D.nodes S H :=
  ⟨_, _, Set.subset_univ _, .of_univ h⟩

/-- The storage has pointers into the region only. -/
structure Holds (ls : LocalStorage V m) : Prop where
  written : ∀ n we, ls.writeSet.lookup n = some we →
    n ∈ D.nodes ∧ ∀ y, we.next = some y → y ∈ D.nodes
  read : ∀ n ∈ ls.readSet, n ∈ D.nodes
  added : ∀ l, ∀ n ∈ ls.indexAdd l, l ∈ D.lists ∧ n ∈ D.nodes
  removed : ∀ l, ∀ n ∈ ls.indexRemove l, l ∈ D.lists ∧ n ∈ D.nodes

/-- The states agree on the region. -/
structure Same (s s' : Shared K V m) : Prop where
  gvc : s'.gvc = s.gvc
  fresh : s'.fresh = s.fresh
  retired : s'.retired = s.retired
  mem : ∀ n ∈ D.nodes, s'.mem n = s.mem n
  index : ∀ l ∈ D.lists, s'.index l = s.index l

/-- What is outside has stayed as it was, and none of it has been retired; numbers are not reused. -/
structure Spares (s₀ s : Shared K V m) : Prop where
  fresh : s₀.fresh ≤ s.fresh
  mem : ∀ n, n ∉ D.nodes → s.mem n = s₀.mem n
  index : ∀ l, l ∉ D.lists → s.index l = s₀.index l
  retired : ∃ rs, s.retired = rs ++ s₀.retired ∧ ∀ n ∈ rs, n ∈ D.nodes

end Region

/-- Two states of a call that differ outside the region only, after it has started in `s₀` and in
`s₀'`. The next `k` new nodes are in the region; `P` is what is known of the thread's own state, and
with `W` its transaction is the same in both. -/
structure Apart (W : Prop) (D : Region m) (s₀ s₀' : Shared K V m)
    (P : LocalStorage V m → LocalTransaction → Prop) (k : Nat) (c c' : Ctx K V m) : Prop where
  closes : D.Closes c.shared
  room : ∀ i < k, c.shared.fresh + i ∈ D.nodes
  same : D.Same c.shared c'.shared
  spares : D.Spares s₀ c.shared
  spares' : D.Spares s₀' c'.shared
  storage : c'.storage = c.storage
  own : P c.storage c.transaction
  TX : c'.transaction.TX = c.transaction.TX
  readOnly : c'.transaction.readOnly = c.transaction.readOnly
  readVersion : c.transaction.TX = true → c'.transaction.readVersion = c.transaction.readVersion
  whole : W → c'.transaction = c.transaction

namespace Region.Spares

variable {D : Region m} {s₀ s : Shared K V m}

theorem refl (s : Shared K V m) : D.Spares s s :=
  ⟨le_rfl, fun _ _ => rfl, fun _ _ => rfl, [], rfl, fun _ h => by simp at h⟩

theorem setNode (h : D.Spares s₀ s) {n : NodeId} (hn : n ∈ D.nodes) (x : LNode K V) :
    D.Spares s₀ (s.setNode n x) := by
  refine ⟨h.fresh, fun k hk => ?_, h.index, h.retired⟩
  rw [Shared.setNode_mem, Function.update_of_ne (by rintro rfl; exact hk hn)]
  exact h.mem k hk

theorem setIndex (h : D.Spares s₀ s) {l : ListId m} (hl : l ∈ D.lists) (ix : Index) :
    D.Spares s₀ { s with index := Function.update s.index l ix } := by
  refine ⟨h.fresh, h.mem, fun l' hl' => ?_, h.retired⟩
  have hne : l' ≠ l := by
    rintro rfl
    exact hl' hl
  simpa only [Function.update_of_ne hne] using h.index l' hl'

theorem retire (h : D.Spares s₀ s) {n : NodeId} (hn : n ∈ D.nodes) :
    D.Spares s₀ { s with retired := n :: s.retired } := by
  obtain ⟨rs, hrs, hmem⟩ := h.retired
  refine ⟨h.fresh, h.mem, h.index, n :: rs, by rw [hrs]; rfl, fun j hj => ?_⟩
  rcases List.mem_cons.1 hj with rfl | hj
  · exact hn
  · exact hmem j hj

end Region.Spares

/-! ## Single steps -/

namespace Apart

variable {W : Prop} {D : Region m} {s₀ s₀' : Shared K V m} {P P' : LocalStorage V m → LocalTransaction → Prop}
  {k : Nat} {c c' : Ctx K V m} {n : NodeId} {l : ListId m}

theorem refl (hD : D.Closes c.shared) (hroom : ∀ i < k, c.shared.fresh + i ∈ D.nodes)
    (hP : P c.storage c.transaction) : Apart W D c.shared c.shared P k c c :=
  ⟨hD, hroom, ⟨rfl, rfl, rfl, fun _ _ => rfl, fun _ _ => rfl⟩, .refl _, .refl _, rfl, hP, rfl, rfl,
    fun _ => rfl, fun _ => rfl⟩

theorem weaken (h : Apart W D s₀ s₀' P k c c') (hP : ∀ ls t, P ls t → P' ls t) {j : Nat} (hj : j ≤ k) :
    Apart W D s₀ s₀' P' j c c' :=
  { h with room := fun i hi => h.room i (hi.trans_le hj), own := hP _ _ h.own }

theorem fewer (h : Apart W D s₀ s₀' P k c c') : Apart W D s₀ s₀' P 0 c c' :=
  h.weaken (fun _ _ => id) (Nat.zero_le k)

/-- A node of the region is changed. -/
theorem setNode (h : Apart W D s₀ s₀' P k c c') (hn : n ∈ D.nodes) {x : LNode K V}
    (hx : ∀ y, x.next = some y → y ∈ D.nodes) :
    Apart W D s₀ s₀' P k { c with shared := c.shared.setNode n x }
      { c' with shared := c'.shared.setNode n x } := by
  refine { h with
    closes := ⟨h.closes.head, fun j hj y hy => ?_, h.closes.index⟩
    same := ⟨h.same.gvc, h.same.fresh, h.same.retired, fun j hj => ?_, h.same.index⟩
    spares := h.spares.setNode hn x
    spares' := h.spares'.setNode hn x }
  · by_cases hjn : j = n
    · subst hjn
      exact hx y (by simpa using hy)
    · exact h.closes.next j hj y (by simpa [hjn] using hy)
  · by_cases hjn : j = n
    · simp [hjn]
    · simpa [hjn] using h.same.mem j hj

/-- An index of the region is changed. -/
theorem setIndex (h : Apart W D s₀ s₀' P k c c') (hl : l ∈ D.lists) {ix : Index}
    (hix : ∃ S H, D.idx l ⊆ S ∧ ix.Within D.nodes S H) : Apart W D s₀ s₀' P k
      { c with shared := { c.shared with index := Function.update c.shared.index l ix } }
      { c' with shared := { c'.shared with index := Function.update c'.shared.index l ix } } := by
  refine { h with
    closes := ⟨h.closes.head, h.closes.next, fun j hj => ?_⟩
    same := ⟨h.same.gvc, h.same.fresh, h.same.retired, h.same.mem, fun j hj => ?_⟩
    spares := h.spares.setIndex hl ix
    spares' := h.spares'.setIndex hl ix }
  · by_cases hjl : j = l
    · subst hjl
      simpa using hix
    · simpa [hjl] using h.closes.index j hj
  · by_cases hjl : j = l
    · simp [hjl]
    · simpa [hjl] using h.same.index j hj

/-- The clock moves on. -/
theorem increment (h : Apart W D s₀ s₀' P k c c') : Apart W D s₀ s₀' P k
    { c with shared := { c.shared with gvc := c.shared.gvc + 1 } }
    { c' with shared := { c'.shared with gvc := c'.shared.gvc + 1 } } :=
  { h with
    closes := ⟨h.closes.head, h.closes.next, h.closes.index⟩
    same := ⟨by rw [h.same.gvc], h.same.fresh, h.same.retired, h.same.mem, h.same.index⟩
    spares := ⟨h.spares.fresh, h.spares.mem, h.spares.index, h.spares.retired⟩
    spares' := ⟨h.spares'.fresh, h.spares'.mem, h.spares'.index, h.spares'.retired⟩ }

/-- A new node. -/
theorem alloc (h : Apart W D s₀ s₀' P (k + 1) c c') {x : LNode K V}
    (hx : ∀ y, x.next = some y → y ∈ D.nodes) : Apart W D s₀ s₀' P k
      { c with shared := { c.shared.setNode c.shared.fresh x with fresh := c.shared.fresh + 1 } }
      { c' with shared := { c'.shared.setNode c'.shared.fresh x with fresh := c'.shared.fresh + 1 } } := by
  have h' := h.setNode (h.room 0 (Nat.zero_lt_succ k)) hx
  rw [Nat.add_zero] at h'
  rw [h.same.fresh]
  refine { h with
    closes := ⟨h'.closes.head, h'.closes.next, h'.closes.index⟩
    room := fun i hi => ?_
    same := ⟨h'.same.gvc, rfl, h'.same.retired, h'.same.mem, h'.same.index⟩
    spares := ⟨h'.spares.fresh.trans (Nat.le_succ _), h'.spares.mem, h'.spares.index, h'.spares.retired⟩
    spares' := ⟨(h.same.fresh ▸ h'.spares'.fresh).trans (Nat.le_succ _), h'.spares'.mem,
      h'.spares'.index, h'.spares'.retired⟩ }
  have hroom := h.room (i + 1) (Nat.succ_lt_succ hi)
  rwa [← Nat.add_assoc, Nat.add_right_comm] at hroom

/-- A node of the region is retired. -/
theorem retire (h : Apart W D s₀ s₀' P k c c') (hn : n ∈ D.nodes) : Apart W D s₀ s₀' P k
    { c with shared := { c.shared with retired := n :: c.shared.retired } }
    { c' with shared := { c'.shared with retired := n :: c'.shared.retired } } :=
  { h with
    closes := ⟨h.closes.head, h.closes.next, h.closes.index⟩
    same := ⟨h.same.gvc, h.same.fresh, by rw [h.same.retired], h.same.mem, h.same.index⟩
    spares := h.spares.retire hn
    spares' := h.spares'.retire hn }

/-- The storage is changed. -/
theorem setStorage (h : Apart W D s₀ s₀' P k c c') {ls : LocalStorage V m} (hP : P' ls c.transaction) :
    Apart W D s₀ s₀' P' k { c with storage := ls } { c' with storage := ls } :=
  { h with storage := rfl, own := hP }

section Programs

variable {α : Type} {E : Err → Ctx K V m → Ctx K V m → Prop} (h : Apart W D s₀ s₀' P k c c')

include h

theorem node {Q : LNode K V → Ctx K V m → Ctx K V m → Prop} (hn : n ∈ D.nodes)
    (hQ : Q (c.shared.mem n) c c') : EndsAlike (node n) c c' Q E := ⟨h.same.mem n hn, hQ⟩

theorem modifyNode {Q : Unit → Ctx K V m → Ctx K V m → Prop} (hn : n ∈ D.nodes)
    {f : LNode K V → LNode K V} (hf : ∀ y, (f (c.shared.mem n)).next = some y → y ∈ D.nodes)
    (hQ : ∀ d d', Apart W D s₀ s₀' P k d d' → Q () d d') : EndsAlike (modifyNode n f) c c' Q E := by
  have hmod := h.setNode hn hf
  refine ⟨rfl, hQ _ _ ?_⟩
  simpa only [h.same.mem n hn] using hmod

theorem getVersion {Q : Nat → Ctx K V m → Ctx K V m → Prop} (hQ : Q c.shared.gvc c c') :
    EndsAlike getVersion c c' Q E := ⟨h.same.gvc, hQ⟩

theorem incrementAndGetVersion {Q : Nat → Ctx K V m → Ctx K V m → Prop}
    (hQ : ∀ d d', Apart W D s₀ s₀' P k d d' → d.transaction = c.transaction → Q (c.shared.gvc + 1) d d') :
    EndsAlike incrementAndGetVersion c c' Q E :=
  ⟨congrArg (· + 1) h.same.gvc, hQ _ _ h.increment rfl⟩

omit h in
theorem assert {Q : Unit → Ctx K V m → Ctx K V m → Prop} {b : Bool} (hQ : b = true → Q () c c')
    (hE : b = false → E .assertFailed c c') : EndsAlike (TxList.assert b) c c' Q E := by
  cases b with
  | true => exact ⟨rfl, hQ rfl⟩
  | false => exact ⟨rfl, hE rfl⟩

theorem tryLock {Q : Bool → Ctx K V m → Ctx K V m → Prop} (hn : n ∈ D.nodes)
    (hQ : ∀ b d d', Apart W D s₀ s₀' P k d d' → Q b d d') : EndsAlike (tryLock n) c c' Q E := by
  refine .bind (h.node hn (.ite (fun _ => .pure (hQ _ _ _ h)) fun _ => ?_))
  exact .bind (h.modifyNode hn (h.closes.next n hn) fun d d' hd => .pure (hQ _ _ _ hd))

theorem lockedUpdate {Q : Unit → Ctx K V m → Ctx K V m → Prop} (hn : n ∈ D.nodes)
    {f : LNode K V → LNode K V} (hf : ∀ y, (f (c.shared.mem n)).next = some y → y ∈ D.nodes)
    (hQ : ∀ d d', Apart W D s₀ s₀' P k d d' → Q () d d') (hE : E .assertFailed c c') :
    EndsAlike (lockedUpdate n f) c c' Q E :=
  .bind (h.node hn (.bind (assert (fun _ => h.modifyNode hn hf hQ) fun _ => hE)))

theorem unlock {Q : Unit → Ctx K V m → Ctx K V m → Prop} (hn : n ∈ D.nodes)
    (hQ : ∀ d d', Apart W D s₀ s₀' P k d d' → Q () d d') (hE : E .assertFailed c c') :
    EndsAlike (unlock n) c c' Q E :=
  .bind (h.node hn (.bind (assert (fun _ => h.modifyNode hn (h.closes.next n hn) hQ) fun _ => hE)))

theorem retire_node {Q : Unit → Ctx K V m → Ctx K V m → Prop} (hn : n ∈ D.nodes)
    (hQ : ∀ d d', Apart W D s₀ s₀' P k d d' → Q () d d') : EndsAlike (retire_node n) c c' Q E :=
  ⟨rfl, hQ _ _ (h.retire hn)⟩

theorem agree : Index.Agree c.shared.view c'.shared.view D.nodes := by
  intro n hn
  simp [Shared.view, h.same.mem n hn]

theorem onIndex {Q : α → Ctx K V m → Ctx K V m → Prop} (hl : l ∈ D.lists)
    {f : NodeView K → Index → Option (Index × α)}
    (hf : f c'.shared.view (c.shared.index l) = f c.shared.view (c.shared.index l))
    (hE : E .diverged c c')
    (hQ : ∀ ix a, f c.shared.view (c.shared.index l) = some (ix, a) →
      (∃ S H, D.idx l ⊆ S ∧ ix.Within D.nodes S H) ∧ ∀ d d', Apart W D s₀ s₀' P k d d' → Q a d d') :
    EndsAlike (onIndex l f) c c' Q E := by
  simp only [EndsAlike, TxList.onIndex, Bind.bind, EStateM.bind, get_apply, h.same.index l hl, hf]
  rcases hx : f c.shared.view (c.shared.index l) with _ | ⟨ix, a⟩
  · exact ⟨rfl, hE⟩
  · obtain ⟨hix, hQ⟩ := hQ ix a hx
    exact ⟨rfl, hQ _ _ (h.setIndex hl hix)⟩

end Programs

theorem newNode {Q : NodeId → Ctx K V m → Ctx K V m → Prop} {E : Err → Ctx K V m → Ctx K V m → Prop}
    (h : Apart W D s₀ s₀' P (k + 1) c c') {key : K} {val : V}
    (hQ : ∀ n ∈ D.nodes, ∀ d d', Apart W D s₀ s₀' P k d d' → Q n d d') :
    EndsAlike (get_new_node key val) c c' Q E := by
  have hn := h.room 0 (Nat.zero_lt_succ k)
  exact ⟨h.same.fresh, hQ _ hn _ _ (h.alloc fun y hy => by simp at hy)⟩

end Apart

/-! ## In a transaction -/

/-- The transaction is open, and its storage within the region. -/
def Region.Opened (D : Region m) (ls : LocalStorage V m) (t : LocalTransaction) : Prop :=
  D.Holds ls ∧ t.TX = true

/-- The storage is within the region. -/
def Region.Held (D : Region m) (ls : LocalStorage V m) (_ : LocalTransaction) : Prop := D.Holds ls

namespace Region.Holds

variable {D : Region m} {ls : LocalStorage V m}

theorem empty : D.Holds ({} : LocalStorage V m) :=
  ⟨fun n we h => by simp at h, fun n h => by simp at h, fun l n h => by simp at h,
    fun l n h => by simp at h⟩

theorem write (h : D.Holds ls) {n : NodeId} {next : Option NodeId} (val : Option V) (b : Bool)
    (hn : n ∈ D.nodes) (hnext : ∀ y, next = some y → y ∈ D.nodes) :
    D.Holds (ls.putIntoWriteSet n next val b) := by
  refine ⟨fun k we hk => ?_, h.read, h.added, h.removed⟩
  by_cases he : k = n
  · subst he
    simp only [LocalStorage.putIntoWriteSet_writeSet, AList.lookup_insert, Option.some.injEq] at hk
    subst hk
    exact ⟨hn, hnext⟩
  · simp only [LocalStorage.putIntoWriteSet_writeSet, AList.lookup_insert_ne he] at hk
    exact h.written k we hk

theorem addToReadSet (h : D.Holds ls) {n : NodeId} (hn : n ∈ D.nodes) : D.Holds (ls.addToReadSet n) := by
  refine ⟨h.written, fun k hk => ?_, h.added, h.removed⟩
  rcases Finset.mem_insert.1 hk with rfl | hk
  · exact hn
  · exact h.read k hk

theorem addToIndexAdd (h : D.Holds ls) {l : ListId m} {n : NodeId} (hl : l ∈ D.lists)
    (hn : n ∈ D.nodes) : D.Holds (ls.addToIndexAdd l n) := by
  refine ⟨h.written, h.read, fun l' k hk => ?_, h.removed⟩
  by_cases he : l' = l
  · subst he
    simp only [LocalStorage.addToIndexAdd, Function.update_self, List.mem_append,
      List.mem_singleton] at hk
    rcases hk with hk | rfl
    · exact h.added _ k hk
    · exact ⟨hl, hn⟩
  · simp only [LocalStorage.addToIndexAdd, Function.update_of_ne he] at hk
    exact h.added l' k hk

theorem addToIndexRemove (h : D.Holds ls) {l : ListId m} {n : NodeId} (hl : l ∈ D.lists)
    (hn : n ∈ D.nodes) : D.Holds (ls.addToIndexRemove l n) := by
  refine ⟨h.written, h.read, h.added, fun l' k hk => ?_⟩
  by_cases he : l' = l
  · subst he
    simp only [LocalStorage.addToIndexRemove, Function.update_self, List.mem_append,
      List.mem_singleton] at hk
    rcases hk with hk | rfl
    · exact h.removed _ k hk
    · exact ⟨hl, hn⟩
  · simp only [LocalStorage.addToIndexRemove, Function.update_of_ne he] at hk
    exact h.removed l' k hk

end Region.Holds

namespace Apart

variable {W : Prop} {D : Region m} {s₀ s₀' : Shared K V m} {k : Nat} {c c' : Ctx K V m} {n : NodeId}
  {l : ListId m}

section Index

variable [LinearOrder K] {P : LocalStorage V m → LocalTransaction → Prop} {key : K}

theorem indexGetPred {E : Err → Ctx K V m → Ctx K V m → Prop} (h : Apart W D s₀ s₀' P k c c')
    (hl : l ∈ D.lists) (fuel : Nat) (hE : E .diverged c c') : EndsAlike (indexGetPred fuel l key) c c'
      (fun p d d' => p ∈ D.nodes ∧ Apart W D s₀ s₀' P k d d') E := by
  obtain ⟨S, H, hS, hw⟩ := h.closes.index l hl
  obtain ⟨he, hp⟩ := hw.getPred h.agree key fuel
  refine h.onIndex hl he hE fun ix p hix => ?_
  obtain ⟨hw', hpD⟩ := hp ix p hix
  exact ⟨⟨S, H, hS, hw'⟩, fun d d' hd => ⟨hpD, hd⟩⟩

theorem indexAdd {E : Err → Ctx K V m → Ctx K V m → Prop} (h : Apart W D s₀ s₀' P k c c')
    (hl : l ∈ D.lists) (hn : n ∈ D.nodes) (fuel drawn : Nat) (hE : E .diverged c c') :
    EndsAlike (TxList.onIndex l fun v ix => (ix.add v fuel drawn n).map (·, ())) c c'
      (fun _ => Apart W D s₀ s₀' P k) E := by
  obtain ⟨S, H, hS, hw⟩ := h.closes.index l hl
  obtain ⟨he, hadd⟩ := hw.add h.agree fuel drawn hn
  refine h.onIndex hl (by rw [he]) hE fun ix p hp => ⟨?_, fun d d' hd => hd⟩
  simp only [Option.map_eq_some_iff, Prod.mk.injEq] at hp
  obtain ⟨ix', hix, rfl, -⟩ := hp
  obtain ⟨S', H', hS', hw'⟩ := hadd ix' hix
  exact ⟨S', H', hS.trans hS', hw'⟩

theorem indexRemove {E : Err → Ctx K V m → Ctx K V m → Prop} (h : Apart W D s₀ s₀' P k c c')
    (hl : l ∈ D.lists) (hn : n ∈ D.nodes) (fuel : Nat) (hE : E .diverged c c') :
    EndsAlike (TxList.onIndex l fun v ix => (ix.remove v fuel n).map (·, ())) c c'
      (fun _ => Apart W D s₀ s₀' P k) E := by
  obtain ⟨S, H, hS, hw⟩ := h.closes.index l hl
  obtain ⟨he, hrem⟩ := hw.remove h.agree fuel hn
  refine h.onIndex hl (by rw [he]) hE fun ix p hp => ⟨?_, fun d d' hd => hd⟩
  simp only [Option.map_eq_some_iff, Prod.mk.injEq] at hp
  obtain ⟨ix', hix, rfl, -⟩ := hp
  obtain ⟨H', hw'⟩ := hrem ix' hix
  exact ⟨S, H', hS, hw'⟩

end Index

section Transaction

/-- Where a call in a transaction ends with an exception. -/
abbrev Quit (W : Prop) (D : Region m) (s₀ s₀' : Shared K V m) : Err → Ctx K V m → Ctx K V m → Prop :=
  fun _ => Apart W D s₀ s₀' D.Held 0

variable (h : Apart W D s₀ s₀' D.Opened k c c')

include h

theorem quit : Apart W D s₀ s₀' D.Held 0 c c' := h.weaken (fun _ _ hP => hP.1) (Nat.zero_le k)

omit h in
theorem opened (h : Apart W D s₀ s₀' D.Held k c c') (hT : c.transaction.TX = true) :
    Apart W D s₀ s₀' D.Opened k c c' := { h with own := ⟨h.own, hT⟩ }

theorem abortTX {α : Type} {Q : α → Ctx K V m → Ctx K V m → Prop} :
    EndsAlike (abortTX : Call K V m α) c c' Q (Quit W D s₀ s₀') :=
  ⟨rfl, { h.quit with
    TX := rfl, readOnly := h.readOnly, readVersion := fun hT => by simp at hT
    whole := fun hW => by simp only [h.whole hW] }⟩

theorem checkNode (hn : n ∈ D.nodes) : EndsAlike (checkNode n) c c'
    (fun _ d d' => c = d ∧ c' = d') (Quit W D s₀ s₀') := by
  have hrv := h.readVersion h.own.2
  refine .bind (h.node hn (.get_bind ?_ ?_))
  · simp only [tooNew, hrv]
    rfl
  refine .ite (fun _ => .bind h.abortTX) fun _ => .ite (fun _ => ?_) fun _ => .pure ⟨rfl, rfl⟩
  exact .bind (h.incrementAndGetVersion fun d d' hd _ => hd.abortTX)

theorem getVal (hn : n ∈ D.nodes) : EndsAlike (getVal n) c c' (fun _ d d' => c = d ∧ c' = d')
    (Quit W D s₀ s₀') := by
  refine .get_bind (by rw [h.storage]) ?_
  rcases c.storage.writeSet.lookup n with _ | we
  · exact .bind (h.node hn (.pure ⟨rfl, rfl⟩))
  · exact .pure ⟨rfl, rfl⟩

theorem getNext (hn : n ∈ D.nodes) : EndsAlike (getNext n) c c'
    (fun o d d' => (∀ y, o = some y → y ∈ D.nodes) ∧ c = d ∧ c' = d') (Quit W D s₀ s₀') := by
  refine .get_bind (by rw [h.storage]) ?_
  rcases hw : c.storage.writeSet.lookup n with _ | we
  · refine .bind (h.node hn (.ite (fun _ => .bind h.abortTX) fun _ => ?_))
    refine .bind (h.node hn (.bind ((h.checkNode hn).mono ?_ fun _ _ _ => id)))
    rintro _ _ _ ⟨rfl, rfl⟩
    rcases hnext : (c.shared.mem n).next with _ | y
    · exact .pure ⟨fun y hy => by simp at hy, rfl, rfl⟩
    · have hy := h.closes.next n hn y hnext
      refine .bind ((h.checkNode hy).mono ?_ fun _ _ _ => id)
      rintro _ _ _ ⟨rfl, rfl⟩
      refine .pure ⟨fun z hz => ?_, rfl, rfl⟩
      exact Option.some.inj hz ▸ hy
  · exact .pure ⟨(h.own.1.written n we hw).2, rfl, rfl⟩

variable [LinearOrder K] {key : K}

omit h in
theorem getPredLoop (hl : l ∈ D.lists) (fuel : Nat) : ∀ (j : Nat) {c c' : Ctx K V m} {pred : NodeId},
    Apart W D s₀ s₀' D.Opened k c c' → pred ∈ D.nodes → EndsAlike (getPredLoop fuel l j pred) c c'
      (fun p d d' => p ∈ D.nodes ∧ Apart W D s₀ s₀' D.Opened k d d') (Quit W D s₀ s₀')
  | 0, _, _, _, h, _ => .throw h.quit
  | j + 1, c, c', pred, h, hp => by
    refine .bind ((h.checkNode hp).mono ?_ fun _ _ _ => id)
    rintro _ _ _ ⟨rfl, rfl⟩
    refine .bind (h.node hp (.get_bind (by rw [h.storage]) (.ite (fun _ => ?_) fun _ => .pure ⟨hp, h⟩)))
    refine .bind (assert (fun _ => .bind ?_) fun _ => h.quit)
    exact (h.indexGetPred hl fuel h.quit).mono (fun p d d' hd => getPredLoop hl fuel j hd.2 hd.1)
      fun _ _ _ => id

theorem findLoop : ∀ (j : Nat) {pred : NodeId} {next : Option NodeId}, pred ∈ D.nodes →
    (∀ y, next = some y → y ∈ D.nodes) → EndsAlike (findLoop key j pred next) c c'
      (fun r d d' => r.2.1 ∈ D.nodes ∧ (∀ y, r.2.2 = some y → y ∈ D.nodes) ∧
        Apart W D s₀ s₀' D.Opened k d d') (Quit W D s₀ s₀')
  | 0, _, _, _, _ => .throw h.quit
  | _ + 1, _, none, hp, hn => .pure ⟨hp, hn, h⟩
  | j + 1, pred, some y, hp, hn => by
    have hy := hn y rfl
    refine .bind (h.node hy (.ite (fun _ => .pure ⟨hp, hn, h⟩) fun _ =>
      .ite (fun _ => .pure ⟨hp, hn, h⟩) fun _ => .bind ((h.getNext hy).mono ?_ fun _ _ _ => id)))
    rintro o _ _ ⟨ho, rfl, rfl⟩
    exact findLoop j hy ho

theorem find_node (hl : l ∈ D.lists) (fuel : Nat) : EndsAlike (find_node fuel l key) c c'
    (fun r d d' => r.2.1 ∈ D.nodes ∧ (∀ y, r.2.2 = some y → y ∈ D.nodes) ∧
      Apart W D s₀ s₀' D.Opened k d d') (Quit W D s₀ s₀') := by
  refine .bind (.bind ((h.indexGetPred hl fuel h.quit).mono (fun p d d' hd => ?_) fun _ _ _ => id))
  refine (getPredLoop hl fuel fuel hd.2 hd.1).mono (fun p e e' he => ?_) fun _ _ _ => id
  refine .bind ((he.2.getNext he.1).mono ?_ fun _ _ _ => id)
  rintro o _ _ ⟨ho, rfl, rfl⟩
  exact he.2.findLoop fuel he.1 ho

omit [LinearOrder K] in
theorem modifyStorage {f : LocalStorage V m → LocalStorage V m}
    {Q : Unit → Ctx K V m → Ctx K V m → Prop} {E : Err → Ctx K V m → Ctx K V m → Prop}
    (hf : D.Holds (f c.storage))
    (hQ : ∀ d d', Apart W D s₀ s₀' D.Opened k d d' → Q () d d') :
    EndsAlike (modifyStorage f) c c' Q E := by
  refine ⟨rfl, hQ _ _ ?_⟩
  have hset : Apart W D s₀ s₀' D.Opened k _ _ := h.setStorage ⟨hf, h.own.2⟩
  simpa only [h.storage] using hset

omit [LinearOrder K] in
theorem writing {Q : Unit → Ctx K V m → Ctx K V m → Prop} {E : Err → Ctx K V m → Ctx K V m → Prop}
    (hQ : ∀ d d', Apart W D s₀ s₀' D.Opened k d d' → Q () d d') :
    EndsAlike (modifyTransaction ({ · with readOnly := false })) c c' Q E :=
  ⟨rfl, hQ _ _ { h with
    own := h.own, TX := h.TX, readOnly := rfl, readVersion := h.readVersion
    whole := fun hW => by simp only [h.whole hW] }⟩

omit h in
theorem putTX (h : Apart W D s₀ s₀' D.Opened (k + 1) c c') (hl : l ∈ D.lists) (fuel : Nat) (val : V) :
    EndsAlike (putTX fuel l key val) c c' (fun _ => Apart W D s₀ s₀' D.Held 0) (Quit W D s₀ s₀') := by
  refine .bind (h.writing fun d d' hd => .bind ((hd.find_node hl fuel).mono ?_ fun _ _ _ => id))
  rintro ⟨found, pred, next⟩ e e' ⟨hp, hn, he⟩
  have hins : EndsAlike (do
      let n ← TxList.get_new_node key val
      TxList.modifyNode n ({ · with next := next })
      let predVal ← TxList.getVal pred
      TxList.modifyStorage (·.putIntoWriteSet pred (some n) predVal false)
      TxList.modifyStorage (·.addToIndexAdd l n)
      TxList.modifyStorage (·.addToReadSet pred)
      return (none : Option V)) e e' (fun _ => Apart W D s₀ s₀' D.Held 0) (Quit W D s₀ s₀') := by
    refine .bind (he.newNode fun n hnode f f' hf => .bind (hf.modifyNode hnode hn fun g g' hg => ?_))
    refine .bind ((hg.getVal hp).mono ?_ fun _ _ _ => id)
    rintro o _ _ ⟨rfl, rfl⟩
    have hnext : ∀ y, some n = some y → y ∈ D.nodes := fun y hy => Option.some.inj hy ▸ hnode
    refine .bind (hg.modifyStorage (hg.own.1.write _ _ hp hnext) fun a a' ha => ?_)
    refine .bind (ha.modifyStorage (ha.own.1.addToIndexAdd hl hnode) fun b b' hb => ?_)
    exact .bind (hb.modifyStorage (hb.own.1.addToReadSet hp) fun z z' hz => .pure hz.quit)
  rcases found with _ | _
  · exact hins
  rcases next with _ | x
  · exact hins
  have hx := hn x rfl
  have hend : ∀ d d' : Ctx K V m, Apart W D s₀ s₀' D.Opened (k + 1) d d' → EndsAlike (do
      TxList.modifyStorage fun ls => ls.addToReadSet x
      return (← TxList.node x).val) d d' (fun _ => Apart W D s₀ s₀' D.Held 0) (Quit W D s₀ s₀') :=
    fun d d' hd => .bind (hd.modifyStorage (hd.own.1.addToReadSet hx) fun f f' hf =>
      .bind (hf.node hx (.pure hf.quit)))
  refine .get_bind (by rw [he.storage]) ?_
  rcases hw : e.storage.writeSet.lookup x with _ | we
  · refine .bind (he.node hx (.bind ?_))
    exact he.modifyStorage (he.own.1.write _ _ hx (he.closes.next x hx)) hend
  · exact .bind (he.modifyStorage (he.own.1.write _ _ hx (he.own.1.written x we hw).2) hend)

theorem removeTX (hl : l ∈ D.lists) (fuel : Nat) : EndsAlike (removeTX fuel l key) c c'
    (fun _ => Apart W D s₀ s₀' D.Held 0) (Quit W D s₀ s₀') := by
  refine .bind (h.writing fun d d' hd => .bind ((hd.find_node hl fuel).mono ?_ fun _ _ _ => id))
  rintro ⟨found, pred, next⟩ e e' ⟨hp, hn, he⟩
  refine .bind (he.modifyStorage (he.own.1.addToReadSet hp) fun f f' hf => ?_)
  split
  · rename_i x
    have hx := hn x rfl
    refine .bind ((hf.getNext hx).mono ?_ fun _ _ _ => id)
    rintro after _ _ ⟨ha, rfl, rfl⟩
    refine .bind ((hf.getVal hp).mono ?_ fun _ _ _ => id)
    rintro pv _ _ ⟨rfl, rfl⟩
    refine .bind (hf.modifyStorage (hf.own.1.write _ _ hp ha) fun g g' hg => ?_)
    refine .bind ((hg.getVal hx).mono ?_ fun _ _ _ => id)
    rintro nv _ _ ⟨rfl, rfl⟩
    refine .bind (hg.modifyStorage (hg.own.1.write _ _ hx fun y hy => by simp at hy) fun a a' ha => ?_)
    refine .bind (ha.modifyStorage (ha.own.1.addToReadSet hx) fun b b' hb => ?_)
    refine .bind (hb.modifyStorage (hb.own.1.addToIndexRemove hl hx) fun z z' hz => ?_)
    refine (hz.getVal hx).mono ?_ fun _ _ _ => id
    rintro _ _ _ ⟨rfl, rfl⟩
    exact hz.quit
  · exact .pure hf.quit

theorem getTX (hl : l ∈ D.lists) (fuel : Nat) : EndsAlike (getTX fuel l key) c c'
    (fun _ => Apart W D s₀ s₀' D.Held 0) (Quit W D s₀ s₀') := by
  refine .bind ((h.find_node hl fuel).mono ?_ fun _ _ _ => id)
  rintro ⟨found, pred, next⟩ e e' ⟨hp, hn, he⟩
  refine .bind (he.modifyStorage (he.own.1.addToReadSet hp) fun f f' hf => ?_)
  split
  · rename_i x
    refine (hf.getVal (hn x rfl)).mono ?_ fun _ _ _ => id
    rintro _ _ _ ⟨rfl, rfl⟩
    exact hf.quit
  · exact .pure hf.quit

end Transaction

/-! ## Singletons -/

section Singleton

variable [LinearOrder K] {P : LocalStorage V m → LocalTransaction → Prop} {key : K}

/-- Where a singleton that does not return ends. -/
abbrev Stop (W : Prop) (D : Region m) (s₀ s₀' : Shared K V m)
    (P : LocalStorage V m → LocalTransaction → Prop) : Err → Ctx K V m → Ctx K V m → Prop :=
  fun _ => Apart W D s₀ s₀' P 0

theorem getPredSingletonLoop (hl : l ∈ D.lists) (fuel : Nat) : ∀ (j : Nat) {c c' : Ctx K V m}
    {pred : NodeId}, Apart W D s₀ s₀' P k c c' → pred ∈ D.nodes →
    EndsAlike (getPredSingletonLoop fuel l j pred) c c'
      (fun p d d' => p ∈ D.nodes ∧ Apart W D s₀ s₀' P k d d') (Stop W D s₀ s₀' P)
  | 0, _, _, _, h, _ => .throw h.fewer
  | j + 1, c, c', pred, h, hp => by
    refine .bind (h.node hp (.ite (fun _ => .ite (fun _ => .pure ⟨hp, h⟩) fun _ => .bind ?_)
      fun _ => .pure ⟨hp, h⟩))
    exact (h.indexGetPred hl fuel h.fewer).mono
      (fun p d d' hd => getPredSingletonLoop hl fuel j hd.2 hd.1) fun _ _ _ => id

theorem findSingletonLoop (h : Apart W D s₀ s₀' P k c c') : ∀ (j : Nat) {pred : NodeId}
    {next : Option NodeId}, pred ∈ D.nodes → (∀ y, next = some y → y ∈ D.nodes) →
    EndsAlike (findSingletonLoop key j pred next) c c'
      (fun r d d' => (∀ x, r = some x → x.2.1 ∈ D.nodes ∧ ∀ y, x.2.2 = some y → y ∈ D.nodes) ∧
        Apart W D s₀ s₀' P k d d') (Stop W D s₀ s₀' P)
  | 0, _, _, _, _ => .throw h.fewer
  | _ + 1, _, none, hp, hn => .pure ⟨fun x hx => by
      obtain rfl := Option.some.inj hx
      exact ⟨hp, hn⟩, h⟩
  | j + 1, pred, some y, hp, hn => by
    have hy := hn y rfl
    have hgive : ∀ {b : Bool} {o : Option NodeId}, (∀ y, o = some y → y ∈ D.nodes) →
        ∀ x, some (b, pred, o) = some x → x.2.1 ∈ D.nodes ∧ ∀ y, x.2.2 = some y → y ∈ D.nodes := by
      rintro b o ho _ ⟨⟩
      exact ⟨hp, ho⟩
    have hno : ∀ x : Bool × NodeId × Option NodeId, none = some x →
        x.2.1 ∈ D.nodes ∧ ∀ y, x.2.2 = some y → y ∈ D.nodes := fun x hx => by simp at hx
    refine .bind (h.node hy (.ite (fun _ => .pure ⟨hno, h⟩) fun _ => .ite (fun _ => ?_) fun _ =>
      .ite (fun _ => .pure ⟨hgive hn, h⟩) fun _ => ?_))
    · exact .bind (h.node hp (.pure ⟨hgive (h.closes.next pred hp), h⟩))
    · refine .bind (h.node hp (.ite (fun _ => .pure ⟨hno, h⟩) fun _ => .bind (h.node hp ?_)))
      rcases hnext : (c.shared.mem pred).next with _ | q
      · exact .pure ⟨hno, h⟩
      · have hq := h.closes.next pred hp q hnext
        exact .bind (h.node hq (.ite (fun _ => .pure ⟨hno, h⟩) fun _ =>
          findSingletonLoop h j hq (h.closes.next q hq)))

theorem find_node_singelton (hl : l ∈ D.lists) (fuel : Nat) : ∀ (j : Nat) {c c' : Ctx K V m},
    Apart W D s₀ s₀' P k c c' → EndsAlike (find_node_singelton fuel l key j) c c'
      (fun r d d' => r.2.1 ∈ D.nodes ∧ (∀ y, r.2.2 = some y → y ∈ D.nodes) ∧
        Apart W D s₀ s₀' P k d d') (Stop W D s₀ s₀' P)
  | 0, _, _, h => .throw h.fewer
  | j + 1, c, c', h => by
    refine .bind (.bind ((h.indexGetPred hl fuel h.fewer).mono (fun p d d' hd => ?_) fun _ _ _ => id))
    refine (getPredSingletonLoop hl fuel fuel hd.2 hd.1).mono (fun p e e' he => ?_) fun _ _ _ => id
    obtain ⟨hp, he⟩ := he
    refine .bind (he.node hp (.ite (fun _ => find_node_singelton hl fuel j he) fun _ =>
      .ite (fun _ => find_node_singelton hl fuel j he) fun _ => .bind ?_))
    refine (he.findSingletonLoop fuel hp (he.closes.next p hp)).mono ?_ fun _ _ _ => id
    rintro (_ | r) f f' ⟨hr, hf⟩
    · exact find_node_singelton hl fuel j hf
    · obtain ⟨h1, h2⟩ := hr r rfl
      exact .pure ⟨h1, h2, hf⟩

section Update

variable {α : Type} {update : NodeId → Call K V m α}

omit [LinearOrder K] in
theorem insertSingletonWith {pred : NodeId} {next : Option NodeId} (h : Apart W D s₀ s₀' P (k + 1) c c')
    (hu : ∀ n ∈ D.nodes, ∀ {d d' : Ctx K V m}, Apart W D s₀ s₀' P k d d' →
      EndsAlike (update n) d d' (fun _ => Apart W D s₀ s₀' P 0) (Stop W D s₀ s₀' P))
    (val : V) (hp : pred ∈ D.nodes) (hn : ∀ y, next = some y → y ∈ D.nodes) :
    EndsAlike (insertSingletonWith update key val pred next) c c' (fun _ => Apart W D s₀ s₀' P 0)
      (Stop W D s₀ s₀' P) := by
  refine .bind (h.newNode fun n hnode d d' hd => .bind (hd.modifyNode hnode hn fun e e' he => ?_))
  have hnext : ∀ y, some n = some y → y ∈ D.nodes := fun y hy => Option.some.inj hy ▸ hnode
  refine .bind (he.modifyNode hp hnext fun f f' hf => .bind (hf.getVersion ?_))
  refine .bind (hf.modifyNode hnode (hf.closes.next n hnode) fun g g' hg => ?_)
  exact .bind (hg.unlock hp (fun a a' ha => hu n hnode ha) hg.fewer)

theorem putSingletonLoopWith (hl : l ∈ D.lists) (fuel : Nat) (val : V)
    (hu : ∀ n ∈ D.nodes, ∀ {d d' : Ctx K V m}, Apart W D s₀ s₀' P k d d' →
      EndsAlike (update n) d d' (fun _ => Apart W D s₀ s₀' P 0) (Stop W D s₀ s₀' P)) :
    ∀ (j : Nat) {c c' : Ctx K V m}, Apart W D s₀ s₀' P (k + 1) c c' →
    EndsAlike (putSingletonLoopWith update fuel l key val j) c c' (fun _ => Apart W D s₀ s₀' P 0)
      (Stop W D s₀ s₀' P)
  | 0, _, _, h => .throw h.fewer
  | j + 1, c, c', h => by
    have hretry : ∀ {n : NodeId}, n ∈ D.nodes → ∀ {d d' : Ctx K V m}, Apart W D s₀ s₀' P (k + 1) d d' →
        EndsAlike (do TxList.unlock n; TxList.putSingletonLoopWith update fuel l key val j) d d'
          (fun _ => Apart W D s₀ s₀' P 0) (Stop W D s₀ s₀' P) := fun hn d d' hd =>
      .bind (hd.unlock hn (fun e e' he => putSingletonLoopWith hl fuel val hu j he) hd.fewer)
    refine .bind ((find_node_singelton hl fuel fuel h).mono ?_ fun _ _ _ => id)
    rintro ⟨found, pred, next⟩ d d' ⟨hp, hn, hd⟩
    rcases found with _ | _
    · have hins : ∀ {o : Option NodeId}, (∀ y, o = some y → y ∈ D.nodes) → ∀ {e e' : Ctx K V m},
          Apart W D s₀ s₀' P (k + 1) e e' → EndsAlike (do
            let a ← TxList.insertSingletonWith update key val pred o
            return ((none : Option V), some a)) e e' (fun _ => Apart W D s₀ s₀' P 0) (Stop W D s₀ s₀' P) :=
        fun ho e e' he =>
          .bind ((he.insertSingletonWith hu val hp ho).mono (fun _ f f' hf => .pure hf) fun _ _ _ => id)
      rcases next with _ | next
      · refine .bind (hd.tryLock hp fun b e e' he =>
          .ite (fun _ => .bind (he.node hp ?_)) fun _ => putSingletonLoopWith hl fuel val hu j he)
        exact .ite (fun _ => hretry hp he) fun _ => hins (fun y hy => by simp at hy) he
      · refine .bind (hd.tryLock hp fun b e e' he =>
          .ite (fun _ => .bind (he.node hp ?_)) fun _ => putSingletonLoopWith hl fuel val hu j he)
        exact .ite (fun _ => hretry hp he) fun _ => hins (he.closes.next pred hp) he
    · refine .bind (hd.node hp ?_)
      rcases hnode : (d.shared.mem pred).next with _ | node
      · exact .throw hd.fewer
      rcases next with _ | next
      · exact .throw hd.fewer
      have hnd := hd.closes.next pred hp node hnode
      have hnx := hn next rfl
      refine .bind (hd.tryLock hnd fun b e e' he => .ite (fun _ => .bind (he.node hnx ?_)) fun _ =>
        putSingletonLoopWith hl fuel val hu j he)
      refine .bind (he.node hnd (.ite (fun _ => hretry hnd he) fun _ => .bind (he.node hnd ?_)))
      refine .bind (he.modifyNode hnd (he.closes.next node hnd) fun f f' hf => ?_)
      refine .bind (hf.lockedUpdate hnd (hf.closes.next node hnd) (fun g g' hg => ?_) hf.fewer)
      refine .bind (hg.getVersion (.bind ?_))
      refine hg.lockedUpdate hnd (hg.closes.next node hnd) (fun a a' ha => ?_) hg.fewer
      exact .bind (ha.unlock hnd (fun z z' hz => .pure hz.fewer) ha.fewer)

theorem removeSingletonLoopWith (hl : l ∈ D.lists) (fuel : Nat)
    (hu : ∀ n ∈ D.nodes, ∀ {d d' : Ctx K V m}, Apart W D s₀ s₀' P k d d' →
      EndsAlike (update n) d d' (fun _ => Apart W D s₀ s₀' P 0) (Stop W D s₀ s₀' P)) :
    ∀ (j : Nat) {c c' : Ctx K V m}, Apart W D s₀ s₀' P k c c' →
    EndsAlike (removeSingletonLoopWith update fuel l key j) c c' (fun _ => Apart W D s₀ s₀' P 0)
      (Stop W D s₀ s₀' P)
  | 0, _, _, h => .throw h.fewer
  | j + 1, c, c', h => by
    have hretry : ∀ {n : NodeId}, n ∈ D.nodes → ∀ {d d' : Ctx K V m}, Apart W D s₀ s₀' P k d d' →
        EndsAlike (do TxList.unlock n; TxList.removeSingletonLoopWith update fuel l key j) d d'
          (fun _ => Apart W D s₀ s₀' P 0) (Stop W D s₀ s₀' P) := fun hn d d' hd =>
      .bind (hd.unlock hn (fun e e' he => removeSingletonLoopWith hl fuel hu j he) hd.fewer)
    refine .bind ((find_node_singelton hl fuel fuel h).mono ?_ fun _ _ _ => id)
    rintro ⟨found, pred, next⟩ d d' ⟨hp, hn, hd⟩
    rcases found with _ | _
    · exact .pure hd.fewer
    refine .bind (hd.tryLock hp fun b e e' he => .ite (fun _ => .bind (he.node hp ?_)) fun _ =>
      removeSingletonLoopWith hl fuel hu j he)
    refine .ite (fun _ => hretry hp he) fun _ => ?_
    rcases next with _ | next
    · exact .throw he.fewer
    have hx := hn next rfl
    refine .bind (he.tryLock hx fun b f f' hf => .ite (fun _ => ?_) fun _ => hretry hp hf)
    refine .bind (hf.node hx (.bind (hf.modifyNode hx (hf.closes.next next hx) fun g g' hg => ?_)))
    refine .bind (hg.node hp ?_)
    rcases hsec : (g.shared.mem pred).next with _ | second
    · exact .throw hg.fewer
    have hs := hg.closes.next pred hp second hsec
    refine .bind (hg.node hs (.bind ?_))
    refine hg.modifyNode hp (hg.closes.next second hs) fun a a' ha => .bind (ha.getVersion (.bind ?_))
    refine ha.lockedUpdate hx (ha.closes.next next hx) (fun b b' hb => .bind ?_) ha.fewer
    refine hb.lockedUpdate hp (hb.closes.next pred hp) (fun q q' hq => .bind ?_) hb.fewer
    refine hq.unlock hx (fun r r' hr => .bind ?_) hq.fewer
    refine hr.unlock hp (fun t t' ht => .bind ?_) hr.fewer
    exact (hu next hx ht).mono (fun _ u u' hu => .pure hu) fun _ _ _ => id

end Update

theorem putSingletonLoop (hl : l ∈ D.lists) (fuel : Nat) (level : NodeId → Nat) (val : V) (j : Nat)
    (h : Apart W D s₀ s₀' P (k + 1) c c') :
    EndsAlike (putSingletonLoop fuel level l key val j) c c' (fun _ => Apart W D s₀ s₀' P 0)
      (Stop W D s₀ s₀' P) :=
  .map (putSingletonLoopWith hl fuel val (fun n hn _ _ hd => (hd.indexAdd hl hn fuel (level n) hd.fewer).mono
    (fun _ _ _ he => he.fewer) fun _ _ _ => id) j h)

theorem removeSingletonLoop (hl : l ∈ D.lists) (fuel : Nat) (j : Nat) (h : Apart W D s₀ s₀' P k c c') :
    EndsAlike (removeSingletonLoop fuel l key j) c c' (fun _ => Apart W D s₀ s₀' P 0)
      (Stop W D s₀ s₀' P) := by
  refine .map (removeSingletonLoopWith hl fuel (fun n hn d d' hd => .bind ?_) j h)
  refine (hd.indexRemove hl hn fuel hd.fewer).mono (fun _ u u' hu => ?_) fun _ _ _ => id
  exact hu.retire_node hn fun z z' hz => hz.fewer

theorem getSingleton (h : Apart W D s₀ s₀' P k c c') (hl : l ∈ D.lists) (fuel : Nat) :
    EndsAlike (getSingleton fuel l key) c c' (fun _ => Apart W D s₀ s₀' P 0) (Stop W D s₀ s₀' P) := by
  refine .bind ((find_node_singelton hl fuel fuel h).mono ?_ fun _ _ _ => id)
  rintro ⟨found, pred, next⟩ d d' ⟨hp, hn, hd⟩
  rcases found with _ | _
  · exact .pure hd.fewer
  rcases next with _ | next
  · exact .throw hd.fewer
  · exact .bind (hd.node (hn next rfl) (.pure hd.fewer))

end Singleton

/-! ## The end of a transaction -/

section Ending

theorem lockWriteSet : ∀ (ns locked : List NodeId) {c c' : Ctx K V m}, Apart W D s₀ s₀' D.Opened k c c' →
    (∀ n ∈ ns, n ∈ D.nodes) → (∀ n ∈ locked, n ∈ D.nodes) → EndsAlike (lockWriteSet ns locked) c c'
      (fun r d d' => (∀ n ∈ r.2, n ∈ D.nodes) ∧ Apart W D s₀ s₀' D.Opened k d d') (Quit W D s₀ s₀')
  | [], _, _, _, h, _, hl => .pure ⟨hl, h⟩
  | n :: ns, locked, _, _, h, hns, hl => by
    have hn := hns n (by simp)
    refine .bind (h.tryLock hn fun b d d' hd => .ite (fun _ => ?_) fun _ => .pure ⟨hl, hd⟩)
    refine lockWriteSet ns (n :: locked) hd (fun j hj => hns j (by simp [hj])) fun j hj => ?_
    rcases List.mem_cons.1 hj with rfl | hj
    · exact hn
    · exact hl j hj

theorem validateReadSet (locked : List NodeId) : ∀ (ns : List NodeId) {c c' : Ctx K V m},
    Apart W D s₀ s₀' D.Opened k c c' → (∀ n ∈ ns, n ∈ D.nodes) →
    EndsAlike (validateReadSet locked ns) c c' (fun _ => Apart W D s₀ s₀' D.Opened k) (Quit W D s₀ s₀')
  | [], _, _, h, _ => .pure h
  | n :: ns, c, c', h, hns => by
    have hn := hns n (by simp)
    refine .bind (h.node hn (.get_bind (by rw [h.readVersion h.own.2]) ?_))
    refine .ite (fun _ => .pure h) fun _ => .ite (fun _ => .pure h) fun _ => .ite (fun _ => ?_) fun _ =>
      validateReadSet locked ns h fun j hj => hns j (by simp [hj])
    refine .bind (h.incrementAndGetVersion fun d d' hd _ => .bind ?_)
    exact hd.lockedUpdate hn (hd.closes.next n hn) (fun e e' he => .pure he) hd.quit

theorem writeBackSet (writeVersion : Nat) : ∀ (ns : List NodeId) {c c' : Ctx K V m},
    Apart W D s₀ s₀' D.Opened k c c' → EndsAlike (writeBackSet writeVersion ns) c c'
      (fun _ => Apart W D s₀ s₀' D.Opened k) (Quit W D s₀ s₀')
  | [], _, _, h => .pure h
  | n :: ns, c, c', h => by
    refine .get_bind (by rw [h.storage]) ?_
    rcases hw : c.storage.writeSet.lookup n with _ | we
    · exact .pure h
    · obtain ⟨hn, hnext⟩ := h.own.1.written n we hw
      refine .bind (h.lockedUpdate hn (fun y hy => hnext y ?_) (fun d d' hd => writeBackSet writeVersion ns hd)
        h.quit)
      rcases we with ⟨_, _, _ | _⟩ <;> exact hy

theorem unlockAll : ∀ (ns : List NodeId) {c c' : Ctx K V m}, Apart W D s₀ s₀' D.Opened k c c' →
    (∀ n ∈ ns, n ∈ D.nodes) → EndsAlike (unlockAll ns) c c' (fun _ => Apart W D s₀ s₀' D.Opened k)
      (Quit W D s₀ s₀')
  | [], _, _, h, _ => .pure h
  | n :: ns, _, _, h, hns => .bind (h.unlock (hns n (by simp))
      (fun _ _ hd => unlockAll ns hd fun j hj => hns j (by simp [hj])) h.quit)

theorem commitWrites {ch : Choice} (h : Apart W D s₀ s₀' D.Opened k c c') : EndsAlike (commitWrites ch) c c'
    (fun _ => Apart W D s₀ s₀' D.Opened k) (Quit W D s₀ s₀') := by
  refine .bind (h.incrementAndGetVersion fun d d' hd ht => .get_bind ?_ ?_)
  · rw [hd.readVersion hd.own.2]
  refine .bind (assert (fun _ => .bind ⟨rfl, ?_⟩) fun _ => hd.quit)
  exact writeBackSet _ ch.writeOrder { hd with
    own := hd.own, TX := hd.TX, readOnly := hd.readOnly, readVersion := hd.readVersion
    whole := fun hW => by simp only [hd.whole hW] }

variable {P : LocalStorage V m → LocalTransaction → Prop} {R : Ctx K V m → Ctx K V m → Prop}
  {E : Err → Ctx K V m → Ctx K V m → Prop}

theorem forLists {f : ListId m → Call K V m Unit} (hf : ∀ l {d d'}, R d d' →
    EndsAlike (f l) d d' (fun _ => R) E) : ∀ (ls : List (ListId m)) {c c' : Ctx K V m}, R c c' →
    EndsAlike (forLists f ls) c c' (fun _ => R) E
  | [], _, _, h => .pure h
  | l :: ls, _, _, h => .bind ((hf l h).mono (fun _ _ _ hd => forLists hf ls hd) fun _ _ _ => id)

theorem retireAll : ∀ (ns : List NodeId) {c c' : Ctx K V m}, Apart W D s₀ s₀' P k c c' →
    (∀ n ∈ ns, n ∈ D.nodes) → EndsAlike (retireAll ns) c c' (fun _ => Apart W D s₀ s₀' P k) E
  | [], _, _, h, _ => .pure h
  | n :: ns, _, _, h, hns => .bind (h.retire_node (hns n (by simp))
      fun _ _ hd => retireAll ns hd fun j hj => hns j (by simp [hj]))

theorem cleanup {Q : Unit → Ctx K V m → Ctx K V m → Prop} (h : Apart W D s₀ s₀' P k c c')
    (hQ : ∀ d d', Apart W D s₀ s₀' D.Held 0 d d' → Q () d d') : EndsAlike cleanup c c' Q E := by
  refine .bind (.modify (.modify (hQ _ _ ?_)))
  exact { h.fewer with
    storage := rfl, own := .empty, TX := rfl, readOnly := rfl, readVersion := fun hT => by simp at hT
    whole := fun hW => by simp only [h.whole hW] }

variable [LinearOrder K]

theorem addToIndex (fuel : Nat) (level : NodeId → Nat) : ∀ (ns : List NodeId) {c c' : Ctx K V m},
    Apart W D s₀ s₀' D.Opened k c c' → (∀ n ∈ ns, l ∈ D.lists ∧ n ∈ D.nodes) →
    EndsAlike (addToIndex fuel level l ns) c c' (fun _ => Apart W D s₀ s₀' D.Opened k) (Quit W D s₀ s₀')
  | [], _, _, h, _ => .pure h
  | n :: ns, _, _, h, hns => by
    obtain ⟨hl, hn⟩ := hns n (by simp)
    exact .bind ((h.indexAdd hl hn fuel (level n) h.quit).mono (fun _ d d' hd =>
      addToIndex fuel level ns hd fun j hj => hns j (by simp [hj])) fun _ _ _ => id)

theorem removeFromIndex (fuel : Nat) : ∀ (ns : List NodeId) {c c' : Ctx K V m},
    Apart W D s₀ s₀' D.Opened k c c' → (∀ n ∈ ns, l ∈ D.lists ∧ n ∈ D.nodes) →
    EndsAlike (removeFromIndex fuel l ns) c c' (fun _ => Apart W D s₀ s₀' D.Opened k) (Quit W D s₀ s₀')
  | [], _, _, h, _ => .pure h
  | n :: ns, _, _, h, hns => by
    obtain ⟨hl, hn⟩ := hns n (by simp)
    refine .bind ((h.indexRemove hl hn fuel h.quit).mono (fun _ d d' hd => .bind ?_) fun _ _ _ => id)
    exact hd.retire_node hn fun e e' he => removeFromIndex fuel ns he fun j hj => hns j (by simp [hj])

theorem updateIndex {ch : Choice} (h : Apart W D s₀ s₀' D.Opened k c c') : EndsAlike (updateIndex ch) c c'
    (fun _ => Apart W D s₀ s₀' D.Opened k) (Quit W D s₀ s₀') := by
  refine .get_bind (by rw [h.storage]) (.bind ?_)
  refine (forLists (fun l d d' hd => addToIndex ch.fuel ch.level _ hd (h.own.1.added l)) _ h).mono
    (fun _ d d' hd => ?_) fun _ _ _ => id
  exact forLists (fun l e e' he => removeFromIndex ch.fuel _ he (h.own.1.removed l)) _ hd

theorem TXend {ch : Choice} (h : Apart W D s₀ s₀' D.Held k c c') (ho : ch.Orders c.storage) :
    EndsAlike (TXend ch) c c' (fun _ => Apart W D s₀ s₀' D.Held 0) (Quit W D s₀ s₀') := by
  have hw : ∀ n ∈ ch.writeOrder, n ∈ D.nodes := by
    intro n hn
    obtain ⟨we, hwe⟩ := Option.isSome_iff_exists.1 (AList.lookup_isSome.2 (AList.mem_keys.1 (ho.1.mem_iff.1 hn)))
    exact (h.own.written n we hwe).1
  have hr : ∀ n ∈ ch.readOrder, n ∈ D.nodes := fun n hn =>
    h.own.read n (ho.2.2 ▸ List.mem_toFinset.2 hn)
  refine .get_bind (by simp only [h.TX, h.readOnly]) ?_
  have hend : ∀ (locked : List NodeId) (abort : Bool) {d d' : Ctx K V m}, (∀ n ∈ locked, n ∈ D.nodes) →
      Apart W D s₀ s₀' D.Opened k d d' → EndsAlike (do
        if !abort && !c.transaction.readOnly then TxList.commitWrites ch
        TxList.unlockAll locked
        if !abort && !c.transaction.readOnly then TxList.updateIndex ch
        TxList.cleanup
        if abort then throw .txAbort
        return true) d d' (fun _ => Apart W D s₀ s₀' D.Held 0) (Quit W D s₀ s₀') := by
    intro locked abort d d' hl hd
    have hclean : ∀ {d d' : Ctx K V m}, Apart W D s₀ s₀' D.Opened k d d' → EndsAlike (do
        TxList.cleanup
        if abort then throw .txAbort
        return true) d d' (fun _ => Apart W D s₀ s₀' D.Held 0) (Quit W D s₀ s₀') := fun hd =>
      .bind (hd.cleanup fun e e' he => .ite (fun _ => .bind (.throw he)) fun _ => .pure he)
    have hunlock : ∀ {d d' : Ctx K V m}, Apart W D s₀ s₀' D.Opened k d d' → EndsAlike (do
        TxList.unlockAll locked
        if !abort && !c.transaction.readOnly then TxList.updateIndex ch
        TxList.cleanup
        if abort then throw .txAbort
        return true) d d' (fun _ => Apart W D s₀ s₀' D.Held 0) (Quit W D s₀ s₀') := fun hd => by
      refine .bind ((unlockAll locked hd hl).mono (fun _ e e' he => ?_) fun _ _ _ => id)
      exact .ite (fun _ => .bind (he.updateIndex.mono (fun _ f f' hf => hclean hf) fun _ _ _ => id))
        fun _ => hclean he
    exact .ite (fun _ => .bind (hd.commitWrites.mono (fun _ e e' he => hunlock he) fun _ _ _ => id))
      fun _ => hunlock hd
  refine .ite (fun hT => .bind ?_) fun _ => .bind (.pure (.ite (fun _ => .bind (.pure ?_))
    fun hno => absurd rfl hno))
  · refine (lockWriteSet ch.writeOrder [] (h.opened hT) hw (by simp)).mono
      (fun r d d' hd => ?_) fun _ _ _ => id
    obtain ⟨abort, locked⟩ := r
    refine .ite (fun hab => .bind (.pure (hend locked true hd.1 hd.2))) fun _ => .bind ?_
    exact (validateReadSet locked ch.readOrder hd.2 hr).mono (fun b e e' he => hend locked b hd.1 he)
      fun _ _ _ => id
  · refine .ite (fun hno => by simp at hno) fun _ => .bind (.pure (.ite (fun hno => by simp at hno) fun _ => ?_))
    exact .bind (h.cleanup fun e e' he => .bind (.throw he))

omit [LinearOrder K] in
theorem handle_abort (h : Apart W D s₀ s₀' D.Held k c c') : EndsAlike handle_abort c c'
    (fun _ => Apart W D s₀ s₀' D.Held 0) E := by
  refine .get_bind (by rw [h.storage]) (.bind ?_)
  refine (forLists (fun l d d' hd => retireAll _ hd fun n hn => (h.own.added l n hn).2) _ h).mono
    (fun _ d d' hd => ?_) fun _ _ _ => id
  exact hd.cleanup fun e e' he => he

end Ending

/-! ## Calls -/

section Call

variable [LinearOrder K] {ch : Choice} {P : LocalStorage V m → LocalTransaction → Prop}

omit [LinearOrder K] in
theorem access {α : Type} {x y : Call K V m α} {Q : α → Ctx K V m → Ctx K V m → Prop}
    {E : Err → Ctx K V m → Ctx K V m → Prop} (h : Apart W D s₀ s₀' P k c c')
    (hx : c.transaction.TX = true → EndsAlike x c c' Q E)
    (hy : c.transaction.TX = false → EndsAlike y c c' Q E) :
    EndsAlike (do if (← get).transaction.TX then x else y) c c' Q E :=
  .get_bind (by rw [h.TX]) (.ite hx fun hno => hy (Bool.eq_false_of_not_eq_true hno))

/-- A singleton operation, whatever the storage. -/
theorem singleton {op : Op K V m} (h : Apart W D s₀ s₀' P k c c') (hop : op.isAccess = true)
    (hk : op.inserts = true → 0 < k) (hT : c.transaction.TX = false) (hl : D.Takes op) :
    EndsAlike (call ch op) c c' (fun _ => Apart W D s₀ s₀' P 0) (Stop W D s₀ s₀' P) := by
  have hno : ∀ {α : Type} {x : Call K V m α} {Q : α → Ctx K V m → Ctx K V m → Prop},
      c.transaction.TX = true → EndsAlike x c c' Q (Stop W D s₀ s₀' P) := fun h' => by simp [hT] at h'
  have hget : ∀ l key, l ∈ D.lists → EndsAlike (TxList.getKey ch.fuel l key) c c'
      (fun _ => Apart W D s₀ s₀' P 0) (Stop W D s₀ s₀' P) := fun l key hl =>
    h.access hno fun _ => h.getSingleton hl ch.fuel
  cases op with
  | put l key val =>
    obtain ⟨k, rfl⟩ := Nat.exists_eq_add_one.2 (hk rfl)
    refine .bind ((h.access hno fun _ => ?_).mono (fun _ _ _ hd => .pure hd) fun _ _ _ => id)
    exact (putSingletonLoop hl ch.fuel ch.level val ch.fuel h)
  | remove l key =>
    refine .bind ((h.access hno fun _ => ?_).mono (fun _ _ _ hd => .pure hd) fun _ _ _ => id)
    exact removeSingletonLoop hl ch.fuel ch.fuel h
  | get l key => exact .bind ((hget l key hl).mono (fun _ _ _ hd => .pure hd) fun _ _ _ => id)
  | containsKey l key =>
    exact .bind (.bind ((hget l key hl).mono (fun _ _ _ hd => .pure (.pure hd)) fun _ _ _ => id))
  | txBegin | txEnd | handleAbort => simp [Op.isAccess] at hop

/-- A call whose storage holds pointers into the region only. -/
theorem call {op : Op K V m} (h : Apart W D s₀ s₀' D.Held k c c') (hl : D.Takes op)
    (hk : op.inserts = true → 0 < k) (ho : op = .txEnd → ch.Orders c.storage) :
    EndsAlike (TxList.call ch op) c c' (fun _ => Apart W D s₀ s₀' D.Held 0) (Quit W D s₀ s₀') := by
  have haccess : op.isAccess = true → (c.transaction.TX = true →
      EndsAlike (TxList.call ch op) c c' (fun _ => Apart W D s₀ s₀' D.Held 0) (Quit W D s₀ s₀')) →
      EndsAlike (TxList.call ch op) c c' (fun _ => Apart W D s₀ s₀' D.Held 0) (Quit W D s₀ s₀') := by
    intro hop hx
    rcases hT : c.transaction.TX with _ | _
    · exact h.singleton hop hk hT hl
    · exact hx hT
  have hno : ∀ {α : Type} {x : Call K V m α} {Q : α → Ctx K V m → Ctx K V m → Prop},
      c.transaction.TX = true → c.transaction.TX = false → EndsAlike x c c' Q (Quit W D s₀ s₀') :=
    fun hT h' => by simp [hT] at h'
  have hget : ∀ l key, l ∈ D.lists → c.transaction.TX = true → EndsAlike (TxList.getKey ch.fuel l key)
      c c' (fun _ => Apart W D s₀ s₀' D.Held 0) (Quit W D s₀ s₀') := fun l key hl hT =>
    h.access (fun _ => (h.opened hT).getTX hl ch.fuel) (hno hT)
  cases op with
  | txBegin =>
    refine .bind (.bind (h.getVersion (.modify (.pure { h.fewer with
      own := h.own, TX := rfl, readOnly := h.readOnly, readVersion := fun _ => rfl
      whole := fun hW => by simp only [h.whole hW] }))))
  | put l key val =>
    obtain ⟨k, rfl⟩ := Nat.exists_eq_add_one.2 (hk rfl)
    refine haccess rfl fun hT => .bind ((h.access (fun _ => ?_) (hno hT)).mono
      (fun _ _ _ hd => .pure hd) fun _ _ _ => id)
    exact putTX (h.opened hT) hl ch.fuel val
  | remove l key =>
    refine haccess rfl fun hT => .bind ((h.access (fun _ => ?_) (hno hT)).mono
      (fun _ _ _ hd => .pure hd) fun _ _ _ => id)
    exact (h.opened hT).removeTX hl ch.fuel
  | get l key =>
    exact haccess rfl fun hT => .bind ((hget l key hl hT).mono (fun _ _ _ hd => .pure hd) fun _ _ _ => id)
  | containsKey l key =>
    exact haccess rfl fun hT =>
      .bind (.bind ((hget l key hl hT).mono (fun _ _ _ hd => .pure (.pure hd)) fun _ _ _ => id))
  | txEnd => exact .bind ((h.TXend (ho rfl)).mono (fun _ _ _ hd => .pure hd) fun _ _ _ => id)
  | handleAbort => exact .bind (h.handle_abort.mono (fun _ _ _ hd => .pure hd) fun _ _ _ => id)

end Call

end Apart

end TxList
