import TxList.PutIfAbsent
import TxList.Proofs.Acts
import TxList.Proofs.SoundStep
import TxList.Proofs.Scripts

/-!
# A singleton's insertion is noticed

After a singleton has put a new node in, the search of an open transaction for its key comes to the
node only from the one before it, and checks both. The stamp stops it there. A node that
`putIfAbsentSingleton` links at the end has none: a transaction that began earlier reads it, unless
the node before it tells of a change or the transaction has a write of its own for that node.
-/

namespace TxList

open Prog Chain

variable {K V : Type} {m : Nat}

/-- An insertion at the end: a new node without a stamp, after `pred`. -/
def Shared.insertBare (s : Shared K V m) (key : K) (val : V) (pred : NodeId) : Shared K V m :=
  (s.alloc { key, val := some val }).setNode pred { s.mem pred with next := some s.fresh }

section Rules

variable [LinearOrder K] {c : Ctx K V m} {E : Err → Ctx K V m → Prop} {fuel n : Nat} {l : ListId m}
  {level : NodeId → Nat} {key : K} {val : V} {R : Bool × NodeId × Option NodeId → Ctx K V m → Prop}
  {Q : Option V → Ctx K V m → Prop}

theorem appendSingleton_ends {pred : NodeId} {Q : Unit → Ctx K V m → Prop}
    (hl : (c.shared.mem pred).isLocked = false) (hp : pred ≠ c.shared.fresh)
    (h : Ends (onIndex l fun v ix => (ix.add v fuel (level c.shared.fresh) c.shared.fresh).map (·, ()))
      { c with shared := c.shared.insertBare key val pred } Q E) :
    Ends (appendSingleton fuel level l key val pred)
      { c with shared := c.shared.lock pred } Q E := by
  simp only [appendSingleton, Ends_bind, Ends_get_new_node, Ends_modifyNode, Ends_unlock]
  refine ⟨fun _ => ?_, fun hno => ?_⟩
  swap
  · simp [hp, Shared.lock, LNode.isLocked, LNode.setLock] at hno
  have hx : ∀ o, LNode.setLock { (c.shared.mem pred).setLock true with next := o } false
      = { c.shared.mem pred with next := o } := by
    intro o
    revert hl
    rcases c.shared.mem pred with ⟨k, v, nx, lk, d, s, ver⟩
    rintro rfl
    rfl
  refine Ends_shared ?_ h
  simp only [Shared.insertBare, Shared.unlock, Shared.lock, Shared.alloc, Shared.setNode,
    Function.update_self, Function.update_of_ne hp, hx]
  congr 1
  funext k
  by_cases hk : k = pred
  · subst hk
    simp
  · by_cases hk' : k = c.shared.fresh
    · subst hk'
      simp [hk]
    · simp [hk, hk']

/-- `putIfAbsentSingleton` cannot use what the search has found. -/
def Shared.BlocksAbsent (s : Shared K V m) (key : K) : Bool × NodeId × Option NodeId → Prop
  | (true, pred, next) => ∃ y, next = some y ∧ ((s.mem y).key ≠ key ∨ (s.mem pred).next ≠ some y ∨
      (s.mem y).isLockedOrDeleted = true)
  | (false, pred, next) => (s.mem pred).isLocked = true ∨ (s.mem pred).isDeleted = true ∨
      (s.mem pred).next ≠ next

theorem putIfAbsentSingletonLoop_ends (hfind : Ends (find_node_singelton fuel l key fuel) c R E)
    (hretry : ∀ r c', R r c' → c'.shared.BlocksAbsent key r →
      Ends (putIfAbsentSingletonLoop fuel level l key val n) c' Q E)
    (hfound : ∀ pred y c', R (true, pred, some y) c' → Q (c'.shared.mem y).val c')
    (hinsert : ∀ pred y c', R (false, pred, some y) c' → (c'.shared.mem pred).next = some y →
      (c'.shared.mem pred).isLocked = false → (c'.shared.mem pred).isDeleted = false →
      Ends (insertSingleton fuel level l key val pred (c'.shared.mem pred).next)
        { c' with shared := c'.shared.lock pred } (fun _ => Q none) E)
    (happend : ∀ pred c', R (false, pred, none) c' → (c'.shared.mem pred).next = none →
      (c'.shared.mem pred).isLocked = false → (c'.shared.mem pred).isDeleted = false →
      Ends (appendSingleton fuel level l key val pred)
        { c' with shared := c'.shared.lock pred } (fun _ => Q none) E)
    (hnull : ∀ pred c', R (true, pred, none) c' → E .nullDereference c') :
    Ends (putIfAbsentSingletonLoop fuel level l key val (n + 1)) c Q E := by
  have hback : ∀ {r c' y}, R r c' → (c'.shared.mem y).isLocked = false →
      c'.shared.BlocksAbsent key r → Ends (putIfAbsentSingletonLoop fuel level l key val n)
        { c' with shared := (c'.shared.lock y).unlock y } Q E :=
    fun hr hl hb => Ends_shared (Shared.lock_unlock hl) (hretry _ _ hr hb)
  simp only [putIfAbsentSingletonLoop, Ends_bind]
  refine hfind.mono (fun r c' hr => ?_) fun _ _ he => he
  split
  · rename_i pred next
    rcases next with _ | y
    · exact hnull pred c' hr
    simp only [Ends_bind, Ends_node, Ends_ite, Ends_pure]
    exact ⟨fun hb => hretry _ _ hr ⟨y, rfl, hb⟩, fun _ => hfound pred y c' hr⟩
  · rename_i pred y
    refine Ends_ifLock.2 ⟨fun hl => hretry _ _ hr (.inl hl), fun hl => ?_⟩
    simp only [Ends_bind, Ends_node, Ends_ite, Ends_unlock, lock_isLocked, forall_const,
      Bool.true_eq_false, false_implies, and_true]
    refine ⟨fun hbad => hback hr hl (.inr ?_), fun hok => ?_⟩
    · simp only [lock_mem_self, LNode.setLock, LNode.isDeleted, Bool.or_eq_true, bne_iff_ne,
        ne_eq] at hbad
      exact hbad.imp id fun h he => h he.symm
    simp only [lock_mem_self, LNode.setLock, LNode.isDeleted, Bool.or_eq_true, bne_iff_ne, ne_eq,
      not_or, Bool.not_eq_true, not_not] at hok
    simp only [Ends_pure, lock_mem_self, LNode.setLock]
    exact hinsert pred y c' hr hok.2.symm hl hok.1
  · rename_i pred
    refine Ends_ifLock.2 ⟨fun hl => hretry _ _ hr (.inl hl), fun hl => ?_⟩
    simp only [Ends_bind, Ends_node, Ends_ite, Ends_unlock, lock_isLocked, forall_const,
      Bool.true_eq_false, false_implies, and_true]
    refine ⟨fun hbad => hback hr hl (.inr ?_), fun hok => ?_⟩
    · simp only [lock_mem_self, LNode.setLock, LNode.isDeleted, Bool.or_eq_true] at hbad
      exact hbad.imp id fun h he => by simp [he] at h
    simp only [lock_mem_self, LNode.setLock, LNode.isDeleted, Bool.or_eq_true, not_or,
      Bool.not_eq_true, Option.isSome_eq_false_iff, Option.isNone_iff_eq_none] at hok
    simp only [Ends_pure]
    exact happend pred c' hr hok.2 hl hok.1

omit [LinearOrder K] in
@[simp] theorem Ends_getValFrom {n : NodeId} {Q : Option V × Option NodeId → Ctx K V m → Prop} :
    Ends (getValFrom n) c Q E ↔ Q (c.storage.valOf c.shared.mem n,
      if n ∈ c.storage.writeSet then none else some n) c := by
  simp only [getValFrom, Ends_bind, Ends_get, LocalStorage.valOf]
  rcases h : c.storage.writeSet.lookup n with _ | we
  · simp [AList.lookup_eq_none.1 h]
  · simp [AList.lookup_isSome.1 (by rw [h]; rfl : (c.storage.writeSet.lookup n).isSome = true)]

/-- The search decides which node the value is read from. -/
theorem getTXFrom_ends {Q : Option V × Option NodeId → Ctx K V m → Prop}
    (hfind : Ends (find_node fuel l key) c R E)
    (hfound : ∀ pred x c', R (true, pred, some x) c' → Q (c'.storage.valOf c'.shared.mem x,
        if x ∈ c'.storage.writeSet then none else some x)
      { c' with storage := c'.storage.addToReadSet pred })
    (hnone : ∀ found pred next c', R (found, pred, next) c' → (found = true → next = none) →
      Q (none, none) { c' with storage := c'.storage.addToReadSet pred }) :
    Ends (getTXFrom fuel l key) c Q E := by
  simp only [getTXFrom, Ends_bind]
  refine hfind.mono (fun r c' hr => ?_) fun _ _ he => he
  obtain ⟨found, pred, next⟩ := r
  simp only [Ends_modifyStorage]
  split
  · rename_i x
    simp only [Ends_getValFrom]
    exact hfound pred x c' hr
  · rename_i hno
    simp only [Ends_pure]
    refine hnone found pred next c' hr fun hf => ?_
    rcases next with _ | y
    · rfl
    · exact (hno y hf rfl).elim

/-- It is `get` with more told. -/
theorem getTX_eq (fuel : Nat) (l : ListId m) (key : K) :
    (getTX fuel l key : Call K V m (Option V)) = Prod.fst <$> getTXFrom fuel l key := by
  have hval : ∀ n, (getVal n : Call K V m (Option V)) = Prod.fst <$> getValFrom n := by
    intro n
    simp only [getVal, getValFrom, map_bind]
    refine bind_congr fun c => ?_
    rcases c.storage.writeSet.lookup n with _ | we
    · simp only [map_bind, map_pure]
    · simp only [map_pure]
  simp only [getTX, getTXFrom, map_bind, hval]
  refine bind_congr fun r => bind_congr fun _ => ?_
  rcases r with ⟨_ | _, pred, _ | x⟩ <;> rfl

end Rules

/-! ## What an insertion leaves -/

/-- The new node is linked after `p`, with a stamp unless `putIfAbsentSingleton` puts it at the
end. -/
structure Shared.Inserts (ins : Inserter) (key : K) (val : V) (p : NodeId) (s s' : Shared K V m) :
    Prop where
  lt : p < s.fresh
  fresh : s'.fresh = s.fresh + 1
  gvc : s'.gvc = s.gvc
  mem : (ins = .putSingleton ∨ (s.mem p).next ≠ none) ∧
      s'.mem = (s.insertStamped key val p (s.mem p).next).mem ∨
    ins = .putIfAbsentSingleton ∧ (s.mem p).next = none ∧ s'.mem = (s.insertBare key val p).mem

namespace Shared.Inserts

variable {ins : Inserter} {key : K} {val : V} {p k : NodeId} {s s' : Shared K V m}

theorem pred_eq (h : s.Inserts ins key val p s') :
    s'.mem p = { s.mem p with next := some s.fresh } := by
  rcases h.mem with ⟨-, hm⟩ | ⟨-, -, hm⟩
  · simp [hm, Shared.insertStamped]
  · simp [hm, Shared.insertBare]

theorem other (h : s.Inserts ins key val p s') (hp : k ≠ p) (hf : k ≠ s.fresh) :
    s'.mem k = s.mem k := by
  rcases h.mem with ⟨-, hm⟩ | ⟨-, -, hm⟩
  · simp [hm, Shared.insertStamped, hp, hf]
  · simp [hm, Shared.insertBare, hp, hf]

theorem new_key (h : s.Inserts ins key val p s') :
    (s'.mem s.fresh).key = key ∧ (s'.mem s.fresh).val = some val ∧
      (s'.mem s.fresh).isLocked = false := by
  have hne : s.fresh ≠ p := h.lt.ne'
  rcases h.mem with ⟨-, hm⟩ | ⟨-, -, hm⟩
  · simp [hm, Shared.insertStamped, hne, LNode.isLocked]
  · simp [hm, Shared.insertBare, hne, LNode.isLocked]

/-- Nothing else leads to the new node. -/
theorem eq_pred (h : s.Inserts ins key val p s')
    (hnext : ∀ n y, (s.mem n).next = some y → y < s.fresh) (hk : (s'.mem k).next = some s.fresh) :
    k = p := by
  by_contra hne
  by_cases hf : k = s.fresh
  · subst hf
    rcases h.mem with ⟨-, hm⟩ | ⟨-, -, hm⟩
    · simp only [hm, Shared.insertStamped, Shared.setNode_mem, Function.update_of_ne hne,
        Shared.alloc_mem, Function.update_self] at hk
      exact (hnext p _ hk).ne rfl
    · simp [hm, Shared.insertBare, hne] at hk
  · rw [h.other hne hf] at hk
    exact (hnext k _ hk).ne rfl

/-- The stamp marks the new node for every transaction that is running. -/
theorem marked_iff (h : s.Inserts ins key val p s') {readVersion : Nat} (hv : readVersion ≤ s.gvc) :
    Marked (s'.mem s.fresh) readVersion ↔ ins = .putSingleton ∨ (s.mem p).next ≠ none := by
  have hne : s.fresh ≠ p := h.lt.ne'
  rcases h.mem with ⟨hput, hm⟩ | ⟨hins, hnone, hm⟩
  · refine ⟨fun _ => hput, fun _ => ?_⟩
    have hw : (s'.mem s.fresh).word = { singleton := true, version := s.gvc } := by
      simp [hm, Shared.insertStamped, hne]
    rcases hv.lt_or_eq with hlt | he
    · exact .inl (hw ▸ hlt)
    · exact .inr (hw ▸ ⟨he.symm, rfl⟩)
  · simp [hm, Shared.insertBare, hne, Marked, hins, hnone]

end Shared.Inserts

section Program

variable [LinearOrder K] {P : ListId m → NodeId → Prop} {c₀ c c' : Ctx K V m} {fuel : Nat}
  {l : ListId m} {level : NodeId → Nat} {ins : Inserter} {key : K} {val : V} {p : NodeId}

omit [LinearOrder K] in
theorem onIndex_reindexed {α : Type} (f : NodeView K → Index → Option (Index × α)) :
    Ends (onIndex l f) c (fun _ c' => c.Reindexed c') (OnAbort fun _ => False) := by
  simp only [Ends_onIndex, OnAbort_diverged, implies_true, true_and]
  exact fun ix p _ => ⟨rfl, rfl, rfl⟩

omit [LinearOrder K] in
/-- A search and an update of the index do not change what an insertion leaves. -/
theorem Ctx.Reindexed.inserts {s : Shared K V m} (h : c₀.Reindexed c)
    (hi : c.shared.Inserts ins key val p s) (h' : Ctx.Reindexed { c with shared := s } c') :
    c₀.shared.Inserts ins key val p c'.shared := by
  have hs := h.shared
  refine ⟨h.fresh ▸ hi.lt, ?_, ?_, ?_⟩
  · rw [h'.fresh, ← h.fresh]
    exact hi.fresh
  · rw [h'.gvc, ← h.gvc]
    exact hi.gvc
  · rw [h'.mem]
    have hm := hi.mem
    rw [hs] at hm
    exact hm

omit [LinearOrder K] in
theorem Shared.inserts_stamped {s : Shared K V m} (key : K) (val : V) (hp : p < s.fresh)
    (hins : ins = .putSingleton ∨ (s.mem p).next ≠ none) :
    s.Inserts ins key val p (s.insertStamped key val p (s.mem p).next) :=
  ⟨hp, rfl, rfl, .inl ⟨hins, rfl⟩⟩

omit [LinearOrder K] in
theorem Shared.inserts_bare {s : Shared K V m} (key : K) (val : V) (hp : p < s.fresh)
    (hnone : (s.mem p).next = none) :
    s.Inserts .putIfAbsentSingleton key val p (s.insertBare key val p) :=
  ⟨hp, rfl, rfl, .inr ⟨rfl, hnone, rfl⟩⟩

theorem putSingletonLoop_inserts : ∀ (n : Nat) {c : Ctx K V m}, Searching c₀ c₀ c →
    Ends (putSingletonLoop fuel level l key val n) c (fun _ c' => c'.shared.fresh ≠ c₀.shared.fresh →
      ∃ p, c₀.shared.Inserts .putSingleton key val p c'.shared) (OnAbort fun _ => False)
  | 0, _, _ => by simp [putSingletonLoop, putSingletonLoopWith]
  | n + 1, c, h => by
    refine putSingletonLoop_ends (find_node_singelton_searching fuel h)
      (fun r c' hr _ => putSingletonLoop_inserts n hr.1) (fun pred y c' hr _ _ _ _ hne => ?_)
      (fun pred c' hr hl _ => ?_) fun _ _ _ _ _ => trivial
    · exact absurd hr.1.same.fresh hne
    · obtain ⟨h₁, hp, -⟩ := hr
      refine insertSingleton_ends hl hp.ne ?_
      exact (onIndex_reindexed _).mono (fun _ c'' h'' _ =>
        ⟨pred, h₁.same.inserts (Shared.inserts_stamped key val hp (.inl rfl)) h''⟩) fun _ _ he => he

/-- Like a stamped insertion but for the word. -/
theorem Shared.Sound.insertBare {s : Shared K V m} {R : ListId m → NodeId → Prop} (h : s.Sound R)
    (l : ListId m) (val : V) {pred : NodeId} (hp : pred < s.fresh) (hlt : s.rank pred < key)
    (hnone : (s.mem pred).next = none) :
    (s.insertBare key val pred).Sound fun l' k => R l' k ∨ l' = l ∧ k = s.fresh := by
  have hs := h.insertStamped l val hp hlt (fun y hy => by simp [hnone] at hy)
  have hmem : ∀ k, ((s.insertBare key val pred).mem k).key =
        ((s.insertStamped key val pred (s.mem pred).next).mem k).key ∧
      ((s.insertBare key val pred).mem k).next =
        ((s.insertStamped key val pred (s.mem pred).next).mem k).next ∧
      ((s.insertBare key val pred).mem k).val =
        ((s.insertStamped key val pred (s.mem pred).next).mem k).val ∧
      (k ≠ s.fresh → (s.insertBare key val pred).mem k =
        (s.insertStamped key val pred (s.mem pred).next).mem k) := by
    intro k
    by_cases hk : k = pred
    · subst hk
      simp [Shared.insertBare, Shared.insertStamped]
    · by_cases hk' : k = s.fresh
      · subst hk'
        simp [Shared.insertBare, Shared.insertStamped, hk, hnone]
      · simp [Shared.insertBare, Shared.insertStamped, hk, hk']
  refine hs.rewrite rfl rfl (fun k => (hmem k).1) (fun k hk => ?_) (fun k y hy => ?_) fun l' => ?_
  · have hk : s.fresh < k := hk
    rw [(hmem k).2.2.2 (show k ≠ s.fresh from hk.ne')]
  · exact hs.edge k y ((hmem k).2.1 ▸ hy)
  · rw [(hmem (head l')).2.2.2 ((head_lt l').trans_le h.allocated).ne]
    exact hs.heads l'

/-- What a call of `putIfAbsentSingleton` keeps. -/
structure Ctx.Tried (P : ListId m → NodeId → Prop) (key : K) (val : V) (c c' : Ctx K V m) : Prop where
  onward : Onward c c'
  alters : c.Alters P c'
  inserts : c'.shared.fresh ≠ c.shared.fresh →
    ∃ p, c.shared.Inserts .putIfAbsentSingleton key val p c'.shared

/-- The new node is added to the index. -/
theorem Ctx.Sound.add_tried {s : Shared K V m} (h : c.Sound P) (hs : c.Reindexed c')
    (ho : Onward c { c' with shared := s })
    (hsound : s.Sound fun l' k => (P l' k ∨ k ∈ c.storage.indexAdd l') ∨ l' = l ∧ k = c'.shared.fresh)
    (hi : c'.shared.Inserts .putIfAbsentSingleton key val p s) :
    Ends (onIndex l fun v ix => (ix.add v fuel (level c'.shared.fresh) c'.shared.fresh).map (·, ()))
      { c' with shared := s } (fun _ => c.Tried P key val) (OnAbort fun _ => False) := by
  have hlt : c'.shared.fresh < s.fresh := by
    rw [hi.fresh]
    exact Nat.lt_succ_self _
  have hm : m ≤ c'.shared.fresh := by
    rw [hs.fresh]
    exact h.shared.allocated
  have hnot : ¬ (P l c'.shared.fresh ∨ c'.shared.fresh ∈ c.storage.indexAdd l) := by
    rw [hs.fresh]
    rintro (hp | hp)
    · exact absurd (h.apart l _ hp).1 (lt_irrefl _)
    · exact absurd (h.storage.pending l _ hp).2 (lt_irrefl _)
  have hadd := (indexAdd_settles (c := { c' with shared := s }) (E := fun _ _ => False) level hm hlt
    hsound hnot).ends (d := .diverged) (fun hk => indexAdd_below hk _) (fun _ => id) fuel
  refine ((onIndex_add_onward ho l hlt).and hadd).mono (fun _ c'' hc => ?_) fun _ _ he => he.1
  obtain ⟨⟨ho', hr⟩, hc⟩ := hc
  exact ⟨ho', ⟨hc.sound, hc.updated.storage.trans hs.storage⟩, fun _ => ⟨p, hs.inserts hi hr⟩⟩

theorem putIfAbsentSingletonLoop_tried (h : c.Sound P) (hu : ∀ n, (c.shared.mem n).isLocked = false) :
    ∀ (n : Nat) {c' : Ctx K V m}, Searching c c c' → c.Sought P c' →
      Ends (putIfAbsentSingletonLoop fuel level l key val n) c' (fun _ => c.Tried P key val)
        (OnAbort fun _ => False)
  | 0, _, _, _ => by simp [putIfAbsentSingletonLoop]
  | n + 1, c', hsr, hst => by
    have hkeep : ∀ {c₁ : Ctx K V m}, Searching c c c₁ → c.Sought P c₁ → c.Tried P key val c₁ :=
      fun h₁ h₂ => ⟨h₁.onward, ⟨h₁.same.storage ▸ h₂.sound.shared, h₁.same.storage⟩,
        fun hne => absurd h₁.same.fresh hne⟩
    refine putIfAbsentSingletonLoop_ends
      (((find_node_singelton_searching fuel hsr).and (find_node_singelton_sound hu fuel hst)).mono
        (fun _ _ hr => hr) fun _ _ he => he.1)
      (fun r c₁ hr _ => putIfAbsentSingletonLoop_tried h hu n hr.1.1 hr.2.before.1)
      (fun pred y c₁ hr => hkeep hr.1.1 hr.2.before.1) (fun pred y c₁ hr hy hl _ => ?_)
      (fun pred c₁ hr hn hl _ => ?_) fun _ _ _ => trivial
    · obtain ⟨⟨h₁, hp, -⟩, hr⟩ := hr
      have hlt : c₁.shared.rank pred < key := by
        rw [h₁.same.rank]
        exact hr.before.2.2
      refine insertSingleton_ends hl hp.ne ?_
      refine h.add_tried h₁.same (h₁.onward.link hp (h₁.onward.sane.next pred) le_rfl rfl) ?_
        (Shared.inserts_stamped key val hp (.inr (by simp [hy])))
      refine (hkeep h₁ hr.before.1).alters.sound.insertStamped l val hp hlt fun z hz => ?_
      have hrank := hr.rank_next z (hy.symm.trans hz)
      rw [h₁.same.rank]
      simpa using hrank
    · obtain ⟨⟨h₁, hp, -⟩, hr⟩ := hr
      have hlt : c₁.shared.rank pred < key := by
        rw [h₁.same.rank]
        exact hr.before.2.2
      refine appendSingleton_ends hl hp.ne ?_
      refine h.add_tried h₁.same (h₁.onward.link hp (fun _ hy => by simp at hy) (Nat.zero_le _) rfl) ?_
        (Shared.inserts_bare key val hp hn)
      exact (hkeep h₁ hr.before.1).alters.sound.insertBare l val hp hlt hn

end Program

/-! ## Lists in order -/

section InOrder

variable [LinearOrder K] {c : Ctx K V m} {S : ListId m → Finset NodeId} {fuel : Nat} {l : ListId m}
  {level : NodeId → Nat} {ins : Inserter} {key : K} {val : V} {p : NodeId}

/-- The new node stands in its place on its list. -/
structure Lists.Placed (l : ListId m) (key : K) (s s' : Shared K V m) (p : NodeId) : Prop where
  next : (s'.mem p).next = some s.fresh
  lists : ∃ S', Lists s' S' ∧ IsPrev s'.rank (S' l) (head l) key p

omit [LinearOrder K] in
/-- A stamp makes no difference to the lists. -/
theorem Shared.Inserts.like_stamped {s s' : Shared K V m} (h : s.Inserts ins key val p s') (n : NodeId) :
    (s'.mem n).key = ((s.insertStamped key val p (s.next p)).mem n).key ∧
      (s'.mem n).next = ((s.insertStamped key val p (s.next p)).mem n).next ∧
      (s'.mem n).val = ((s.insertStamped key val p (s.next p)).mem n).val ∧
      (s'.mem n).isDeleted = ((s.insertStamped key val p (s.next p)).mem n).isDeleted := by
  have hne := h.lt.ne'
  rcases h.mem with ⟨-, hm⟩ | ⟨-, hnone, hm⟩
  · rw [hm]
    exact ⟨rfl, rfl, rfl, rfl⟩
  · rw [hm]
    by_cases hn : n = p
    · subst hn
      simp [Shared.insertBare, Shared.insertStamped]
    · by_cases hn' : n = s.fresh
      · subst hn'
        simp [Shared.insertBare, Shared.insertStamped, hn, Shared.next, hnone, LNode.isDeleted]
      · simp [Shared.insertBare, Shared.insertStamped, hn, hn']

variable (hL : Lists c.shared S) (hs : Sane c)

include hL hs

theorem Lists.add_placed {s : Shared K V m} (hp : IsPrev c.shared.rank (S l) (head l) key p)
    (habs : ∀ n ∈ S l, c.shared.rank n ≠ key) (hi : c.shared.Inserts ins key val p s)
    (hindex : s.index = c.shared.index) :
    Ends (onIndex l fun v ix => (ix.add v fuel (level c.shared.fresh) c.shared.fresh).map (·, ()))
      { c with shared := s } (fun _ c' => Lists.Placed l key c.shared c'.shared p) (fun _ _ => True) := by
  have hlike := hi.like_stamped
  have hview : s.view = (c.shared.insertStamped key val p (c.shared.next p)).view := by
    simp only [Shared.view, (hlike _).1, (hlike _).2.2.1]
  have hrank : s.rank = (c.shared.insertStamped key val p (c.shared.next p)).rank := by
    funext n
    simp only [Shared.rank, (hlike n).1]
  obtain ⟨hI, hhead, hlive, hne⟩ := hL.insertStamped_ready hs val hp habs
  have hI : HoldsIndex { c with shared := s } l (S l) := by
    simp only [HoldsIndex, hview, hrank, hindex]
    exact hI
  refine (index_add_ends hI (by rw [(hlike _).2.2.1]; exact hhead) hs.heads (fun a ha _ => ?_)
    fun _ => trivial).mono (fun _ c₁ h₁ => ?_) fun _ _ he => he
  · rw [hrank]
    exact hne a ha
  obtain ⟨hu, ho, A', hA', hdrop⟩ := h₁
  have hA : A' = S l := hdrop.eq fun a ha => by
    rw [hview]
    exact hlive a ha
  rw [hA] at hA'
  have hmem : c₁.shared.mem = s.mem := hu.mem
  have hfresh : c₁.shared.fresh = c.shared.fresh + 1 := hu.fresh.trans hi.fresh
  -- the same lists with the stamp
  have hM : Mutates c.shared { c₁.shared with
      mem := (c.shared.insertStamped key val p (c.shared.next p)).mem } S _ _ _ :=
    hL.insertStamped_mutates hs.heads hp habs rfl hfresh
    (fun l' hl => (ho l' hl).trans (congrFun hindex l')) (by
      have hv : c₁.shared.view = s.view := by simp only [Shared.view, hmem]
      have hr : c₁.shared.rank = s.rank := by
        funext n
        simp only [Shared.rank, hmem]
      simp only [HoldsIndex, hv, hr, hview, hrank] at hA'
      exact hA')
  have hkeyp : (c₁.shared.mem p).next = some c.shared.fresh := by rw [hmem, hi.pred_eq]
  refine ⟨hkeyp, _, hM.lists.congr (hs.heads.trans (Nat.le_of_lt (by rw [hfresh]; exact Nat.lt_succ_self _)))
    le_rfl (fun n _ => ?_) (fun l n _ => ?_) (fun l n _ => ?_) (fun l n _ => ?_) rfl, ?_⟩
  · rw [hmem, (hlike n).1]
  · rw [hmem, (hlike n).2.1]
  · rw [hmem, (hlike n).2.2.1]
  · rw [hmem, (hlike n).2.2.2]
  · have hold : ∀ n ∈ insert (head l) (S l), c₁.shared.rank n = c.shared.rank n := fun n hn => by
      have hlt := hL.lt_fresh hs.heads hn
      by_cases hnp : n = p
      · subst hnp
        simp only [Shared.rank, hmem, hi.pred_eq]
      · simp only [Shared.rank, hmem, hi.other hnp (show n ≠ c.shared.fresh from hlt.ne)]
    have hnew : c₁.shared.rank c.shared.fresh = key := by
      rw [Shared.rank_of_le _ hs.heads, hmem, hi.new_key.1]
    refine ⟨?_, ?_, fun n hn hlt => ?_⟩
    · rcases Finset.mem_insert.1 hp.1 with h | h
      · exact Finset.mem_insert.2 (.inl h)
      · exact Finset.mem_insert_of_mem (mem_patched.2 (.inl ⟨h, by simp⟩))
    · rw [hold p hp.1]
      exact hp.2.1
    · rcases mem_patched.1 hn with ⟨hn, -⟩ | hn
      · rw [hold p hp.1, hold n (Finset.mem_insert_of_mem hn)]
        rw [hold n (Finset.mem_insert_of_mem hn)] at hlt
        exact hp.2.2 n hn hlt
      · rw [(mem_only.1 hn).2 |> Finset.mem_singleton.1, hnew] at hlt
        exact absurd hlt (lt_irrefl _)

theorem Lists.inserter_placed :
    Ends (ins.program fuel level l key val) c (fun _ c' => c'.shared.fresh ≠ c.shared.fresh →
      ∃ p, Lists.Placed l key c.shared c'.shared p) (fun _ _ => True) := by
  have hput : ∀ {pred : NodeId} {c' : Ctx K V m}, Lists.FoundSingle S c l key
      (false, pred, (c'.shared.mem pred).next) c' → (c'.shared.mem pred).isLocked = false →
      ins = .putSingleton ∨ (c'.shared.mem pred).next ≠ none →
      Ends (insertSingleton fuel level l key val pred (c'.shared.mem pred).next)
        { c' with shared := c'.shared.lock pred }
        (fun _ c'' => c''.shared.fresh ≠ c.shared.fresh → ∃ p, Lists.Placed l key c.shared c''.shared p)
        (fun _ _ => True) := by
    intro pred c' hr hl hins
    obtain ⟨rfl, hp, hf, -⟩ := hr
    have hpf := hL.lt_fresh hs.heads hp.1
    refine insertSingleton_ends hl hpf.ne ?_
    exact (hL.add_placed hs hp (hL.not_found hp hf.symm)
      (Shared.inserts_stamped key val hpf hins) rfl).mono (fun _ _ hc _ => ⟨pred, hc⟩) fun _ _ he => he
  have hfind : Ends (find_node_singelton fuel l key fuel) c (Lists.FoundSingle S c l key)
      fun _ _ => True := hL.find_node_singelton_found hs fun _ => trivial
  cases ins with
  | putSingleton =>
    simp only [Inserter.program, putSingleton]
    rcases fuel with _ | n
    · exact trivial
    refine putSingletonLoop_ends hfind (fun r c' hr hb => absurd hb (hL.not_blocksPut hs hr))
      (fun pred y c' hr _ _ _ _ hne => ?_) (fun pred c' hr hl _ => hput hr hl (.inl rfl))
      fun _ _ _ _ _ => trivial
    obtain ⟨rfl, -⟩ := hr
    exact absurd rfl hne
  | putIfAbsentSingleton =>
    simp only [Inserter.program, putIfAbsentSingleton]
    rcases fuel with _ | n
    · exact trivial
    refine putIfAbsentSingletonLoop_ends hfind (fun r c' hr hb => ?_) (fun pred y c' hr hne => ?_)
      (fun pred y c' hr hy hl _ => hput (hy ▸ hr) hl (.inr (by simp [hy])))
      (fun pred c' hr hn hl _ => ?_) fun _ _ _ => trivial
    · refine absurd hb ?_
      have hno := hL.not_blocksPut hs hr
      obtain ⟨b, pred, o⟩ := r
      rcases b with _ | _
      · exact hno
      · obtain ⟨rfl, hp, hf, hn⟩ := hr
        simp only at hp hf hn
        subst hn
        rintro ⟨y, hy, h⟩
        refine hno ⟨y, hy, ?_⟩
        rcases h with h | h | h
        · exact .inr (.inr (.inl h))
        · exact absurd hy h
        · simp only [LNode.isLockedOrDeleted, Word.isLockedOrDeleted, Bool.or_eq_true] at h
          exact h.elim (fun hd => .inr (.inr (.inr hd))) .inl
    · obtain ⟨rfl, -⟩ := hr
      exact absurd rfl hne
    · obtain ⟨rfl, hp, hf, -⟩ := hr
      have hpf := hL.lt_fresh hs.heads hp.1
      refine appendSingleton_ends hl hpf.ne ?_
      exact (hL.add_placed hs hp (hL.not_found hp hf.symm)
        (Shared.inserts_bare key val hpf hn) rfl).mono (fun _ _ hc _ => ⟨pred, hc⟩) fun _ _ he => he

end InOrder

/-! ## The states that calls lead to -/

section Reach

variable [LinearOrder K] {σ σ' : Sys K V m} {t u : ThreadId} {ins : Inserter} {l : ListId m} {key : K}
  {val : V} {ch : Choice} {ret : Option V} {minKey : K} {dflt : V}

omit [LinearOrder K] in
theorem Sys.Sane.put {c : Ctx K V m} (h : σ.Sane) (ho : Onward (σ.ctx t) c) : (σ.put t c).Sane := by
  intro u
  by_cases hu : u = t
  · subst hu
    rw [Sys.ctx_put_self]
    exact ho.sane
  · rw [Sys.ctx_put_ne σ c hu]
    exact (h u).of_grows ho.sane rfl ho.grows

/-- What the insertion of a thread does to the state. -/
theorem Sys.insert_inserts (hs : σ.Sane) (h : σ.Sound)
    (hi : σ.insert u ins l key val ch = some (σ', ret)) :
    σ'.Sane ∧ σ'.Sound ∧ (∀ t, t ≠ u → σ'.threads t = σ.threads t) ∧
      (σ'.shared.fresh ≠ σ.shared.fresh → (∃ p, σ.shared.Inserts ins key val p σ'.shared) ∧
        ∀ S, Lists σ.shared S → ∃ p, Lists.Placed l key σ.shared σ'.shared p) := by
  have hstart : Searching (σ.ctx u) (σ.ctx u) (σ.ctx u) := ⟨.refl (hs u), .refl _⟩
  have hfind : (σ.ctx u).Sought (σ.others u) (σ.ctx u) := ⟨h.ctx u, .refl _⟩
  have hu := (hs u).unlocked
  have hends : Ends (ins.program ch.fuel ch.level l key val) (σ.ctx u)
      (fun _ c => Onward (σ.ctx u) c ∧ (σ.ctx u).Alters (σ.others u) c ∧
        (c.shared.fresh ≠ σ.shared.fresh → ∃ p, σ.shared.Inserts ins key val p c.shared))
      (OnAbort fun _ => False) := by
    cases ins with
    | putSingleton =>
      exact (((putSingletonLoop_single ch.fuel hstart).and
        (putSingletonLoop_sound hu (h.ctx u) ch.fuel hfind)).and
        (putSingletonLoop_inserts ch.fuel hstart)).mono
        (fun _ c hc => ⟨hc.1.1.onward, hc.1.2, hc.2⟩) fun _ _ he => he.2
    | putIfAbsentSingleton =>
      exact (putIfAbsentSingletonLoop_tried (h.ctx u) hu ch.fuel hstart hfind).mono
        (fun _ c hc => ⟨hc.onward, hc.alters, hc.inserts⟩) fun _ _ he => he
  simp only [Sys.insert] at hi
  split at hi
  swap
  · simp at hi
  rename_i r c hr
  simp only [Option.some.injEq, Prod.mk.injEq] at hi
  obtain ⟨rfl, rfl⟩ := hi
  obtain ⟨ho, ha, hins⟩ := hends.ok hr
  exact ⟨hs.put ho, h.put (ha.sound_of (h.ctx u) ho) ho.grows.fresh ho.grows.key,
    fun t ht => σ.put_threads_ne c ht, fun hne => ⟨hins hne, fun S hL =>
      (Lists.inserter_placed (c := σ.ctx u) hL (hs u)).ok hr hne⟩⟩

theorem Sys.Reach.keeps (h : Sys.Reach minKey dflt σ) : σ.Sane ∧ σ.Sound := by
  induction h with
  | init => exact ⟨Sys.sane_init minKey dflt, Sys.sound_init minKey dflt⟩
  | call _ ho hstep ih =>
    have hst : Conf.Step ⟨_, Hist.init⟩ _ _ _ ⟨_, _⟩ := ⟨_, ho, hstep, rfl⟩
    exact ⟨(Sys.step_framed ih.1 ho hstep).sane, hst.sound ih.1 ih.2⟩
  | putIfAbsent _ _ hi ih =>
    obtain ⟨h1, h2, -⟩ := Sys.insert_inserts ih.1 ih.2 hi
    exact ⟨h1, h2⟩

end Reach

/-! ## The get that comes next -/

section Get

variable [LinearOrder K] {c : Ctx K V m} {S : ListId m → Finset NodeId} {l : ListId m} {key : K}
  {p : NodeId}

/-- With the link of the key's predecessor not in the write set, the search ends right there, or
throws on one of the two nodes. -/
theorem Lists.find_node_unwritten (hL : Lists c.shared S) (hu : ∀ n, (c.shared.mem n).isLocked = false)
    (hp : IsPrev c.shared.rank (S l) (head l) key p) (hw : p ∉ c.storage.writeSet)
    {y : NodeId} (hy : (c.shared.mem p).next = some y) (hkey : (c.shared.mem y).key = key) (fuel : Nat) :
    Ends (find_node fuel l key) c (fun r c' => c' = c ∧ r = (true, p, some y) ∧ c.Clear p)
      (fun e _ => e = .diverged ∨ e = .txAbort ∧ ¬ c.Clear p) := by
  have hcheck : ∀ {n : NodeId} {Q : Unit → Ctx K V m → Prop}, (n = p ∨ n = y) →
      (¬ Marked (c.shared.mem n) c.transaction.readVersion → Q () c) →
      Ends (checkNode n) c Q (fun e _ => e = .diverged ∨ e = .txAbort ∧ ¬ c.Clear p) := by
    intro n Q hn hQ
    have hno : Marked (c.shared.mem n) c.transaction.readVersion → ¬ c.Clear p := by
      rintro hm (h | ⟨h1, h2⟩)
      · exact hw h
      · rcases hn with rfl | rfl
        · exact h1 hm
        · exact h2 _ hy hm
    simp only [checkNode, Ends_bind, Ends_node, Ends_get, Ends_ite, Ends_abortTX, Ends_pure,
      Ends_incrementAndGetVersion, tooNew, hu n, Bool.false_or, LNode.getVersion,
      LNode.isSameVersionAndSingleton, Word.isSameVersionAndSingleton, Bool.and_eq_true, beq_iff_eq]
    refine ⟨fun h => .inr ⟨trivial, hno (.inl (of_decide_eq_true h))⟩, fun h =>
      ⟨fun h' => .inr ⟨trivial, hno (.inr ⟨h'.2, h'.1⟩)⟩, fun h' => hQ ?_⟩⟩
    rintro (hm | hm)
    · exact h (decide_eq_true hm)
    · exact h' ⟨hm.2, hm.1⟩
  have hlive := (hL.live l p hp.1).2
  have hlookup := AList.lookup_eq_none.2 hw
  rcases fuel with _ | fuel
  · simp only [find_node, getPred, Ends_bind]
    exact hL.indexGetPred_ends (fun q _ => by simp [getPredLoop]) fun _ => .inl rfl
  simp only [find_node, getPred, Ends_bind]
  refine hL.indexGetPred_ends (fun q hq => ?_) fun _ => .inl rfl
  obtain rfl := IsPrev.unique (hL.threads l).toRanked hq hp
  simp only [getPredLoop, Ends_bind]
  refine hcheck (.inl rfl) fun hm => ?_
  simp only [Ends_node, Ends_get, hlookup, hlive, Bool.or_self, Bool.false_eq_true, if_false, Ends_pure,
    getNext, Ends_bind, hu q]
  refine hcheck (.inl rfl) fun _ => ?_
  simp only [hy, Ends_bind]
  refine hcheck (.inr rfl) fun hmy => ?_
  simp only [findLoop, Ends_pure, Ends_bind, Ends_node, hkey, if_true]
  exact ⟨trivial, trivial, .inr ⟨hm, fun z hz => Option.some.inj (hy.symm.trans hz) ▸ hmy⟩⟩

end Get

section Notice

variable [LinearOrder K] {σ σ' : Sys K V m} {t u : ThreadId} {ins : Inserter} {l : ListId m} {key : K}
  {val : V} {ch : Choice} {ret : Option V} {minKey : K} {dflt : V} {p : NodeId}

omit [LinearOrder K] in
/-- What tells a transaction of the new node is that the link to it is not clear. -/
theorem Shared.Inserts.clear_iff (h : σ.shared.Inserts ins key val p σ'.shared) (hs : σ.Sane)
    (ht : σ'.threads t = σ.threads t) (hw : p ∉ (σ.threads t).storage.writeSet) :
    (σ'.ctx t).Clear p ↔ ¬ σ.Tells t ins p := by
  have hlock : (σ.shared.mem p).isLocked = false := (hs t).unlocked p
  have hnew : Marked (σ'.shared.mem σ.shared.fresh) (σ.threads t).transaction.readVersion ↔ _ :=
    h.marked_iff (hs t).readVersion
  have hlate : tooNew (σ.shared.mem p) (σ.threads t).transaction = true ↔
      (σ.threads t).transaction.readVersion < (σ.shared.mem p).word.version := by
    simp only [tooNew, hlock, Bool.false_or]
    exact ⟨of_decide_eq_true, decide_eq_true⟩
  have hold : Marked (σ'.shared.mem p) (σ.threads t).transaction.readVersion ↔
      tooNew (σ.shared.mem p) (σ.threads t).transaction = true ∨
      (σ.shared.mem p).isSameVersionAndSingleton (σ.threads t).transaction.readVersion = true := by
    simp only [hlate, h.pred_eq, Marked, LNode.isSameVersionAndSingleton,
      Word.isSameVersionAndSingleton, Bool.and_eq_true, beq_iff_eq, and_comm]
  simp only [Ctx.Clear, Sys.ctx, ht, hw, false_or, h.pred_eq, Option.some.injEq, forall_eq', Sys.Tells]
  rw [← h.pred_eq, hold, hnew]
  tauto

/-- Through its write set a transaction never comes to a node it has not allocated. -/
theorem Shared.Inserts.avoids (h : σ.shared.Inserts ins key val p σ'.shared) (hs : σ.Sane)
    (h' : σ'.Sound) (ht : σ'.threads t = σ.threads t) (htell : σ.Tells t ins p) (key' : K) :
    σ'.Avoids t l key' σ.shared.fresh := by
  obtain ⟨N, hN⟩ := (find_node_settles (h'.ctx t) l key').from (fun hn => find_node_below hn) fun _ => id
  refine ⟨N, fun fuel hf => getTXFrom_ends ((hN fuel hf).mono (fun _ _ hr => hr) fun e c he => ?_)
    (fun pred x c hr he => ?_) fun _ _ _ _ _ _ he => by simp at he⟩
  · rcases e with _ | _ | _ | _
    · rfl
    all_goals exact he.elim
  · have hx : x = σ.shared.fresh := by
      split_ifs at he
      exact Option.some.inj he
    have hnext : (σ'.ctx t).storage.nextOf (σ'.ctx t).shared.mem pred = some σ.shared.fresh := by
      rw [← hr.next, hx]
    by_cases hw : pred ∈ (σ.threads t).storage.writeSet
    · obtain ⟨we, hwe⟩ := Option.isSome_iff_exists.1 (AList.lookup_isSome.2 hw)
      simp only [LocalStorage.nextOf, Sys.ctx, ht, hwe] at hnext
      exact absurd ((hs t).write_next pred we _ hwe hnext) (lt_irrefl _)
    · rw [LocalStorage.nextOf_of_notMem (by simpa only [Sys.ctx, ht] using hw)] at hnext
      obtain rfl := h.eq_pred (hs t).next hnext
      exact (h.clear_iff hs ht hw).1 hr.clear htell

/-- In lists in order what tells the transaction is what keeps it from the new node. -/
theorem Shared.Inserts.avoids_iff {S : ListId m → Finset NodeId}
    (h : σ.shared.Inserts ins key val p σ'.shared) (hs : σ.Sane) (hs' : σ'.Sane) (h' : σ'.Sound)
    (ht : σ'.threads t = σ.threads t) (hL : Lists σ'.shared S)
    (hp : IsPrev σ'.shared.rank (S l) (head l) key p) :
    σ'.Avoids t l key σ.shared.fresh ∧ σ'.Overrides t l key p ↔ σ.Tells t ins p := by
  have hnext : (σ'.shared.mem p).next = some σ.shared.fresh := by rw [h.pred_eq]
  have hfind : ∀ fuel, p ∉ (σ'.threads t).storage.writeSet →
      Ends (getTXFrom fuel l key) (σ'.ctx t)
        (fun r _ => r.2 = some σ.shared.fresh ∧ (σ'.ctx t).Clear p)
        (fun e _ => e = .diverged ∨ e = .txAbort ∧ ¬ (σ'.ctx t).Clear p) := by
    refine fun fuel hw => getTXFrom_ends
      (Lists.find_node_unwritten (c := σ'.ctx t) hL (hs' t).unlocked hp hw hnext h.new_key.1 fuel)
      (fun pred x c hr => ?_) fun found pred next c hr hno => ?_
    · obtain ⟨rfl, hr, hc⟩ := hr
      simp only [Prod.mk.injEq, true_and, Option.some.injEq] at hr
      obtain ⟨rfl, rfl⟩ := hr
      refine ⟨if_neg fun hn => ?_, hc⟩
      have hn : σ.shared.fresh ∈ (σ.threads t).storage.writeSet := by
        simpa only [Sys.ctx, ht] using hn
      exact absurd ((hs t).readSet _ ((hs t).write_read _ hn)) (lt_irrefl _)
    · obtain ⟨-, hr, -⟩ := hr
      simp only [Prod.mk.injEq] at hr
      simp [hno hr.1] at hr
  constructor
  · rintro ⟨⟨N, hN⟩, -⟩
    by_contra hno
    have hw : p ∉ (σ.threads t).storage.writeSet := fun hw => hno (.inr (.inr (.inl hw)))
    have hc := (h.clear_iff hs ht hw).2 hno
    have hboth := (hN N le_rfl).and (hfind N (ht ▸ hw))
    rcases hr : getTXFrom N l key (σ'.ctx t) with ⟨r, c⟩ | ⟨e, c⟩
    · obtain ⟨h1, h2, -⟩ := hboth.ok hr
      exact h1 h2
    · obtain ⟨rfl, he⟩ := hboth.error hr
      exact he.elim (by simp) fun he => he.2 hc
  · refine fun htell => ⟨h.avoids hs h' ht htell key, fun fuel r c hr => ?_⟩
    by_contra hw
    exact (h.clear_iff hs ht (ht ▸ hw)).1 ((hfind fuel hw).ok hr).2 htell

/-- A singleton's insertion, and the get of the key that comes next. -/
theorem Sys.Reach.insertion_told (h : Sys.Reach minKey dflt σ) (hu : (σ.threads u).transaction.TX = false)
    (ht : (σ.threads t).transaction.TX = true)
    (hins : σ.insert u ins l key val ch = some (σ', ret)) (hnew : σ'.shared.fresh ≠ σ.shared.fresh) :
    ∃ p, (σ'.shared.mem p).next = some σ.shared.fresh ∧
      (σ.Tells t ins p → σ'.Avoids t l key σ.shared.fresh) ∧
      ∀ S, Lists σ.shared S →
        (σ'.Avoids t l key σ.shared.fresh ∧ σ'.Overrides t l key p ↔ σ.Tells t ins p) := by
  obtain ⟨hs, hsound⟩ := h.keeps
  obtain ⟨hs', hsound', hthreads, hi⟩ := Sys.insert_inserts hs hsound hins
  obtain ⟨⟨p, hi⟩, hplaced⟩ := hi hnew
  have htu : t ≠ u := by
    rintro rfl
    rw [hu] at ht
    simp at ht
  have hth := hthreads t htu
  refine ⟨p, by rw [hi.pred_eq], fun htell => hi.avoids hs hsound' hth htell key, fun S hL => ?_⟩
  obtain ⟨q, hq⟩ := hplaced S hL
  obtain rfl := hi.eq_pred (hs t).next hq.next
  obtain ⟨S', hL', hp⟩ := hq.lists
  exact hi.avoids_iff hs hs' hsound' hth hL' hp

/-- Every state of a run of whole calls is one of these. -/
theorem Sys.Reach.of_conf {C : Conf K V m} (h : Conf.Reach minKey dflt Conf.anyStep C) :
    Sys.Reach minKey dflt C.sys := by
  induction h with
  | refl => exact .init
  | step _ _ hst ih =>
    obtain ⟨ch, ho, hstep, -⟩ := hst
    exact .call ih ho hstep

theorem getTXFrom_below {n n' : Nat} (hn : n ≤ n') (l : ListId m) (key : K) :
    Prog.Below .diverged (getTXFrom n l key : Call K V m (Option V × Option NodeId)) (getTXFrom n' l key) := by
  simp only [getTXFrom]
  exact .bind (find_node_below hn) fun _ => .refl _

end Notice

/-- The node that the `get` reads its value from, if it returns. -/
def Sys.getFrom [LinearOrder K] (σ : Sys K V m) (t : ThreadId) (l : ListId m) (key : K) (fuel : Nat) :
    Option (Option NodeId) :=
  match getTXFrom fuel l key (σ.ctx t) with
  | .ok r _ => some r.2
  | .error _ _ => none

/-- The insertion's state, when it has put in a node, and a test of it. -/
def Sys.insertTest (σ : Sys Nat Nat 1) (ins : Inserter) (p : Sys Nat Nat 1 → Bool) : Bool :=
  (σ.insert 1 ins 0 5 3 { fuel := 20 }).any fun r =>
    r.1.shared.fresh != σ.shared.fresh && p r.1

theorem Sys.Reach.insertion_told_five : ∃ (σ σ' : Sys Nat Nat 1) (ret : Option Nat),
    (σ.threads 0).transaction.TX = true ∧
    σ.insert 1 .putSingleton 0 5 3 { fuel := 20 } = some (σ', ret) ∧
    ∃ p, (σ'.shared.mem p).next = some σ.shared.fresh ∧
      (σ.Tells 0 .putSingleton p → σ'.Avoids 0 0 5 σ.shared.fresh) ∧
      ∀ S, Lists σ.shared S →
        (σ'.Avoids 0 0 5 σ.shared.fresh ∧ σ'.Overrides 0 0 5 p ↔ σ.Tells 0 .putSingleton p) := by
  obtain ⟨C, hr, -, hc⟩ := Conf.exists_reach_of_decidable (G := Conf.anyStep) 0 0 2
    [(0, .put 0 3 1), (0, .txBegin)]
    (fun C : Conf Nat Nat 1 => C.inTX 0 && !C.inTX 1 && C.sys.insertTest .putSingleton fun _ => true)
    (by decide +kernel)
  simp only [Sys.insertTest, Bool.and_eq_true, Bool.not_eq_true', Option.any_eq_true] at hc
  obtain ⟨⟨h0, h1⟩, ⟨σ', ret⟩, hins, hnew, -⟩ := hc
  exact ⟨C.sys, σ', ret, h0, hins, Sys.Reach.insertion_told (.of_conf hr) h1 h0 hins (bne_iff_ne.1 hnew)⟩

/-- The key is put in behind the head of an empty list. -/
theorem Sys.append_read : ¬ ∀ (σ σ' : Sys Nat Nat 1) (t u : ThreadId) (ins : Inserter) (l : ListId 1)
    (key val : Nat) (ch : Choice) (ret : Option Nat), Sys.Reach 0 0 σ →
    (σ.threads u).transaction.TX = false → (σ.threads t).transaction.TX = true →
    σ.insert u ins l key val ch = some (σ', ret) → σ'.shared.fresh ≠ σ.shared.fresh →
    σ'.Avoids t l key σ.shared.fresh := by
  intro h
  obtain ⟨C, hr, -, hc⟩ := Conf.exists_reach_of_decidable (G := Conf.anyStep) 0 0 2
    [(0, .txBegin)]
    (fun C : Conf Nat Nat 1 => C.inTX 0 && !C.inTX 1 && C.sys.insertTest .putIfAbsentSingleton fun σ' =>
      σ'.getFrom 0 0 5 20 == some (some C.sys.shared.fresh))
    (by decide +kernel)
  simp only [Sys.insertTest, Bool.and_eq_true, Bool.not_eq_true', Option.any_eq_true,
    beq_iff_eq] at hc
  obtain ⟨⟨h0, h1⟩, ⟨σ', ret⟩, hins, hnew, hfrom⟩ := hc
  obtain ⟨N, hN⟩ := h C.sys σ' 0 1 .putIfAbsentSingleton 0 5 3 _ ret (.of_conf hr) h1 h0 hins
    (bne_iff_ne.1 hnew)
  simp only [Sys.getFrom] at hfrom
  split at hfrom
  · rename_i r c hrun
    have hlong : getTXFrom (max N 20) 0 5 (σ'.ctx 0) = .ok r c := by
      rcases getTXFrom_below (le_max_right N 20) 0 5 (σ'.ctx 0) with he | ⟨c', he⟩
      · rw [he, hrun]
      · rw [hrun] at he
        cases he
    exact (hN _ (le_max_left N 20)).ok hlong (Option.some.inj hfrom)
  · simp at hfrom

end TxList
