import TxList.Proofs.Ops

/-!
# The singleton operations after their search

What `putSingleton` and `removeSingleton` leave in the shared memory once they hold their locks and
their checks have passed; an attempt that fails its checks leaves everything as it was. The rules are
those of the calls with any program in the place of their index update.
-/

namespace TxList

open Prog

variable {K V : Type} {m : Nat}

namespace Shared

variable (s : Shared K V m)

/-- An overwriting put: the node gets the value and the stamp. -/
def stampValue (y : NodeId) (val : V) : Shared K V m :=
  s.setNode y { s.mem y with
    val := some val, word := { (s.mem y).word with singleton := true, version := s.gvc } }

/-- An insertion: a new node with the stamp, after `pred`, which gets none. -/
def insertStamped (key : K) (val : V) (pred : NodeId) (next : Option NodeId) : Shared K V m :=
  (s.alloc { key, val := some val, next, word := { singleton := true, version := s.gvc } }).setNode
    pred { s.mem pred with next := some s.fresh }

/-- A removal: `pred` leads past the dead node, and both get the stamp. -/
def unlinkStamped (pred x : NodeId) : Shared K V m :=
  let s := s.setNode x { s.mem x with
    val := none
    word := { (s.mem x).word with singleton := true, deleted := true, version := s.gvc } }
  s.setNode pred { s.mem pred with
    next := (s.mem x).next, word := { (s.mem pred).word with singleton := true, version := s.gvc } }

end Shared

section Rules

variable {α : Type} {c : Ctx K V m} {Q : α → Ctx K V m → Prop} {E : Err → Ctx K V m → Prop}
  {n : NodeId}

theorem Ends_shared {x : Call K V m α} {s s' : Shared K V m} (hs : s = s')
    (h : Ends x { c with shared := s' } Q E) : Ends x { c with shared := s } Q E := hs ▸ h

theorem holds_shared {a a' : α} {s s' : Shared K V m} (ha : a = a') (hs : s = s')
    (h : Q a' { c with shared := s' }) : Q a { c with shared := s } := ha ▸ hs ▸ h

/-- Take the lock, or go another way. -/
theorem Ends_ifLock {x y : Call K V m α} : Ends (do if ← tryLock n then x else y) c Q E ↔
    ((c.shared.mem n).isLocked = true → Ends y c Q E) ∧
      ((c.shared.mem n).isLocked = false → Ends x { c with shared := c.shared.lock n } Q E) := by
  simp only [Ends_bind, Ends_tryLock, if_true, Bool.false_eq_true, if_false]

theorem lock_isLocked (s : Shared K V m) (n : NodeId) : ((s.lock n).mem n).isLocked = true := by
  simp [Shared.lock, Shared.setNode, LNode.isLocked, LNode.setLock]

theorem lock_mem_ne (s : Shared K V m) {n k : NodeId} (h : k ≠ n) : (s.lock n).mem k = s.mem k := by
  simp [Shared.lock, Shared.setNode, h]

theorem lock_mem_self (s : Shared K V m) (n : NodeId) :
    (s.lock n).mem n = (s.mem n).setLock true := by
  simp [Shared.lock, Shared.setNode]

end Rules

section Ops

variable [LinearOrder K] {α : Type} {update : NodeId → Call K V m α} {c : Ctx K V m}
  {E : Err → Ctx K V m → Prop} {fuel n : Nat} {l : ListId m} {key : K} {val : V}
  {R : Bool × NodeId × Option NodeId → Ctx K V m → Prop} {Q : Option V × Option α → Ctx K V m → Prop}

/-- `putSingleton` cannot do its work with what the search has found. -/
def Shared.BlocksPut (s : Shared K V m) (key : K) : Bool × NodeId × Option NodeId → Prop
  | (true, pred, next) => ∃ y, (s.mem pred).next = some y ∧
      ((s.mem y).isLocked = true ∨ next ≠ some y ∨ (s.mem y).key ≠ key ∨ (s.mem y).isDeleted = true)
  | (false, pred, next) => (s.mem pred).isLocked = true ∨ (s.mem pred).isDeleted = true ∨
      (s.mem pred).next ≠ next

/-- `removeSingleton` cannot do its work with what the search has found. -/
def Shared.BlocksRemove (s : Shared K V m) (pred : NodeId) (next : Option NodeId) : Prop :=
  (s.mem pred).isLocked = true ∨ (s.mem pred).isDeleted = true ∨ (s.mem pred).next ≠ next ∨
    ∃ x, next = some x ∧ (x = pred ∨ (s.mem x).isLocked = true)

omit [LinearOrder K] in
theorem insertSingletonWith_ends {pred : NodeId} {next : Option NodeId} {Q : α → Ctx K V m → Prop}
    (hl : (c.shared.mem pred).isLocked = false) (hp : pred ≠ c.shared.fresh)
    (h : Ends (update c.shared.fresh) { c with shared := c.shared.insertStamped key val pred next } Q E) :
    Ends (insertSingletonWith update key val pred next)
      { c with shared := c.shared.lock pred } Q E := by
  simp only [insertSingletonWith]
  refine Ends_newNode.2 ?_
  simp only [Ends_bind, Ends_modifyNode, Ends_getVersion, Ends_unlock]
  refine ⟨fun _ => ?_, fun hno => ?_⟩
  swap
  · simp [hp, Shared.alloc, Shared.lock, LNode.isLocked, LNode.setLock] at hno
  have hx : ∀ o, LNode.setLock { (c.shared.mem pred).setLock true with next := o } false
      = { c.shared.mem pred with next := o } := by
    intro o
    revert hl
    rcases c.shared.mem pred with ⟨k, v, nx, lk, d, s, ver⟩
    rintro rfl
    rfl
  refine Ends_shared ?_ h
  simp only [Shared.insertStamped, Shared.unlock, Shared.lock, Shared.alloc, Shared.setNode,
    Function.update_self, Function.update_of_ne hp, Function.update_of_ne hp.symm, hx]
  congr 1
  funext k
  by_cases hk : k = pred
  · subst hk
    simp
  · by_cases hk' : k = c.shared.fresh
    · subst hk'
      simp [hk, LNode.setVersionAndSingleton]
    · simp [hk, hk']

theorem putSingletonLoopWith_ends
    (hfind : Ends (find_node_singelton fuel l key fuel) c R E)
    (hretry : ∀ r c', R r c' → c'.shared.BlocksPut key r →
      Ends (putSingletonLoopWith update fuel l key val n) c' Q E)
    (hfound : ∀ pred y c', R (true, pred, some y) c' → (c'.shared.mem pred).next = some y →
      (c'.shared.mem y).isLocked = false → (c'.shared.mem y).isDeleted = false →
      (c'.shared.mem y).key = key →
      Q ((c'.shared.mem y).val, none) { c' with shared := c'.shared.stampValue y val })
    (hinsert : ∀ pred c', R (false, pred, (c'.shared.mem pred).next) c' →
      (c'.shared.mem pred).isLocked = false → (c'.shared.mem pred).isDeleted = false →
      Ends (insertSingletonWith update key val pred (c'.shared.mem pred).next)
        { c' with shared := c'.shared.lock pred } (fun a => Q (none, some a)) E)
    (hnull : ∀ pred next c', R (true, pred, next) c' →
      (c'.shared.mem pred).next = none ∨ next = none → E .nullDereference c') :
    Ends (putSingletonLoopWith update fuel l key val (n + 1)) c Q E := by
  have hback : ∀ {r c' y}, R r c' → (c'.shared.mem y).isLocked = false →
      c'.shared.BlocksPut key r → Ends (putSingletonLoopWith update fuel l key val n)
        { c' with shared := (c'.shared.lock y).unlock y } Q E :=
    fun hr hl hb => Ends_shared (Shared.lock_unlock hl) (hretry _ _ hr hb)
  simp only [putSingletonLoopWith, Ends_bind]
  refine hfind.mono (fun r c' hr => ?_) fun _ _ he => he
  split
  · simp only [Ends_bind, Ends_node]
    split
    · rename_i pred _ _ y next hy
      refine Ends_ifLock.2 ⟨fun hl => hretry _ _ hr ⟨y, hy, .inl hl⟩, fun hl => ?_⟩
      simp only [Ends_bind, Ends_node, Ends_ite, Ends_unlock, lock_isLocked, forall_const,
        Bool.true_eq_false, false_implies, and_true]
      refine ⟨fun hbad => hback hr hl ⟨y, hy, .inr ?_⟩, fun hok => ?_⟩
      · by_cases he : y = next
        · subst he
          simpa [lock_mem_self, LNode.setLock, LNode.isDeleted] using hbad
        · exact .inl fun h => he (Option.some.inj h).symm
      push Not at hok
      obtain ⟨hkey, rfl, hdel⟩ := hok
      simp only [lock_mem_self, LNode.setLock] at hkey
      simp only [lock_mem_self, LNode.setLock, LNode.isDeleted, ne_eq, Bool.not_eq_true] at hdel
      simp only [Ends_modifyNode, Ends_lockedUpdate, Ends_getVersion, Ends_pure, lock_mem_self,
        Shared.setNode_mem, Function.update_self, LNode.isLocked, LNode.setLock, LNode.setSingleton,
        LNode.setVersion, forall_const, Bool.true_eq_false, false_implies, and_true]
      refine holds_shared (Q := Q) rfl ?_ (hfound pred y c' hr hy hl hdel hkey)
      simp only [Shared.stampValue, Shared.unlock, Shared.lock, Shared.setNode,
        Function.update_self, Function.update_idem]
      congr 2
      revert hl
      simp only [LNode.setLock, LNode.isLocked]
      rcases c'.shared.mem y with ⟨k, v, nx, lk, d, s, ver⟩
      rintro rfl
      rfl
    · rename_i pred next _ _ hno
      refine hnull pred next c' hr ?_
      rcases hy : (c'.shared.mem pred).next with _ | y
      · exact .inl rfl
      · rcases next with _ | next
        · exact .inr rfl
        · exact (hno y next hy rfl).elim
  · rename_i pred next
    refine Ends_ifLock.2 ⟨fun hl => hretry _ _ hr (.inl hl), fun hl => ?_⟩
    simp only [Ends_bind, Ends_node, Ends_ite, Ends_unlock, lock_isLocked, forall_const,
      Bool.true_eq_false, false_implies, and_true]
    refine ⟨fun hbad => hback hr hl (.inr ?_), fun hok => ?_⟩
    · simp only [lock_mem_self, LNode.setLock, LNode.isDeleted, Bool.or_eq_true, bne_iff_ne,
        ne_eq] at hbad
      exact hbad.imp id fun h he => h he.symm
    simp only [lock_mem_self, LNode.setLock, LNode.isDeleted, Bool.or_eq_true, bne_iff_ne, ne_eq,
      not_or, Bool.not_eq_true, not_not] at hok
    simp only [Ends_pure, lock_mem_self, LNode.setLock]
    rw [hok.2] at hr
    exact hinsert pred c' hr hl hok.1
  · rename_i pred
    refine Ends_ifLock.2 ⟨fun hl => hretry _ _ hr (.inl hl), fun hl => ?_⟩
    simp only [Ends_bind, Ends_node, Ends_ite, Ends_unlock, lock_isLocked, forall_const,
      Bool.true_eq_false, false_implies, and_true]
    refine ⟨fun hbad => hback hr hl (.inr ?_), fun hok => ?_⟩
    · simp only [lock_mem_self, LNode.setLock, LNode.isDeleted, Bool.or_eq_true] at hbad
      exact hbad.imp id fun h he => by simp [he] at h
    simp only [lock_mem_self, LNode.setLock, LNode.isDeleted, Bool.or_eq_true, not_or,
      Bool.not_eq_true, Option.isSome_eq_false_iff, Option.isNone_iff_eq_none] at hok
    simp only [Ends_pure]
    have hi := hinsert pred c' (by rw [hok.2]; exact hr) hl hok.1
    rwa [hok.2] at hi

omit [LinearOrder K] in
/-- The section of `removeSingleton` that holds both locks. -/
theorem unlinkStamped_eq {s : Shared K V m} {pred x : NodeId} (hne : pred ≠ x)
    (hlp : (s.mem pred).isLocked = false) (hlx : (s.mem x).isLocked = false) :
    let s₁ := (s.lock pred).lock x
    let s₂ := s₁.setNode x { s₁.mem x with val := none }
    let s₃ := s₂.setNode pred { s₂.mem pred with next := (s₂.mem x).next }
    let s₄ := s₃.setNode x ((s₃.mem x).setVersionAndDeletedAndSingleton s.gvc true true)
    let s₅ := s₄.setNode pred ((s₄.mem pred).setVersionAndSingleton s.gvc true)
    (s₅.unlock x).unlock pred = s.unlinkStamped pred x := by
  have hp : ∀ o, LNode.setLock (LNode.setVersionAndSingleton
      { (s.mem pred).setLock true with next := o } s.gvc true) false
      = { s.mem pred with next := o, word := { (s.mem pred).word with
          singleton := true, version := s.gvc } } := by
    intro o
    revert hlp
    rcases s.mem pred with ⟨k, v, nx, lk, d, sg, ver⟩
    rintro rfl
    rfl
  have hx : LNode.setLock (LNode.setVersionAndDeletedAndSingleton
      { (s.mem x).setLock true with val := (none : Option V) } s.gvc true true) false
      = { s.mem x with val := (none : Option V), word := { (s.mem x).word with
          singleton := true, deleted := true, version := s.gvc } } := by
    revert hlx
    rcases s.mem x with ⟨k, v, nx, lk, d, sg, ver⟩
    rintro rfl
    rfl
  simp only [Shared.unlinkStamped, Shared.unlock, Shared.lock, Shared.setNode,
    Function.update_self, Function.update_of_ne hne, Function.update_of_ne hne.symm, hp, hx]
  congr 1
  funext k
  by_cases hk : k = pred
  · subst hk
    simp [LNode.setLock]
  · by_cases hk' : k = x
    · subst hk'
      simp [hk]
    · simp [hk, hk']

theorem removeSingletonLoopWith_ends
    (hfind : Ends (find_node_singelton fuel l key fuel) c R E)
    (hretry : ∀ pred next c', R (true, pred, next) c' → c'.shared.BlocksRemove pred next →
      Ends (removeSingletonLoopWith update fuel l key n) c' Q E)
    (hnone : ∀ pred next c', R (false, pred, next) c' → Q (none, none) c')
    (hfound : ∀ pred x c', R (true, pred, some x) c' → (c'.shared.mem pred).next = some x →
      pred ≠ x → (c'.shared.mem pred).isLocked = false → (c'.shared.mem x).isLocked = false →
      (c'.shared.mem pred).isDeleted = false →
      Ends (update x) { c' with shared := c'.shared.unlinkStamped pred x }
        (fun a => Q ((c'.shared.mem x).val, some a)) E)
    (hnull : ∀ pred c', R (true, pred, none) c' →
      E .nullDereference { c' with shared := c'.shared.lock pred }) :
    Ends (removeSingletonLoopWith update fuel l key (n + 1)) c Q E := by
  simp only [removeSingletonLoopWith, Ends_bind]
  refine hfind.mono (fun r c' hr => ?_) fun _ _ he => he
  split
  · exact hnone _ _ c' hr
  rename_i pred next
  refine Ends_ifLock.2 ⟨fun hl => hretry _ _ _ hr (.inl hl), fun hl => ?_⟩
  simp only [Ends_bind, Ends_node, Ends_ite, Ends_unlock, lock_isLocked, forall_const,
    Bool.true_eq_false, false_implies, and_true]
  refine ⟨fun hbad => Ends_shared (Shared.lock_unlock hl) (hretry _ _ _ hr (.inr ?_)),
    fun hok => ?_⟩
  · simp only [lock_mem_self, LNode.setLock, LNode.isDeleted, Bool.or_eq_true, bne_iff_ne,
      ne_eq] at hbad
    exact hbad.imp id fun h => .inl fun he => h he.symm
  simp only [lock_mem_self, LNode.setLock, LNode.isDeleted, Bool.or_eq_true, bne_iff_ne, ne_eq,
    not_or, Bool.not_eq_true, not_not] at hok
  obtain ⟨hdel, hnext⟩ := hok
  rcases next with _ | x
  · simpa using hnull pred c' hr
  simp only
  refine Ends_ifLock.2 ⟨fun hlx => ?_, fun hlx => ?_⟩
  · simp only [Ends_bind, Ends_unlock, lock_isLocked, forall_const, Bool.true_eq_false,
      false_implies, and_true]
    refine Ends_shared (Shared.lock_unlock hl) (hretry _ _ _ hr (.inr (.inr (.inr ⟨x, rfl, ?_⟩))))
    by_cases he : x = pred
    · exact .inl he
    · rw [lock_mem_ne _ he] at hlx
      exact .inr hlx
  have hne : pred ≠ x := by
    rintro rfl
    rw [lock_isLocked] at hlx
    exact absurd hlx (by simp)
  rw [lock_mem_ne _ hne.symm] at hlx
  have hQ := hfound pred x c' hr hnext.symm hne hl hlx hdel
  have hval : (((c'.shared.lock pred).lock x).mem x).val = (c'.shared.mem x).val := by
    rw [lock_mem_self, lock_mem_ne _ hne.symm]
    rfl
  have hsecond : ((((c'.shared.lock pred).lock x).setNode x
      { ((c'.shared.lock pred).lock x).mem x with val := (none : Option V) }).mem pred).next
      = some x := by
    rw [Shared.setNode_mem, Function.update_of_ne hne, lock_mem_ne _ hne, lock_mem_self]
    exact hnext.symm
  simp only [Ends_bind, Ends_node, Ends_modifyNode]
  simp only at hsecond
  rw [hsecond, hval]
  simp only [Ends_bind, Ends_node, Ends_modifyNode, Ends_getVersion, Ends_lockedUpdate, Ends_unlock,
    Ends_pure]
  have hlocks : ∀ {P : Prop} {b : Bool} {q : Prop}, b = true → P → (b = true → P) ∧ (b = false → q) := by
    rintro P b q rfl hP
    simpa using hP
  refine hlocks ?_ (hlocks ?_ (hlocks ?_ (hlocks ?_ (Ends_shared (unlinkStamped_eq hne hl hlx) hQ))))
  all_goals simp [Shared.lock, Shared.unlock, hne, hne.symm, LNode.isLocked, LNode.setLock,
    LNode.setVersionAndDeletedAndSingleton, LNode.setVersionAndSingleton]

variable {level : NodeId → Nat} {Q : Option V → Ctx K V m → Prop}

theorem insertSingleton_ends {pred : NodeId} {next : Option NodeId} {Q : Unit → Ctx K V m → Prop}
    (hl : (c.shared.mem pred).isLocked = false) (hp : pred ≠ c.shared.fresh)
    (h : Ends (onIndex l fun v ix => (ix.add v fuel (level c.shared.fresh) c.shared.fresh).map (·, ()))
      { c with shared := c.shared.insertStamped key val pred next } Q E) :
    Ends (insertSingleton fuel level l key val pred next)
      { c with shared := c.shared.lock pred } Q E := insertSingletonWith_ends hl hp h

theorem putSingletonLoop_ends
    (hfind : Ends (find_node_singelton fuel l key fuel) c R E)
    (hretry : ∀ r c', R r c' → c'.shared.BlocksPut key r →
      Ends (putSingletonLoop fuel level l key val n) c' Q E)
    (hfound : ∀ pred y c', R (true, pred, some y) c' → (c'.shared.mem pred).next = some y →
      (c'.shared.mem y).isLocked = false → (c'.shared.mem y).isDeleted = false →
      (c'.shared.mem y).key = key →
      Q (c'.shared.mem y).val { c' with shared := c'.shared.stampValue y val })
    (hinsert : ∀ pred c', R (false, pred, (c'.shared.mem pred).next) c' →
      (c'.shared.mem pred).isLocked = false → (c'.shared.mem pred).isDeleted = false →
      Ends (insertSingleton fuel level l key val pred (c'.shared.mem pred).next)
        { c' with shared := c'.shared.lock pred } (fun _ => Q none) E)
    (hnull : ∀ pred next c', R (true, pred, next) c' →
      (c'.shared.mem pred).next = none ∨ next = none → E .nullDereference c') :
    Ends (putSingletonLoop fuel level l key val (n + 1)) c Q E := by
  simp only [putSingletonLoop, Ends_map] at hretry ⊢
  exact putSingletonLoopWith_ends hfind hretry hfound hinsert hnull

theorem removeSingletonLoop_ends
    (hfind : Ends (find_node_singelton fuel l key fuel) c R E)
    (hretry : ∀ pred next c', R (true, pred, next) c' → c'.shared.BlocksRemove pred next →
      Ends (removeSingletonLoop fuel l key n) c' Q E)
    (hnone : ∀ pred next c', R (false, pred, next) c' → Q none c')
    (hfound : ∀ pred x c', R (true, pred, some x) c' → (c'.shared.mem pred).next = some x →
      pred ≠ x → (c'.shared.mem pred).isLocked = false → (c'.shared.mem x).isLocked = false →
      (c'.shared.mem pred).isDeleted = false →
      Ends (onIndex l fun v ix => (ix.remove v fuel x).map (·, ()))
        { c' with shared := c'.shared.unlinkStamped pred x }
        (fun _ c'' => Q (c'.shared.mem x).val
          { c'' with shared := { c''.shared with retired := x :: c''.shared.retired } }) E)
    (hnull : ∀ pred c', R (true, pred, none) c' →
      E .nullDereference { c' with shared := c'.shared.lock pred }) :
    Ends (removeSingletonLoop fuel l key (n + 1)) c Q E := by
  simp only [removeSingletonLoop, Ends_map] at hretry ⊢
  refine removeSingletonLoopWith_ends hfind hretry hnone (fun pred x c' hr h1 h2 h3 h4 h5 => ?_) hnull
  rw [Ends_bind]
  exact (hfound pred x c' hr h1 h2 h3 h4 h5).mono (fun _ _ hQ => Ends_retire_node.2 hQ) fun _ _ he => he

end Ops

end TxList
