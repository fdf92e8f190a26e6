import TxList.System
import TxList.Lib.Ends

/-!
# Running calls symbolically

What the primitives a call is made of end in, and what a step of a run is in terms of its call.
-/

namespace TxList

open Prog

variable {K V : Type} {m : Nat}

/-- What is said of a call that throws: `P` holds after a `TxAbortException`; nothing is said of a
call that stops the program or does not return. -/
def OnAbort (P : Ctx K V m → Prop) : Err → Ctx K V m → Prop
  | .txAbort, c => P c
  | _, _ => True

theorem OnAbort.mono {P P' : Ctx K V m → Prop} {e : Err} {c : Ctx K V m} (h : OnAbort P e c)
    (hP : P c → P' c) : OnAbort P' e c := by
  rcases e with _ | _ | _ | _
  · exact hP h
  all_goals trivial

@[simp] theorem OnAbort_txAbort (P : Ctx K V m → Prop) (c : Ctx K V m) :
    OnAbort P .txAbort c ↔ P c := Iff.rfl

@[simp] theorem OnAbort_assertFailed (P : Ctx K V m → Prop) (c : Ctx K V m) :
    OnAbort P .assertFailed c := trivial

@[simp] theorem OnAbort_nullDereference (P : Ctx K V m → Prop) (c : Ctx K V m) :
    OnAbort P .nullDereference c := trivial

@[simp] theorem OnAbort_diverged (P : Ctx K V m → Prop) (c : Ctx K V m) :
    OnAbort P .diverged c := trivial

section Primitives

/-- The node locked. -/
def Shared.lock (s : Shared K V m) (n : NodeId) : Shared K V m :=
  s.setNode n ((s.mem n).setLock true)

/-- The node unlocked. -/
def Shared.unlock (s : Shared K V m) (n : NodeId) : Shared K V m :=
  s.setNode n ((s.mem n).setLock false)

/-- A node locked and unlocked again is as it was. -/
theorem Shared.lock_unlock {s : Shared K V m} {n : NodeId} (h : (s.mem n).isLocked = false) :
    (s.lock n).unlock n = s := by
  have hx : ((s.mem n).setLock true).setLock false = s.mem n := by
    revert h
    rcases s.mem n with ⟨key, val, next, lock, deleted, singleton, version⟩
    rintro rfl
    rfl
  simp only [Shared.lock, Shared.unlock, Shared.setNode, Function.update_self, hx,
    Function.update_idem, Function.update_eq_self]

variable {α : Type} {c : Ctx K V m} {E : Err → Ctx K V m → Prop} {n : NodeId}

@[simp] theorem Ends_node {Q : LNode K V → Ctx K V m → Prop} :
    Ends (node n) c Q E ↔ Q (c.shared.mem n) c := Iff.rfl

@[simp] theorem Ends_modifyNode {Q : Unit → Ctx K V m → Prop} {f : LNode K V → LNode K V} :
    Ends (modifyNode n f) c Q E ↔
      Q () { c with shared := c.shared.setNode n (f (c.shared.mem n)) } := Iff.rfl

@[simp] theorem Ends_assert {Q : Unit → Ctx K V m → Prop} {b : Bool} :
    Ends (assert b) c Q E ↔ (b = true → Q () c) ∧ (b = false → E .assertFailed c) := by
  cases b <;> simp [TxList.assert]

@[simp] theorem Ends_tryLock {Q : Bool → Ctx K V m → Prop} :
    Ends (tryLock n) c Q E ↔ ((c.shared.mem n).isLocked = true → Q false c) ∧
      ((c.shared.mem n).isLocked = false →
        Q true { c with shared := c.shared.lock n }) := by
  simp only [tryLock, Ends_bind, Ends_node, Ends_ite, Ends_pure, Ends_modifyNode,
    Bool.not_eq_true, Shared.lock]

@[simp] theorem Ends_unlock {Q : Unit → Ctx K V m → Prop} :
    Ends (unlock n) c Q E ↔ ((c.shared.mem n).isLocked = true →
        Q () { c with shared := c.shared.unlock n }) ∧
      ((c.shared.mem n).isLocked = false → E .assertFailed c) := by
  simp [unlock, Shared.unlock]

@[simp] theorem Ends_lockedUpdate {Q : Unit → Ctx K V m → Prop} {f : LNode K V → LNode K V} :
    Ends (lockedUpdate n f) c Q E ↔ ((c.shared.mem n).isLocked = true →
        Q () { c with shared := c.shared.setNode n (f (c.shared.mem n)) }) ∧
      ((c.shared.mem n).isLocked = false → E .assertFailed c) := by
  simp [lockedUpdate]

@[simp] theorem Ends_getVersion {Q : Nat → Ctx K V m → Prop} :
    Ends getVersion c Q E ↔ Q c.shared.gvc c := Iff.rfl

@[simp] theorem Ends_incrementAndGetVersion {Q : Nat → Ctx K V m → Prop} :
    Ends incrementAndGetVersion c Q E ↔
      Q (c.shared.gvc + 1) { c with shared := { c.shared with gvc := c.shared.gvc + 1 } } := Iff.rfl

@[simp] theorem Ends_modifyStorage {Q : Unit → Ctx K V m → Prop}
    {f : LocalStorage V m → LocalStorage V m} :
    Ends (modifyStorage f) c Q E ↔ Q () { c with storage := f c.storage } := Iff.rfl

@[simp] theorem Ends_modifyTransaction {Q : Unit → Ctx K V m → Prop}
    {f : LocalTransaction → LocalTransaction} :
    Ends (modifyTransaction f) c Q E ↔ Q () { c with transaction := f c.transaction } := Iff.rfl

@[simp] theorem Ends_abortTX {Q : α → Ctx K V m → Prop} :
    Ends abortTX c Q E ↔ E .txAbort { c with transaction := { c.transaction with TX := false } } :=
  Iff.rfl

@[simp] theorem Ends_get_new_node {Q : NodeId → Ctx K V m → Prop} {key : K} {val : V} :
    Ends (get_new_node key val) c Q E ↔ Q c.shared.fresh { c with
      shared := { c.shared.setNode c.shared.fresh { key := key, val := some val } with
        fresh := c.shared.fresh + 1 } } := Iff.rfl

@[simp] theorem Ends_retire_node {Q : Unit → Ctx K V m → Prop} :
    Ends (retire_node n) c Q E ↔
      Q () { c with shared := { c.shared with retired := n :: c.shared.retired } } := Iff.rfl

theorem Ends_onIndex {Q : α → Ctx K V m → Prop} {l : ListId m}
    {f : NodeView K → Index → Option (Index × α)} :
    Ends (onIndex l f) c Q E ↔
      (f c.shared.view (c.shared.index l) = none → E .diverged c) ∧
      ∀ ix a, f c.shared.view (c.shared.index l) = some (ix, a) → Q a { c with
        shared := { c.shared with index := Function.update c.shared.index l ix } } := by
  simp only [onIndex, Ends_bind, Ends_get]
  rcases f c.shared.view (c.shared.index l) with _ | ⟨ix, a⟩
  · simp
  · simp only [Ends_bind, Ends_pure]
    exact ⟨fun h => ⟨fun h' => by simp at h', fun ix' a' he => by
      simp only [Option.some.injEq, Prod.mk.injEq] at he
      obtain ⟨rfl, rfl⟩ := he
      exact h⟩, fun h => h.2 ix a rfl⟩

end Primitives

section Steps

@[simp] theorem Sys.put_shared (σ : Sys K V m) (t : ThreadId) (c : Ctx K V m) :
    (σ.put t c).shared = c.shared := rfl

@[simp] theorem Sys.put_threads_self (σ : Sys K V m) (t : ThreadId) (c : Ctx K V m) :
    (σ.put t c).threads t = ⟨c.storage, c.transaction⟩ := by
  simp [Sys.put]

theorem Sys.put_threads_ne (σ : Sys K V m) {t u : ThreadId} (c : Ctx K V m) (h : u ≠ t) :
    (σ.put t c).threads u = σ.threads u := by
  simp [Sys.put, h]

/-- A step is a call that ends in a value or throws `TxAbortException`. -/
theorem Sys.step_of_ends [LinearOrder K] {σ σ' : Sys K V m} {t : ThreadId} {op : Op K V m}
    {ch : Choice} {ret : Ret V} {Q : Ret V → Ctx K V m → Prop} {P : Ctx K V m → Prop}
    (h : Ends (call ch op) (σ.ctx t) Q (OnAbort P)) (hs : σ.step t op ch = some (σ', ret)) :
    ∃ c, σ' = σ.put t c ∧ (Q ret c ∨ ret = .aborted ∧ P c) := by
  simp only [Sys.step] at hs
  rcases hc : call ch op (σ.ctx t) with ⟨r, c⟩ | ⟨e, c⟩
  · simp only [hc, Option.some.injEq, Prod.mk.injEq] at hs
    obtain ⟨rfl, rfl⟩ := hs
    exact ⟨c, rfl, .inl (h.ok hc)⟩
  · have hE := h.error hc
    rcases e with _ | _ | _ | _ <;> simp only [hc] at hs
    · simp only [Option.some.injEq, Prod.mk.injEq] at hs
      obtain ⟨rfl, rfl⟩ := hs
      exact ⟨c, rfl, .inr ⟨rfl, hE⟩⟩
    all_goals simp at hs

end Steps

end TxList
