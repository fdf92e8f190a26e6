import TxList.Proofs.OverlayOps

/-!
# `find_node` in a transaction

The search starts at the node the index gives, goes back over the nodes the transaction has
deleted, and then follows the pointers the transaction sees. It ends at the node right below the
key in what the transaction sees, unless it meets a marked node and throws.
-/

namespace TxList

open Prog Chain

variable {K V : Type} {m : Nat}

/-- The transaction ended with a `TxAbortException`: of the shared memory only the clock may have
changed. -/
structure Thrown (c c' : Ctx K V m) : Prop where
  shared : c'.shared = { c.shared with gvc := c'.shared.gvc }
  closed : c'.transaction.TX = false

section Steps

variable {c : Ctx K V m} {n : NodeId}

theorem checkNode_ends {Q : Unit → Ctx K V m → Prop}
    (hQ : ¬ Marked (c.shared.mem n) c.transaction.readVersion → Q () c) :
    Ends (checkNode n) c Q (OnAbort (Thrown c)) :=
  checkNode_rule (fun _ => ⟨rfl, rfl⟩) (fun _ => ⟨rfl, rfl⟩) hQ

theorem getNext_ends {Q : Option NodeId → Ctx K V m → Prop}
    (hQ : (n ∈ c.storage.writeSet ∨ ¬ Marked (c.shared.mem n) c.transaction.readVersion) →
      Q (c.storage.nextOf c.shared.mem n) c) :
    Ends (getNext n) c Q (OnAbort (Thrown c)) :=
  getNext_rule (fun _ => ⟨rfl, rfl⟩) (fun _ _ => ⟨rfl, rfl⟩) fun hc => hQ (hc.imp_right And.left)

end Steps

variable [LinearOrder K]

section Search

variable {c : Ctx K V m} {S : ListId m → Finset NodeId} {l : ListId m} {key : K} {fuel : Nat}

/-- A search changes nothing when the lists are in order, whatever the transaction sees. -/
theorem Lists.find_node_same (hL : Lists c.shared S) :
    Ends (find_node fuel l key) c (fun _ c' => c' = c) (OnAbort (Thrown c)) := by
  have hloop : ∀ (n : Nat) (pred : NodeId), Ends (TxList.getPredLoop fuel l n pred) c
      (fun _ c' => c' = c) (OnAbort (Thrown c)) := by
    intro n
    induction n with
    | zero => intro pred; simp [TxList.getPredLoop]
    | succ n ih =>
      intro pred
      simp only [TxList.getPredLoop, Ends_bind]
      refine checkNode_ends fun _ => ?_
      simp only [Ends_node, Ends_get, Ends_ite, Ends_bind, Ends_assert, OnAbort_assertFailed,
        implies_true, and_true, Ends_pure]
      exact fun _ _ => hL.indexGetPred_ends (fun p _ => ih p) fun _ => trivial
  have hfind : ∀ (n : Nat) (pred : NodeId) (next : Option NodeId), Ends (findLoop key n pred next) c
      (fun _ c' => c' = c) (OnAbort (Thrown c)) := by
    intro n
    induction n with
    | zero => intro pred next; simp [findLoop]
    | succ n ih =>
      rintro pred (_ | next)
      · simp [findLoop]
      · simp only [findLoop, Ends_bind, Ends_node, Ends_ite, Ends_pure, implies_true, true_and]
        exact fun _ _ => getNext_ends fun _ => ih next _
  simp only [find_node, TxList.getPred, Ends_bind]
  refine hL.indexGetPred_ends (fun p _ => ?_) fun _ => trivial
  refine (hloop fuel p).mono (fun pred c' he => ?_) fun _ _ he => he
  subst he
  exact getNext_ends fun _ => hfind fuel pred _

/-- The node leads, in what the transaction sees, to one with the key. -/
def seesKey (c : Ctx K V m) (key : K) (p : NodeId) : Bool :=
  match c.storage.nextOf c.shared.mem p with
  | some y => (c.shared.mem y).key = key
  | none => false

namespace Overlay

variable (hL : Lists c.shared S) (hO : Overlay c.shared S c.storage)

include hL hO

omit hO in
theorem getPredLoop_ends {Q : NodeId → Ctx K V m → Prop}
    (hQ : ∀ p, p ∈ insert (head l) (c.storage.seen S l) → c.shared.rank p < key → Q p c) :
    ∀ (n : Nat) {pred : NodeId}, pred ∈ insert (head l) (S l) →
      c.shared.rank pred < key → Ends (TxList.getPredLoop fuel l n pred) c Q (OnAbort (Thrown c))
  | 0, _, _, _ => by simp [TxList.getPredLoop]
  | n + 1, pred, hpred, hlt => by
    have hdead : (c.shared.mem pred).isDeleted = false := (hL.live l pred hpred).2
    simp only [TxList.getPredLoop, Ends_bind]
    refine checkNode_ends fun _ => ?_
    simp only [Ends_node, Ends_get, Ends_ite, Ends_bind, Ends_assert, OnAbort_assertFailed,
      implies_true, and_true, Ends_pure, hdead, Bool.or_false]
    refine ⟨fun _ hh => ?_, fun hd => hQ pred ?_ hlt⟩
    · have hpS : pred ∈ S l := Finset.mem_of_mem_insert_of_ne hpred (by simpa using hh)
      refine hL.indexGetPred_ends (fun p hp => ?_) fun _ => trivial
      refine getPredLoop_ends hQ n hp.1 (hp.2.1.trans ?_)
      rw [← hL.rank_mem hpS]
      exact hlt
    · have hk : c.storage.deletes pred = false := by
        rw [LocalStorage.deletes]
        rcases hw : c.storage.writeSet.lookup pred with _ | we
        · rfl
        · simpa only [hw, Bool.not_eq_true] using hd
      rcases Finset.mem_insert.1 hpred with rfl | hpS
      · exact Finset.mem_insert_self _ _
      · exact Finset.mem_insert_of_mem (LocalStorage.mem_seen.2 ⟨.inl hpS, hk⟩)

theorem findLoop_ends {Q : Bool × NodeId × Option NodeId → Ctx K V m → Prop}
    (hQ : ∀ p, IsPrev c.shared.rank (c.storage.seen S l) (head l) key p →
      Q (seesKey c key p, p, c.storage.nextOf c.shared.mem p) c) : ∀ (n : Nat) {pred : NodeId},
      pred ∈ insert (head l) (c.storage.seen S l) → c.shared.rank pred < key →
      Ends (findLoop key n pred (c.storage.nextOf c.shared.mem pred)) c Q (OnAbort (Thrown c))
  | 0, _, _, _ => by simp [findLoop]
  | n + 1, pred, hpred, hlt => by
    rcases hn : c.storage.nextOf c.shared.mem pred with _ | y
    · have hQp := hQ pred ((hO.threads l).isPrev_of_next hpred hlt fun y hy => by
        rw [hn] at hy
        simp at hy)
      simpa only [findLoop, Ends_pure, seesKey, hn] using hQp
    · have hy : y ∈ c.storage.seen S l := (hO.threads l).next_mem hpred hn
      have hrank := hO.rank_seen hL hy
      have hstop : key ≤ (c.shared.mem y).key →
          Q (decide ((c.shared.mem y).key = key), pred, some y) c := by
        intro hle
        have hQp := hQ pred ((hO.threads l).isPrev_of_next hpred hlt fun y' hy' => by
          rw [hn] at hy'
          obtain rfl := Option.some.inj hy'
          rw [hrank]
          exact WithBot.coe_le_coe.2 hle)
        simpa only [seesKey, hn] using hQp
      simp only [findLoop, Ends_bind, Ends_node, Ends_ite, Ends_pure]
      refine ⟨fun he => by simpa [he] using hstop he.ge, fun hne => ⟨fun hgt => ?_, fun hle => ?_⟩⟩
      · simpa [hne] using hstop hgt.le
      · refine getNext_ends fun _ => findLoop_ends hQ n (Finset.mem_insert_of_mem hy) ?_
        rw [hrank]
        exact WithBot.coe_lt_coe.2 (lt_of_le_of_ne (not_lt.1 hle) hne)

theorem find_node_ends {Q : Bool × NodeId × Option NodeId → Ctx K V m → Prop}
    (hQ : ∀ p, IsPrev c.shared.rank (c.storage.seen S l) (head l) key p →
      Q (seesKey c key p, p, c.storage.nextOf c.shared.mem p) c) :
    Ends (find_node fuel l key) c Q (OnAbort (Thrown c)) := by
  simp only [find_node, TxList.getPred, Ends_bind]
  refine hL.indexGetPred_ends (fun p hp => ?_) fun _ => trivial
  refine getPredLoop_ends hL (fun pred hpred hlt => ?_) fuel hp.1 hp.2.1
  exact getNext_ends fun _ => findLoop_ends hL hO hQ fuel hpred hlt

end Overlay

end Search

end TxList
