import TxList.Proofs.IndexRooted
import TxList.Proofs.Serial

/-!
# Searches while write-backs are under way

A memory is *behind* another one when they differ in locked nodes only, and there not in the keys: what
is still to be written is on nodes that are locked. The lists of the memory ahead are in order; of the
indexes it is only known that their heads stand for the lists' heads and that they hold no node that is
not on its list or gone from it.

A search that gets through has read the memory ahead: a node that it goes on from was not locked, or is
in the transaction's own write set.
-/

namespace TxList

open Prog Chain

variable {K V : Type} {m : Nat}

/-! ## Indexes searched -/

/-- The indexes may have been searched. -/
structure Shared.Searched (s s' : Shared K V m) : Prop where
  eq : s' = { s with index := s'.index }
  same : ∀ l, (s.index l).SameNodes (s'.index l)

namespace Shared.Searched

variable {s s' s'' : Shared K V m}

theorem refl (s : Shared K V m) : s.Searched s := ⟨rfl, fun _ => .refl _⟩

theorem mem (h : s.Searched s') : s'.mem = s.mem := by rw [h.eq]

theorem gvc (h : s.Searched s') : s'.gvc = s.gvc := by rw [h.eq]

theorem fresh (h : s.Searched s') : s'.fresh = s.fresh := by rw [h.eq]

theorem setIndex (h : s.Searched s') {l : ListId m} {ix : Index} (hix : (s'.index l).SameNodes ix) :
    s.Searched { s' with index := Function.update s'.index l ix } := by
  refine ⟨?_, fun l' => ?_⟩
  · conv_lhs => rw [h.eq]
  · by_cases hl : l' = l
    · subst hl
      simpa using (h.same l').trans hix
    · simpa [hl] using h.same l'

end Shared.Searched

section Behind

variable [LinearOrder K]

/-- The node is on list `l`, or was. -/
def Placed (w : Shared K V m) (S : ListId m → Finset NodeId) (l : ListId m) (n : NodeId) : Prop :=
  n ∈ insert (head l) (S l) ∨ m ≤ n ∧ w.Dead n

/-- The memory `s` with write-backs under way, and the memory `w` with all of them made. -/
structure Behind (s w : Shared K V m) (S : ListId m → Finset NodeId) : Prop where
  lists : Lists w S
  heads : m ≤ w.fresh
  key : ∀ n, (s.mem n).key = (w.mem n).key
  same : ∀ n, (s.mem n).isLocked = false → s.mem n = w.mem n
  unmarked : ∀ n, (w.mem n).word.singleton = false
  rooted : ∀ l, (s.index l).Rooted (head l)
  placed : ∀ l i, Placed w S l ((s.index l).nodes i).node

/-- The list's head, or a node below the key. -/
def Shared.Starts (w : Shared K V m) (l : ListId m) (key : K) (p : NodeId) : Prop :=
  p = head l ∨ (w.mem p).key < key

theorem Lists.rank_lt_of_starts {w : Shared K V m} {S : ListId m → Finset NodeId} {l : ListId m} {key : K}
    {p : NodeId} (hL : Lists w S) (hp : p ∈ insert (head l) (S l)) (h : w.Starts l key p) :
    w.rank p < key := by
  rcases Finset.mem_insert.1 hp with rfl | hS
  · rw [w.rank_head]
    exact WithBot.bot_lt_coe key
  · rcases h with rfl | h
    · rw [w.rank_head]
      exact WithBot.bot_lt_coe key
    · rw [hL.rank_mem hS]
      exact WithBot.coe_lt_coe.2 h

namespace Behind

variable {c : Ctx K V m} {w s' : Shared K V m} {S : ListId m → Finset NodeId} {l : ListId m} {key : K}
  {fuel : Nat} {n : NodeId} {P : Ctx K V m → Prop}

theorem searched {s : Shared K V m} (h : Behind s w S) (hs : s.Searched s') : Behind s' w S where
  lists := h.lists
  heads := h.heads
  key n := by rw [hs.mem]; exact h.key n
  same n hn := by rw [hs.mem] at hn ⊢; exact h.same n hn
  unmarked := h.unmarked
  rooted l := (h.rooted l).of_same (hs.same l)
  placed l i := by rw [(hs.same l).node]; exact h.placed l i

/-- A search of the index. -/
theorem indexGetPred_ends (h : Behind s' w S) {Q : NodeId → Ctx K V m → Prop} {E : Err → Ctx K V m → Prop}
    (hE : ∀ c, E .diverged c)
    (hQ : ∀ p s'', s'.Searched s'' → Placed w S l p → w.Starts l key p → Q p { c with shared := s'' }) :
    Ends (indexGetPred fuel l key) { c with shared := s' } Q E := by
  simp only [indexGetPred, Ends_onIndex, hE, implies_true, true_and]
  intro ix p hp
  obtain ⟨hsame, i, hi⟩ := Index.sameNodes_getPredLoop hp
  refine hQ p _ ((Shared.Searched.refl s').setIndex hsame) (hi ▸ h.placed l i) ?_
  have hkey : s'.view.key p = (w.mem p).key := h.key p
  rw [Shared.Starts, ← hkey]
  exact (Index.getPred_precedes (h.rooted l) hp).2

theorem unmarked_of_unlocked (h : Behind s' w S) (hn : (s'.mem n).isLocked = false) :
    (s'.mem n).isSingleton = false := by
  rw [h.same n hn]
  exact h.unmarked n

omit [LinearOrder K] in
/-- `checkNode` gets through on a node that is not locked. -/
theorem checkNode_ends {c : Ctx K V m} {Q : Unit → Ctx K V m → Prop}
    (hu : (c.shared.mem n).isLocked = false → (c.shared.mem n).isSingleton = false)
    (hP : P { c with transaction := { c.transaction with TX := false } })
    (hQ : (c.shared.mem n).isLocked = false → Q () c) : Ends (checkNode n) c Q (OnAbort P) := by
  simp only [checkNode, Ends_bind, Ends_node, Ends_get, Ends_ite, Ends_abortTX, Ends_pure,
    Ends_incrementAndGetVersion]
  refine ⟨fun _ => hP, fun hold => ?_⟩
  have hn : (c.shared.mem n).isLocked = false := by
    simp only [tooNew, Bool.or_eq_true, not_or] at hold
    simpa using hold.1
  have hs := hu hn
  refine ⟨fun hm => ?_, fun _ => hQ hn⟩
  simp only [LNode.isSameVersionAndSingleton, Word.isSameVersionAndSingleton, Bool.and_eq_true] at hm
  rw [LNode.isSingleton, hm.1] at hs
  simp at hs

/-- The node is in the write set, or is not locked. -/
def Open (c : Ctx K V m) (n : NodeId) : Prop :=
  n ∈ c.storage.writeSet ∨ (c.shared.mem n).isLocked = false

/-- A search that throws leaves the nodes alone. -/
def Thrower (P : Ctx K V m → Prop) (c : Ctx K V m) : Prop :=
  ∀ s', c.shared.Searched s' →
    P { c with shared := s', transaction := { c.transaction with TX := false } }

section Nodes

variable (h : Behind c.shared w S) (hP : Thrower P c)

include h hP

section Check

variable (hs : c.shared.Searched s')

include hs

theorem check_ends {Q : Unit → Ctx K V m → Prop}
    (hQ : (c.shared.mem n).isLocked = false → Q () { c with shared := s' }) :
    Ends (checkNode n) { c with shared := s' } Q (OnAbort P) := by
  have hB := h.searched hs
  refine checkNode_ends (c := { c with shared := s' }) hB.unmarked_of_unlocked (hP s' hs) fun hn => hQ ?_
  rwa [← hs.mem]

/-- `getNext` reads what comes after the node in the memory ahead. -/
theorem getNext_ends {Q : Option NodeId → Ctx K V m → Prop}
    (hQ : Open c n → Q (c.storage.nextOf w.mem n) { c with shared := s' }) :
    Ends (getNext n) { c with shared := s' } Q (OnAbort P) := by
  simp only [getNext, Ends_bind, Ends_get]
  split
  · rename_i we hw
    have hn : n ∈ c.storage.writeSet := AList.lookup_isSome.1 (by rw [hw]; rfl)
    simpa only [Ends_pure, LocalStorage.nextOf, hw] using hQ (.inl hn)
  · rename_i hw
    simp only [Ends_bind, Ends_node, Ends_ite, Ends_abortTX]
    refine ⟨fun _ => hP s' hs, fun _ => h.check_ends hP hs fun hn => ?_⟩
    have hQn := hQ (.inr hn)
    rw [LocalStorage.nextOf, hw] at hQn
    simp only [← h.same n hn, ← hs.mem] at hQn
    split <;> rename_i ho
    · simpa only [Ends_pure, ho] using hQn
    · simp only [Ends_bind]
      refine h.check_ends hP hs fun _ => ?_
      simpa only [Ends_pure, ho] using hQn

end Check

/-- The loop of `getPred` ends at a node of the list that the transaction has not deleted. -/
theorem getPredLoop_ends {Q : NodeId → Ctx K V m → Prop}
    (hQ : ∀ p s', c.shared.Searched s' → (c.shared.mem p).isLocked = false → p ∈ insert (head l) (S l) →
      c.storage.deletes p = false → w.Starts l key p → Q p { c with shared := s' }) :
    ∀ (n : Nat) {s' : Shared K V m} {pred : NodeId}, c.shared.Searched s' → Placed w S l pred →
      w.Starts l key pred → Ends (TxList.getPredLoop fuel l n pred) { c with shared := s' } Q (OnAbort P)
  | 0, _, _, _, _, _ => by simp [TxList.getPredLoop]
  | n + 1, s', pred, hs, hp, hlt => by
    simp only [TxList.getPredLoop, Ends_bind]
    refine h.check_ends hP hs fun hn => ?_
    have hmem : s'.mem pred = w.mem pred := by rw [hs.mem, h.same pred hn]
    simp only [Ends_node, Ends_get, Ends_ite, Ends_bind, Ends_assert, OnAbort_assertFailed,
      implies_true, and_true, Ends_pure, hmem]
    refine ⟨fun _ hh => ?_, fun hd => ?_⟩
    · -- the search starts over below the deleted node
      refine (h.searched hs).indexGetPred_ends (c := c) (fun _ => trivial) fun p s'' hs'' hp' hlt' => ?_
      have hs₂ : c.shared.Searched s'' := ⟨by rw [hs''.eq, hs.eq], fun l => (hs.same l).trans (hs''.same l)⟩
      refine getPredLoop_ends hQ n hs₂ hp' (hlt'.imp_right fun hk => hk.trans ?_)
      exact hlt.resolve_left (by simpa using hh)
    · obtain ⟨hd, hw⟩ := not_or.1 (by simpa only [Bool.or_eq_true] using hd)
      refine hQ pred s' hs hn (hp.resolve_right fun hd' => hw hd'.2.2.1) ?_ hlt
      rw [LocalStorage.deletes]
      rcases hlk : c.storage.writeSet.lookup pred with _ | we
      · rfl
      · simpa only [hlk, Bool.not_eq_true] using hd

/-- What `find_node` finds: an open node and what comes after it in the memory ahead. If the transaction
sees sorted lists there, it is where the key belongs in them. -/
structure Finds (w : Shared K V m) (S : ListId m → Finset NodeId) (c : Ctx K V m) (l : ListId m) (key : K)
    (r : Bool × NodeId × Option NodeId) : Prop where
  next : r.2.2 = c.storage.nextOf w.mem r.2.1
  opened : Open c r.2.1
  bound : r.2.1 < w.fresh
  view : Overlay w S c.storage → FoundAt S { c with shared := w } l key r { c with shared := w }

variable (hn : ∀ n y, c.storage.nextOf w.mem n = some y → y < w.fresh)

include hn

theorem findLoop_ends (hs : c.shared.Searched s') {Q : Bool × NodeId × Option NodeId → Ctx K V m → Prop}
    (hQ : ∀ r, Finds w S c l key r → Q r { c with shared := s' }) : ∀ (n : Nat) {pred : NodeId},
      Open c pred → pred < w.fresh → (Overlay w S c.storage →
        pred ∈ insert (head l) (c.storage.seen S l) ∧ w.rank pred < key) →
      Ends (findLoop key n pred (c.storage.nextOf w.mem pred)) { c with shared := s' } Q (OnAbort P)
  | 0, _, _, _, _ => by simp [findLoop]
  | n + 1, pred, hopen, hlt, hview => by
    rcases hnx : c.storage.nextOf w.mem pred with _ | y
    · simp only [findLoop, Ends_pure]
      refine hQ _ ⟨hnx.symm, hopen, hlt, fun hO => ⟨rfl, ?_, ?_, hnx.symm⟩⟩
      · exact (hO.threads l).isPrev_of_next (hview hO).1 (hview hO).2 fun y hy => by
          rw [hnx] at hy
          simp at hy
      · simp [seesKey, hnx]
    · have hstop : key ≤ (w.mem y).key → Q (decide ((w.mem y).key = key), pred, some y)
          { c with shared := s' } := by
        refine fun hle => hQ _ ⟨hnx.symm, hopen, hlt, fun hO => ⟨rfl, ?_, ?_, hnx.symm⟩⟩
        · refine (hO.threads l).isPrev_of_next (hview hO).1 (hview hO).2 fun y' hy' => ?_
          rw [hnx] at hy'
          obtain rfl := Option.some.inj hy'
          rw [hO.rank_seen h.lists ((hO.threads l).next_mem (hview hO).1 hnx)]
          exact WithBot.coe_le_coe.2 hle
        · simp [seesKey, hnx]
      have hkey : (s'.mem y).key = (w.mem y).key := by rw [hs.mem, h.key]
      simp only [findLoop, Ends_bind, Ends_node, Ends_ite, Ends_pure, hkey]
      refine ⟨fun he => by simpa [he] using hstop he.ge, fun hne => ⟨fun hgt => ?_, fun hle => ?_⟩⟩
      · simpa [hne] using hstop hgt.le
      · refine h.getNext_ends hP hs fun hopen' =>
          findLoop_ends hs hQ n hopen' (hn _ _ hnx) fun hO => ?_
        have hy := (hO.threads l).next_mem (hview hO).1 hnx
        refine ⟨Finset.mem_insert_of_mem hy, ?_⟩
        rw [hO.rank_seen h.lists hy]
        exact WithBot.coe_lt_coe.2 (lt_of_le_of_ne (not_lt.1 hle) hne)

theorem find_node_ends {Q : Bool × NodeId × Option NodeId → Ctx K V m → Prop}
    (hQ : ∀ r s', c.shared.Searched s' → Finds w S c l key r → Q r { c with shared := s' }) :
    Ends (find_node fuel l key) c Q (OnAbort P) := by
  simp only [find_node, TxList.getPred, Ends_bind]
  refine h.indexGetPred_ends (c := c) (fun _ => trivial) fun p s₁ hs₁ hp hlt => ?_
  refine h.getPredLoop_ends hP (fun pred s₂ hs₂ hu hmem hd hlt => ?_) fuel hs₁ hp hlt
  refine h.getNext_ends hP hs₂ fun hopen => ?_
  refine h.findLoop_ends hP hn hs₂ (fun r hr => hQ r s₂ hs₂ hr) fuel hopen
    (h.lists.lt_fresh h.heads hmem) fun hO => ⟨?_, ?_⟩
  · rcases Finset.mem_insert.1 hmem with rfl | hS
    · exact Finset.mem_insert_self _ _
    · exact Finset.mem_insert_of_mem (LocalStorage.mem_seen.2 ⟨.inl hS, hd⟩)
  · exact h.lists.rank_lt_of_starts hmem hlt

end Nodes

/-! ## As a singleton -/

section Singleton

variable (h : Behind c.shared w S)

include h

theorem getPredSingletonLoop_ends {Q : NodeId → Ctx K V m → Prop}
    (hQ : ∀ p s', c.shared.Searched s' → Placed w S l p → w.Starts l key p → Q p { c with shared := s' }) :
    ∀ (n : Nat) {s' : Shared K V m} {pred : NodeId}, c.shared.Searched s' → Placed w S l pred →
      w.Starts l key pred →
      Ends (getPredSingletonLoop fuel l n pred) { c with shared := s' } Q (OnAbort P)
  | 0, _, _, _, _, _ => by simp [getPredSingletonLoop]
  | n + 1, s', pred, hs, hp, hlt => by
    have hkey : (s'.mem pred).key = (w.mem pred).key := by rw [hs.mem, h.key]
    simp only [getPredSingletonLoop, Ends_bind, Ends_node, Ends_ite, Ends_pure, hkey]
    refine ⟨fun _ => ⟨fun _ => hQ pred s' hs hp hlt, fun hh => ?_⟩, fun _ => hQ pred s' hs hp hlt⟩
    refine (h.searched hs).indexGetPred_ends (c := c) (fun _ => trivial) fun p s'' hs'' hp' hlt' => ?_
    have hs₂ : c.shared.Searched s'' := ⟨by rw [hs''.eq, hs.eq], fun l => (hs.same l).trans (hs''.same l)⟩
    exact getPredSingletonLoop_ends hQ n hs₂ hp' (hlt'.imp_right fun hk => hk.trans (hlt.resolve_left hh))

/-- What a singleton's search finds. -/
def FindsSingle (w : Shared K V m) (S : ListId m → Finset NodeId) (c : Ctx K V m) (l : ListId m) (key : K)
    (r : Bool × NodeId × Option NodeId) : Prop :=
  Lists.FoundSingle S { c with shared := w } l key r { c with shared := w } ∧
    (r.1 = true → ∀ y, r.2.2 = some y → (c.shared.mem y).isLocked = false)

omit h [LinearOrder K] in
theorem isLocked_of_free {x : LNode K V} (hx : x.isLockedOrDeleted = false) :
    x.isLocked = false ∧ x.isDeleted = false := by
  simp only [LNode.isLockedOrDeleted, Word.isLockedOrDeleted, Bool.or_eq_false_iff] at hx
  exact ⟨hx.2, hx.1⟩

theorem findSingletonLoop_ends {s' : Shared K V m} (hs : c.shared.Searched s')
    {Q : Option (Bool × NodeId × Option NodeId) → Ctx K V m → Prop}
    (hagain : Q none { c with shared := s' })
    (hQ : ∀ r, FindsSingle w S c l key r → Q (some r) { c with shared := s' }) : ∀ (n : Nat) {pred : NodeId},
      (c.shared.mem pred).isLocked = false → pred ∈ insert (head l) (S l) → w.rank pred < key →
      Ends (findSingletonLoop key n pred (w.next pred)) { c with shared := s' } Q (OnAbort P)
  | 0, _, _, _, _ => by simp [findSingletonLoop]
  | n + 1, pred, hu, hpred, hlt => by
    have hT := h.lists.threads l
    have hmem : s'.mem pred = w.mem pred := by rw [hs.mem, h.same pred hu]
    rcases hnx : w.next pred with _ | y
    · simp only [findSingletonLoop, Ends_pure]
      refine hQ _ ⟨⟨rfl, ?_, ?_, hnx.symm⟩, by simp⟩
      · exact hT.isPrev_of_next hpred hlt fun y hy => by
          rw [hnx] at hy
          simp at hy
      · simp [Lists.found, hnx]
    · have hy : y ∈ S l := hT.next_mem hpred hnx
      have hstop : key ≤ (w.mem y).key → ((w.mem y).key = key → (c.shared.mem y).isLocked = false) →
          Q (some (decide ((w.mem y).key = key), pred, some y)) { c with shared := s' } := by
        refine fun hle hfree => hQ _ ⟨⟨rfl, ?_, ?_, hnx.symm⟩, fun hk y' hy' => ?_⟩
        · refine hT.isPrev_of_next hpred hlt fun y' hy' => ?_
          rw [hnx] at hy'
          obtain rfl := Option.some.inj hy'
          rw [h.lists.rank_mem hy]
          exact WithBot.coe_le_coe.2 hle
        · simp [Lists.found, hnx]
        · obtain rfl := Option.some.inj hy'
          exact hfree (of_decide_eq_true hk)
      have hnext : (s'.mem pred).next = some y := by rw [hmem]; exact hnx
      simp only [findSingletonLoop, Ends_bind, Ends_node, Ends_ite, Ends_pure, hnext]
      refine ⟨fun _ => hagain, fun hfree => ?_⟩
      have hfree : (c.shared.mem y).isLocked = false ∧ (c.shared.mem y).isDeleted = false := by
        rw [hs.mem] at hfree
        exact isLocked_of_free (by simpa using hfree)
      have hmy : s'.mem y = w.mem y := by rw [hs.mem, h.same y hfree.1]
      simp only [hmy]
      refine ⟨fun he => by simpa [he] using hstop he.ge fun _ => hfree.1, fun hne =>
        ⟨fun hgt => by simpa [hne] using hstop hgt.le fun hk => absurd hk hne, fun hle => ?_⟩⟩
      refine ⟨fun _ => hagain, fun _ => ⟨fun _ => hagain, fun _ => ?_⟩⟩
      refine findSingletonLoop_ends hs hagain hQ n hfree.1 (Finset.mem_insert_of_mem hy) ?_
      rw [h.lists.rank_mem hy]
      exact WithBot.coe_lt_coe.2 (lt_of_le_of_ne (not_lt.1 hle) hne)

theorem find_node_singelton_ends {Q : Bool × NodeId × Option NodeId → Ctx K V m → Prop}
    (hQ : ∀ r s', c.shared.Searched s' → FindsSingle w S c l key r → Q r { c with shared := s' }) :
    ∀ (n : Nat) {s' : Shared K V m}, c.shared.Searched s' →
      Ends (find_node_singelton fuel l key n) { c with shared := s' } Q (OnAbort P)
  | 0, _, _ => by simp [find_node_singelton]
  | n + 1, s', hs => by
    simp only [find_node_singelton, getPredSingleton, Ends_bind]
    refine (h.searched hs).indexGetPred_ends (c := c) (fun _ => trivial) fun p s₁ hs₁ hp hlt => ?_
    have hs₁ : c.shared.Searched s₁ := ⟨by rw [hs₁.eq, hs.eq], fun l => (hs.same l).trans (hs₁.same l)⟩
    refine h.getPredSingletonLoop_ends (fun pred s₂ hs₂ hp hlt => ?_) fuel hs₁ hp hlt
    simp only [Ends_node, Ends_ite]
    refine ⟨fun _ => find_node_singelton_ends hQ n hs₂, fun _ =>
      ⟨fun _ => find_node_singelton_ends hQ n hs₂, fun hfree => ?_⟩⟩
    have hfree : (c.shared.mem pred).isLocked = false ∧ (c.shared.mem pred).isDeleted = false := by
      rw [hs₂.mem] at hfree
      exact isLocked_of_free (by simpa using hfree)
    have hmem : s₂.mem pred = w.mem pred := by rw [hs₂.mem, h.same pred hfree.1]
    have hin : pred ∈ insert (head l) (S l) := hp.resolve_right fun hd => by
      have hdel := hfree.2
      rw [h.same pred hfree.1, LNode.isDeleted] at hdel
      exact absurd (hd.2.2.1.symm.trans hdel) (by simp)
    simp only [Ends_bind, hmem]
    refine h.findSingletonLoop_ends hs₂ (find_node_singelton_ends hQ n hs₂) (fun r hr => ?_) fuel hfree.1 hin
      (h.lists.rank_lt_of_starts hin hlt)
    exact hQ r s₂ hs₂ hr

/-- A singleton `get` that returns reads the map of the memory ahead. -/
theorem getSingleton_ends {Q : Option V → Ctx K V m → Prop}
    (hQ : ∀ s', c.shared.Searched s' → Q (w.lookup l key) { c with shared := s' }) :
    Ends (getSingleton fuel l key) c Q (OnAbort P) := by
  simp only [getSingleton, Ends_bind]
  refine h.find_node_singelton_ends (fun r s' hs hr => ?_) fuel (.refl _)
  obtain ⟨b, p, o⟩ := r
  obtain ⟨⟨-, hp, hf, ho⟩, hfree⟩ := hr
  simp only at hp hf ho hfree
  have hQs := hQ s' hs
  rcases b with _ | _
  · have hnone : w.lookup l key = none := by
      rcases hl : w.lookup l key with _ | v
      · rfl
      · obtain ⟨n, hn, hk, -⟩ := h.lists.lookup_eq_some.1 hl
        exact absurd hk (h.lists.not_found hp hf.symm n hn)
    rw [hnone] at hQs
    simpa using hQs
  · obtain ⟨y, hy, hn, hk⟩ := (h.lists.found_iff hp).1 hf.symm
    obtain ⟨v, hv⟩ := Option.isSome_iff_exists.1 (h.lists.live l y (Finset.mem_insert_of_mem hy)).1
    rw [h.lists.lookup_eq_some.2 ⟨y, hy, hk, hv⟩] at hQs
    have ho : o = some y := ho.trans hn
    have hmem : s'.mem y = w.mem y := by rw [hs.mem, h.same y (hfree rfl y ho)]
    simpa only [ho, Ends_bind, Ends_node, Ends_pure, hmem, hv] using hQs

end Singleton

end Behind

end Behind

end TxList
