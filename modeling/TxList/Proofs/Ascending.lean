import Mathlib.Order.Interval.Finset.Nat
import TxList.Proofs.IndexRooted
import TxList.Proofs.Lists
import TxList.Proofs.Points

/-!
# Ascending pointers

A search goes on to `pred->m_next` once it has compared the node there, but reads the pointer again to
do so; and `putSingleton` reads it again under the lock for the node that comes after the new one. As
long as no other thread brings a node there by then that belongs on the other side of the key, every
pointer leads to a greater key.
-/

namespace TxList

open Chain

variable {K V : Type} {m : Nat} [LinearOrder K]

/-! ## Ranks -/

namespace Shared

variable {s : Shared K V m} {n : NodeId}

theorem rank_le_key (s : Shared K V m) (n : NodeId) : s.rank n ≤ ((s.mem n).key : WithBot K) := by
  unfold rank
  split_ifs
  · exact bot_le
  · exact le_rfl

theorem le_of_lt_rank {r : WithBot K} (h : r < s.rank n) : m ≤ n := by
  by_contra hn
  rw [rank, if_pos (not_le.1 hn)] at h
  exact not_lt_bot h

omit [LinearOrder K] in
theorem rank_apply {e : Effect K V m} (h : n < s.fresh) : (e.apply s).rank n = s.rank n := by
  rw [rank, rank, Effect.key_apply h]

end Shared

/-- Every pointer leads to a greater key, and the indexes' heads stand for the lists' heads. -/
structure Shared.Ascending (s : Shared K V m) : Prop where
  next : ∀ n y, (s.mem n).next = some y → s.rank n < s.rank y
  index : ∀ l, (s.index l).Rooted (head l)

/-- It stays so, unless a pointer is set to a node that does not come after its own. -/
theorem Shared.Ascending.apply {s : Shared K V m} {e : Effect K V m} (h : s.Ascending) (hs : s.Closed)
    (hnext : ∀ n o, e = .next n o → ∀ y, o = some y → s.rank n < s.rank y)
    (hix : ∀ l ix, e = .index l ix → ix.Rooted (head l)) : (e.apply s).Ascending := by
  refine ⟨fun n y hy => ?_, fun l => ?_⟩
  · have hkeep : (∀ k, ((e.apply s).mem k).key = (s.mem k).key) →
        (((e.apply s).mem n).next = (s.mem n).next ∨ e = .next n ((e.apply s).mem n).next) →
        (e.apply s).rank n < (e.apply s).rank y := by
      intro hkey hcases
      have hrank : ∀ k, (e.apply s).rank k = s.rank k := fun k => by
        rw [Shared.rank, Shared.rank, hkey k]
      rw [hrank, hrank]
      rcases hcases with hsame | he
      · exact h.next n y (hsame ▸ hy)
      · exact hnext n _ he y hy
    cases e with
    | alloc key val =>
      have hne : n ≠ s.fresh := by
        rintro rfl
        simp [Effect.apply] at hy
      have hmem : ∀ k, k ≠ s.fresh → ((Effect.alloc key val).apply s).mem k = s.mem k := fun k hk => by
        simp only [Effect.apply, Shared.mem_setNode, if_neg hk]
      rw [hmem n hne] at hy
      have hy' : y ≠ s.fresh := (hs.next n y hy).ne
      simp only [Shared.rank, hmem n hne, hmem y hy']
      exact h.next n y hy
    | next k o =>
      refine hkeep (fun j => ?_) ?_ <;> simp only [Effect.apply, Shared.mem_setNode]
      · split_ifs with hj
        · rw [hj]
        · rfl
      · split_ifs with hk
        · exact .inr (by rw [hk])
        · exact .inl rfl
    | store k w | lock k w | unlock k w | val k o =>
      refine hkeep (fun j => ?_) (.inl ?_) <;> simp only [Effect.apply, Shared.mem_setNode] <;>
        split_ifs with hk
      · rw [hk]
      · rfl
      · rw [hk]
      · rfl
    | none | increment | index l ix | retire k => exact hkeep (fun _ => rfl) (.inl rfl)
  · cases e with
    | index l' ix =>
      by_cases hl : l = l'
      · subst hl
        simpa [Effect.apply] using hix l ix rfl
      · simpa [Effect.apply, hl] using h.index l
    | _ => exact h.index l

/-- The chain of a list ends, and the keys on it increase. -/
theorem Shared.Ascending.chain {s : Shared K V m} (h : s.Ascending) (hs : s.Closed) (l : ListId m) :
    Path s.next (head l :: s.chain l) ∧ ((s.chain l).map fun n => (s.mem n).key).Pairwise (· < ·) := by
  obtain ⟨habove, hsorted⟩ := walk_pairwise (f := s.rank) h.next s.fresh (h.next (head l))
  have hm : ∀ n ∈ s.chain l, m ≤ n := fun n hn => Shared.le_of_lt_rank (habove n hn)
  have hlt : ∀ n ∈ s.chain l, n < s.fresh :=
    (walk_within (S := {n | n < s.fresh}) (fun n _ => hs.next n) (fun _ _ => rfl) s.fresh
      (hs.next (head l))).2
  -- the nodes are distinct, so the walk has not run out of steps
  have hnodup : (s.chain l).Nodup := hsorted.imp fun hab he => by
    rw [he] at hab
    exact lt_irrefl _ hab
  have hlen : (s.chain l).length < s.fresh := by
    have hcard := Finset.card_le_card (s := (s.chain l).toFinset) (t := Finset.Ico m s.fresh) fun n hn =>
      Finset.mem_Ico.2 ⟨hm n (List.mem_toFinset.1 hn), hlt n (List.mem_toFinset.1 hn)⟩
    rw [List.toFinset_card_of_nodup hnodup, Nat.card_Ico] at hcard
    have hpos : 0 < m := l.pos
    have hheads := hs.heads
    omega
  refine ⟨walk_path hlen, List.pairwise_map.2 (hsorted.imp_of_mem fun {a b} ha hb hab => ?_)⟩
  rwa [s.rank_of_le (hm a ha), s.rank_of_le (hm b hb), WithBot.coe_lt_coe] at hab

/-! ## What the searches have compared -/

/-- A node of this rank may stand before what the call inserts. -/
def Access.Allows (op : Access K V m) (r : WithBot K) : Prop :=
  match op with
  | .put _ key _ => r < key
  | .remove _ _ | .get _ _ => True

namespace Access

variable {op : Access K V m} {r r' : WithBot K}

theorem Allows.mono (h : op.Allows r') (hr : r ≤ r') : op.Allows r := by
  cases op with
  | put l key val => exact hr.trans_lt h
  | remove | get => trivial

theorem allows_of_lt (h : r < op.key) : op.Allows r := by
  cases op with
  | put l key val => exact h
  | remove | get => trivial

theorem allows_bot (op : Access K V m) : op.Allows ⊥ := allows_of_lt (WithBot.bot_lt_coe _)

end Access

instance (op : Access K V m) (r : WithBot K) : Decidable (op.Allows r) :=
  match op with
  | .put _ key _ => inferInstanceAs (Decidable (r < key))
  | .remove _ _ | .get _ _ => isTrue trivial

/-- The thread does not mind if the pointer of `n` is set to `o`: it is not about to read that pointer
again, or the node there is on the side of the key where it has found one. -/
def Pc.Bears (s : Shared K V m) (n : NodeId) (o : Option NodeId) : Pc K V m → Prop
  | .advance op pred _ => pred = n → ∀ y, o = some y → op.Allows (s.rank y)
  | .insertNew _ key _ pred (some _) | .insertNext _ key _ pred _ =>
    pred = n → ∀ y, o = some y → (key : WithBot K) < s.rank y
  | _ => True

/-- No thread sets a pointer that another one reads again to a node on the other side of its key. -/
def Machine.StaysBetween : Machine.Guard K V m := fun M t mv =>
  Machine.SingletonsOnly M t mv ∧
  ∀ n o k, M.effect t mv = some (.next n o, k) → ∀ u, u ≠ t → ∀ x ∈ (M.pc u).points,
    x.Bears M.shared n o

/-- The nodes in hand are on the sides of the key where the thread takes them to be. -/
def Pc.Placed (s : Shared K V m) : Pc K V m → Prop
  | .getPred op key => ∀ r : WithBot K, r < key → op.Allows r
  | .predTest op pred => pred = head op.list ∨ op.Allows ((s.mem pred).key : WithBot K)
  | .firstTest op pred | .firstNext op pred | .advanceNext op pred => op.Allows (s.rank pred)
  | .firstRetest op pred o | .advanceTest op pred o =>
    op.Allows (s.rank pred) ∧ ∀ y, o = some y → m ≤ y
  | .nextTest op pred next => op.Allows (s.rank pred) ∧ m ≤ next
  | .nextLocked op _ next | .nextSame op _ next => op.Allows (s.rank next)
  | .advance op pred _ => ∀ y, (s.mem pred).next = some y → op.Allows (s.rank y)
  | .found op false pred o =>
    op.Allows (s.rank pred) ∧ ∀ y, o = some y → (op.key : WithBot K) < s.rank y
  | .insertSame _ key _ pred o =>
    s.rank pred < key ∧ ∀ y, o = some y → (key : WithBot K) < s.rank y
  | .insertNew _ key _ pred o =>
    s.rank pred < key ∧ (o.isSome = true → ∀ y, (s.mem pred).next = some y → (key : WithBot K) < s.rank y)
  | .insertNext _ key _ pred n =>
    (s.rank pred < key ∧ s.rank n = key) ∧ ∀ y, (s.mem pred).next = some y → (key : WithBot K) < s.rank y
  | .insertLink _ key _ pred n after =>
    (s.rank pred < key ∧ s.rank n = key) ∧ ∀ y, after = some y → (key : WithBot K) < s.rank y
  | .insertPublish _ key _ pred n => s.rank pred < key ∧ s.rank n = key
  | .removeAfter _ _ pred _ second _ => s.rank pred < s.rank second
  | .removeUnlink _ _ pred _ _ after _ => ∀ y, after = some y → s.rank pred < s.rank y
  | .setNext _ _ _ | .commit _ _ | .release _ _ => False
  | _ => True

namespace Pc

variable {s : Shared K V m} {k : Pc K V m} {d : Draw}

omit [LinearOrder K] in
/-- What holds of the node behind a pointer, unless it is written, or else of the one it is set to. -/
theorem next_kept {e : Effect K V m} {P : WithBot K → Prop} {pred : NodeId} (hs : s.Closed)
    (hp : pred < s.fresh) (hold : ∀ y, (s.mem pred).next = some y → P (s.rank y))
    (he : ∀ o, e = .next pred o → Below s.fresh o ∧ ∀ y, o = some y → P (s.rank y)) :
    ∀ y, ((e.apply s).mem pred).next = some y → P ((e.apply s).rank y) := by
  intro y hy
  rcases Effect.next_apply (e := e) hp with hsame | hset
  · rw [hsame] at hy
    rw [Shared.rank_apply (hs.next pred y hy)]
    exact hold y hy
  · obtain ⟨hlt, hnew⟩ := he _ hset
    rw [Shared.rank_apply (hlt y hy)]
    exact hnew y hy

/-- It stays so, unless a pointer that is to be read again is set to a node it cannot bear. -/
theorem Placed.apply {e : Effect K V m} (h : k.Placed s) (hs : s.Closed) (hw : k.Within s.fresh)
    (he : ∀ n o, e = .next n o → Below s.fresh o ∧ k.Bears s n o) : k.Placed (e.apply s) := by
  have hrank : ∀ {n}, n < s.fresh → (e.apply s).rank n = s.rank n := fun hn => Shared.rank_apply hn
  cases k with
  | predTest op pred =>
    have hp : pred < s.fresh := hw
    simpa only [Placed, Effect.key_apply hp] using h
  | firstTest op pred | firstNext op pred | advanceNext op pred =>
    have hp : pred < s.fresh := hw
    simpa only [Placed, hrank hp] using h
  | firstRetest op pred o | advanceTest op pred o | nextTest op pred next =>
    simpa only [Placed, hrank hw.1] using h
  | nextLocked op pred next | nextSame op pred next =>
    simpa only [Placed, hrank hw.2] using h
  | advance op pred next =>
    exact next_kept hs hw.1 h fun o ho => ⟨(he _ _ ho).1, (he _ _ ho).2 rfl⟩
  | found op b pred o =>
    cases b with
    | true => trivial
    | false =>
      refine ⟨by rw [hrank hw.1]; exact h.1, fun y hy => ?_⟩
      rw [hrank (hw.2 y hy)]
      exact h.2 y hy
  | insertSame l key val pred o =>
    refine ⟨by rw [hrank hw.1]; exact h.1, fun y hy => ?_⟩
    rw [hrank (hw.2 y hy)]
    exact h.2 y hy
  | insertNew l key val pred o =>
    refine ⟨by rw [hrank hw.1]; exact h.1, fun ho => ?_⟩
    cases o with
    | none => simp at ho
    | some x => exact next_kept hs hw.1 (h.2 ho) fun o ho => ⟨(he _ _ ho).1, (he _ _ ho).2 rfl⟩
  | insertNext l key val pred n =>
    refine ⟨by rw [hrank hw.1, hrank hw.2]; exact h.1, ?_⟩
    exact next_kept hs hw.1 h.2 fun o ho => ⟨(he _ _ ho).1, (he _ _ ho).2 rfl⟩
  | insertLink l key val pred n after =>
    refine ⟨by rw [hrank hw.1, hrank hw.2.1]; exact h.1, fun y hy => ?_⟩
    rw [hrank (hw.2.2 y hy)]
    exact h.2 y hy
  | insertPublish l key val pred n =>
    simpa only [Placed, hrank hw.1, hrank hw.2] using h
  | removeAfter l key pred next second ret =>
    simpa only [Placed, hrank hw.1, hrank hw.2.2] using h
  | removeUnlink l key pred next second after ret =>
    intro y hy
    rw [hrank hw.1, hrank (hw.2.2.2 y hy)]
    exact h y hy
  | setNext n o k | commit job locked | release locked k => exact h
  | _ => trivial

theorem placed_start (op : Access K V m) : (start op).Placed s :=
  fun _ hr => Access.allows_of_lt hr

theorem placed_loop {op : Access K V m} {pred : NodeId} (hp : op.Allows (s.rank pred)) :
    ∀ {o : Option NodeId}, (∀ y, o = some y → m ≤ y) → (loop op pred o).Ahead (Placed s)
  | none, _ => .here (k := .found op false pred none) ⟨hp, fun y hy => by simp at hy⟩ rfl
  | some next, h => .here (k := .nextTest op pred next) ⟨hp, h next rfl⟩ rfl

theorem placed_find {op : Access K V m} {b : Bool} {pred : NodeId} {o : Option NodeId}
    (h : (Pc.found op b pred o).Placed s) : (find op b pred o).Ahead (Placed s) := by
  have hstart : (start op).Ahead (Placed s) := .here (placed_start op) rfl
  cases op with
  | put l key val =>
    cases b with
    | true => exact .here (k := .putNode l key val pred o) trivial rfl
    | false => exact .tryLock (.test hstart (.here (k := .insertSame l key val pred o) h rfl)) hstart
  | remove l key =>
    cases b with
    | true =>
      exact .tryLock (.test hstart (.here (k := .removeSame l key pred o) trivial rfl)) hstart
    | false => exact .here (k := .returned _ none) trivial rfl
  | get l key =>
    cases b with
    | true =>
      cases o with
      | none => exact .here (k := .stopped _) trivial rfl
      | some y => exact .here (k := .getVal l key y) trivial rfl
    | false => exact .here (k := .returned _ none) trivial rfl

/-- The search has compared another key: it ends there, or goes on. -/
theorem placed_compared {op : Access K V m} {pred next : NodeId}
    (h : (Pc.nextTest op pred next).Placed s) (hne : (s.mem next).key ≠ op.key) :
    (if op.key < (s.mem next).key then Pc.found op false pred (some next)
      else .nextLocked op pred next).Ahead (Placed s) := by
  have hrank : s.rank next = (s.mem next).key := s.rank_of_le h.2
  refine .ite (fun hgt => ?_) fun hle => ?_
  · refine .here (k := .found op false pred (some next)) ⟨h.1, ?_⟩ rfl
    rintro _ ⟨⟩
    rw [hrank]
    exact WithBot.coe_lt_coe.2 hgt
  · refine .here (k := .nextLocked op pred next) (Access.allows_of_lt ?_) rfl
    rw [hrank]
    exact WithBot.coe_lt_coe.2 (lt_of_le_of_ne (not_lt.1 hle) hne)

/-- The new node comes after the node before the gap. -/
theorem placed_insertNew {l : ListId m} {key : K} {val : V} {pred : NodeId} {o : Option NodeId}
    (h : (Pc.insertNew l key val pred o).Placed s) (hs : s.Closed)
    (hw : (Pc.insertNew l key val pred o).Within s.fresh) :
    (if o.isSome then Pc.insertNext l key val pred s.fresh
      else .insertPublish l key val pred s.fresh).Ahead (Placed ((Effect.alloc key val).apply s)) := by
  have hnew : ((Effect.alloc key val).apply s : Shared K V m).rank s.fresh = key := by
    rw [Shared.rank_of_le _ hs.heads]
    simp [Effect.apply]
  have hpred : ((Effect.alloc key val).apply s : Shared K V m).rank pred < key := by
    rw [Shared.rank_apply hw.1]
    exact h.1
  refine .ite (fun ho => ?_) fun _ => ?_
  · refine .here (k := .insertNext l key val pred s.fresh) ⟨⟨hpred, hnew⟩, ?_⟩ rfl
    exact next_kept hs hw.1 (h.2 ho) fun o ho => by simp at ho
  · exact .here (k := .insertPublish l key val pred s.fresh) ⟨hpred, hnew⟩ rfl

theorem Placed.step (hk : k.between = false) (h : k.Placed s) (hA : s.Ascending) (hs : s.Closed)
    (hw : k.Within s.fresh) : ∀ e k', k.step s d = some (e, k') → k'.Ahead (Placed (e.apply s)) := by
  have hstart : ∀ op : Access K V m, (start op).Ahead (Placed s) := fun op => .here (placed_start op) rfl
  -- a pointer leads to no head
  have hbehind : ∀ {pred : NodeId} (y : NodeId), (s.mem pred).next = some y → m ≤ y := fun y hy =>
    Shared.le_of_lt_rank (hA.next _ y hy)
  cases k with
  | idle | returned op ret | ended b | stopped w => simp [Pc.step]
  | test | tryLock | tryLockCas | unlock | unlockCas | set | store | setVal | increment | indexAdd
  | indexRemove | retire => simp [between] at hk
  | setNext n o k | commit job locked | release locked k => exact h.elim
  | getPred op key =>
    simp only [Pc.step, Option.map_eq_some_iff, Prod.mk.injEq]
    rintro e k' ⟨⟨ix, p⟩, hix, rfl, rfl⟩
    obtain ⟨-, hp⟩ := Index.getPred_precedes (hA.index op.list) hix
    exact .here (k := .predTest op p) (hp.imp_right fun hlt => h _ (WithBot.coe_lt_coe.2 hlt)) rfl
  | predTest op pred =>
    have hfirst : (Pc.firstTest op pred).Placed s := by
      rcases h with rfl | h
      · simpa only [Placed, s.rank_head] using op.allows_bot
      · exact h.mono (s.rank_le_key pred)
    refine after (.ite (fun _ => .ite (fun _ => .here hfirst rfl) fun hne => ?_) fun _ => .here hfirst rfl)
    exact .here (k := .getPred op _) (fun r hr => (h.resolve_left hne).mono hr.le) rfl
  | firstTest op pred => exact after (.ite (fun _ => hstart op) fun _ => .here (k := .firstNext op pred) h rfl)
  | firstNext op pred | advanceNext op pred => exact after (.here ⟨h, hbehind⟩ rfl)
  | firstRetest op pred o | advanceTest op pred o =>
    exact after (.ite (fun _ => hstart op) fun _ => placed_loop h.1 h.2)
  | nextTest op pred next =>
    exact after (.ite (fun _ => hstart op) fun _ => .ite
      (fun _ => .here (k := .reread op pred next) trivial rfl) fun hne => placed_compared h hne)
  | reread op pred next => exact after (.here (k := .found op true pred _) trivial rfl)
  | nextLocked op pred next =>
    exact after (.ite (fun _ => hstart op) fun _ => .here (k := .nextSame op pred next) h rfl)
  | nextSame op pred next =>
    refine after (.ite (fun _ => hstart op) fun hsame => .here (k := .advance op pred next) ?_ rfl)
    intro y hy
    obtain rfl := Option.some.inj ((not_ne_iff.1 hsame).symm.trans hy)
    exact h
  | advance op pred next =>
    rcases hp : (s.mem pred).next with _ | y <;> simp only [Pc.step, hp]
    · exact after (hstart op)
    · exact after (.here (k := .advanceNext op y) (h y hp) rfl)
  | found op b pred o => exact after (placed_find h)
  | putNode l key val pred o =>
    rcases hp : (s.mem pred).next with _ | y <;> simp only [Pc.step, hp]
    · exact after (.here (k := .stopped _) trivial rfl)
    · exact after (.tryLock (.here (k := .putCheck l key val y o) trivial rfl) (hstart _))
  | putCheck l key val node o =>
    cases o with
    | none => exact after (.here (k := .stopped _) trivial rfl)
    | some y =>
      exact after (.ite (fun _ => hstart _) fun _ =>
        .test (hstart _) (.here (k := .putRead l key val node) trivial rfl))
  | putRead l key val node =>
    refine after ?_
    exact Ahead.here (k := .putVersion l key val node _) trivial rfl
  | putVersion l key val node ret =>
    refine after ?_
    exact Ahead.here (k := .returned _ ret) trivial rfl
  | insertSame l key val pred o =>
    refine after (.ite (fun _ => hstart _) fun hsame => .here (k := .insertNew l key val pred o) ?_ rfl)
    exact ⟨h.1, fun _ y hy => h.2 y ((not_ne_iff.1 hsame).trans hy)⟩
  | insertNew l key val pred o => exact after (placed_insertNew h hs hw)
  | insertNext l key val pred n => exact after (.here (k := .insertLink l key val pred n _) h rfl)
  | insertLink l key val pred n o =>
    refine after (.here (k := .insertPublish l key val pred n) ?_ rfl)
    exact ⟨by rw [Shared.rank_apply hw.1]; exact h.1.1, by rw [Shared.rank_apply hw.2.1]; exact h.1.2⟩
  | insertPublish l key val pred n => exact after (.here (k := .insertVersion l key val pred n) trivial rfl)
  | insertVersion l key val pred n =>
    refine after ?_
    exact Ahead.here (k := .returned _ none) trivial rfl
  | removeSame l key pred o =>
    refine after (.ite (fun _ => hstart _) fun _ => ?_)
    cases o with
    | none => exact .here (k := .stopped _) trivial rfl
    | some y => exact .tryLock (.here (k := .removeRead l key pred y) trivial rfl) (hstart _)
  | removeRead l key pred next =>
    refine after ?_
    exact Ahead.here (k := .removeSecond l key pred next _) trivial rfl
  | removeSecond l key pred next ret =>
    rcases hp : (s.mem pred).next with _ | y <;> simp only [Pc.step, hp]
    · exact after (.here (k := .stopped _) trivial rfl)
    · exact after (.here (k := .removeAfter l key pred next y ret) (hA.next pred y hp) rfl)
  | removeAfter l key pred next second ret =>
    refine after (.here (k := .removeUnlink l key pred next second _ ret) (fun y hy => ?_) rfl)
    exact lt_trans h (hA.next second y hy)
  | removeUnlink l key pred next second o ret =>
    exact after (.here (k := .removeVersion l key pred next ret) trivial rfl)
  | removeVersion l key pred next ret =>
    refine after ?_
    exact Ahead.here (k := .returned _ ret) trivial rfl
  | getVal l key next => exact after (.here (k := .returned _ _) trivial rfl)

/-- A pointer is set to a node that comes after its own. -/
theorem Placed.step_next (h : k.between = false → k.Placed s) {n : NodeId} {o : Option NodeId} {k' : Pc K V m}
    (hst : k.step s d = some (.next n o, k')) : ∀ y, o = some y → s.rank n < s.rank y := by
  rcases hb : k.between with _ | _
  · specialize h hb
    cases k with
    | insertLink l key val pred n' after =>
      simp only [Pc.step, Option.some.injEq, Prod.mk.injEq, Effect.next.injEq] at hst
      obtain ⟨⟨rfl, rfl⟩, -⟩ := hst
      rw [h.1.2]
      exact h.2
    | insertPublish l key val pred n' =>
      simp only [Pc.step, Option.some.injEq, Prod.mk.injEq, Effect.next.injEq] at hst
      obtain ⟨⟨rfl, rfl⟩, -⟩ := hst
      rintro _ ⟨⟩
      rw [h.2]
      exact h.1
    | removeUnlink l key pred next second after ret =>
      simp only [Pc.step, Option.some.injEq, Prod.mk.injEq, Effect.next.injEq] at hst
      obtain ⟨⟨rfl, rfl⟩, -⟩ := hst
      exact h
    | setNext n' o' k | commit job locked | release locked k => exact h.elim
    | tryLockCas | unlockCas => simp [between] at hb
    | advance op pred next | putNode l key val pred next | removeSecond l key pred next ret =>
      simp only [Pc.step] at hst
      split at hst <;> simp at hst
    | putCheck l key val node next =>
      cases next <;> simp [Pc.step] at hst
    | _ => simp [Pc.step] at hst
  · obtain ⟨hcalm, -⟩ := step_between hb _ _ hst
    simp [Effect.calm] at hcalm

/-- An index's heads go on standing for the list's head. -/
theorem step_index (hA : s.Ascending) {l : ListId m} {ix : Index} {k' : Pc K V m}
    (hst : k.step s d = some (.index l ix, k')) : ix.Rooted (head l) := by
  cases k with
  | getPred op key =>
    simp only [Pc.step, Option.map_eq_some_iff, Prod.mk.injEq, Effect.index.injEq] at hst
    obtain ⟨⟨ix', p⟩, hix, ⟨rfl, rfl⟩, -⟩ := hst
    exact (Index.getPred_precedes (hA.index op.list) hix).1
  | indexAdd l' n k =>
    simp only [Pc.step, Option.map_eq_some_iff, Prod.mk.injEq, Effect.index.injEq] at hst
    obtain ⟨ix', hix, ⟨rfl, rfl⟩, -⟩ := hst
    exact (hA.index l').add hix
  | indexRemove l' n k =>
    simp only [Pc.step, Option.map_eq_some_iff, Prod.mk.injEq, Effect.index.injEq] at hst
    obtain ⟨ix', hix, ⟨rfl, rfl⟩, -⟩ := hst
    exact (hA.index l').remove hix
  | tryLockCas n w yes no | unlockCas n w k | release locked k =>
    simp only [Pc.step] at hst
    split_ifs at hst <;> simp at hst
  | advance op pred next | putNode l key val pred next | removeSecond l key pred next ret =>
    simp only [Pc.step] at hst
    split at hst <;> simp at hst
  | putCheck l key val node next =>
    cases next <;> simp [Pc.step] at hst
  | _ => simp [Pc.step] at hst

end Pc

/-! ## Runs -/

/-- A test for `Pc.Bears`. -/
def Pc.bears (s : Shared K V m) (n : NodeId) (o : Option NodeId) : Pc K V m → Bool
  | .advance op pred _ => decide (pred = n → ∀ y ∈ o, op.Allows (s.rank y))
  | .insertNew _ key _ pred (some _) | .insertNext _ key _ pred _ =>
    decide (pred = n → ∀ y ∈ o, (key : WithBot K) < s.rank y)
  | _ => true

theorem Pc.bears_iff {s : Shared K V m} {n : NodeId} {o : Option NodeId} {k : Pc K V m} :
    k.bears s n o = true ↔ k.Bears s n o := by
  cases k with
  | advance op pred next => exact decide_eq_true_iff
  | insertNext l key val pred n => exact decide_eq_true_iff
  | insertNew l key val pred next =>
    cases next with
    | none => exact iff_of_true rfl trivial
    | some y => exact decide_eq_true_iff
  | _ => exact iff_of_true rfl trivial

namespace Machine

variable {minKey : K} {dflt : V} {M : Machine K V m}

theorem kept_placed : Kept (StaysBetween (K := K) (V := V) (m := m)) Shared.Ascending Pc.Placed where
  access hg := hg.1
  idle s := trivial
  start s op := Pc.placed_start op
  stopped s w hw := trivial
  calm hs hc hw h := h.apply hs hw fun n o he => by
    rw [he] at hc
    simp [Effect.calm] at hc
  other hw hg hs hu hx hxw h := h.apply hw.closed hxw fun n o he => by
    cases he
    exact ⟨((hw.pc _).step hw.closed _ _ hs).1, hg.2 _ _ _ hs _ hu _ hx⟩
  point hw hI hg hb h hs := h.step hb hI hw.closed (hw.pc _) _ _ hs
  mem hw hI h hs := hI.apply hw.closed (fun n o he => Pc.Placed.step_next h (he ▸ hs))
    fun l ix he => Pc.step_index hI (he ▸ hs)

theorem Ascending.init (minKey : K) (dflt : V) :
    (Machine.init minKey dflt : Machine K V m).shared.Ascending :=
  ⟨fun n y hy => by simp [Machine.init, Sys.init] at hy, fun l => .new _⟩

/-- Every list's chain ends, and its keys increase. -/
theorem chains_increase (hr : Reach minKey dflt StaysBetween M) (l : ListId m) :
    Path M.shared.next (head l :: M.shared.chain l) ∧
      ((M.shared.chain l).map fun n => (M.shared.mem n).key).Pairwise (· < ·) :=
  (kept_placed.reach (Ascending.init minKey dflt) hr).1.chain hr.within.closed l

/-- This step is one that `StaysBetween` allows, as far as the threads below `B` go. -/
def staysBetween (B : Nat) (M : Machine K V m) (t : ThreadId) (mv : Move K V m) : Bool :=
  decide (SingletonsOnly M t mv) &&
    match M.effect t mv with
    | some (.next n o, _) => others B M t (Pc.bears M.shared n o)
    | _ => true

theorem Idle.staysBetween {B : Nat} {t : ThreadId} {mv : Move K V m} (h : M.Idle B)
    (hs : staysBetween B M t mv = true) : StaysBetween M t mv := by
  simp only [Machine.staysBetween, Bool.and_eq_true, decide_eq_true_eq] at hs
  refine ⟨hs.1, fun n o k he u hu x hx => ?_⟩
  have hnext := hs.2
  rw [he] at hnext
  exact Pc.bears_iff.1 (h.others (p := Pc.bears M.shared n o) rfl hnext u hu x hx)

/-- Thread `1` is about to go on from the head to the node of the key `6` when thread `0` puts the key `5`
between them. -/
theorem chains_increase_advancing : ∃ M : Machine Nat Nat 1, Reach 0 0 StaysBetween M ∧
    (M.pc 1).resting = true ∧ ((M.shared.chain 0).map fun n => (M.shared.mem n).key) = [5, 6, 7, 9] ∧
    Path M.shared.next (head (0 : ListId 1) :: M.shared.chain 0) ∧
      ((M.shared.chain 0).map fun n => (M.shared.mem n).key).Pairwise (· < ·) := by
  obtain ⟨M, hr, -, hp⟩ := exists_reach (G := StaysBetween) 0 0
    (turn 0 (some (.put 0 9 90)) 18 ++ turn 1 (some (.put 0 7 70)) 1 ++ turn 0 (some (.put 0 6 60)) 21 ++
      turn 1 none 7 ++ turn 0 (some (.put 0 5 50)) 21 ++ turn 1 none 25)
    (fun M : Machine Nat Nat 1 => (M.pc 1).resting &&
      decide (((M.shared.chain 0).map fun n => (M.shared.mem n).key) = [5, 6, 7, 9])) (B := 2)
    (fun _ _ _ hI hs => hI.staysBetween hs) (by decide +kernel)
  rw [Bool.and_eq_true, decide_eq_true_eq] at hp
  exact ⟨M, hr, hp.1, hp.2, chains_increase hr 0⟩

/-- Thread `1`, with the key `7`, has compared the key `6` behind the head and is about to go on to that
node when thread `0` removes it: thread `1` goes on to the key `9` and puts its node behind it. -/
theorem chain_out_of_order : ¬ ∀ M : Machine Nat Nat 1, Reach 0 0 SingletonsOnly M → ∀ l,
    ((M.shared.chain l).map fun n => (M.shared.mem n).key).Pairwise (· < ·) := by
  intro h
  obtain ⟨M, hr, -, hp⟩ := exists_reach_of_decidable (G := SingletonsOnly) 0 0 2
    (turn 0 (some (.put 0 9 90)) 18 ++ turn 1 (some (.put 0 7 70)) 1 ++ turn 0 (some (.put 0 6 60)) 21 ++
      turn 1 none 7 ++ turn 0 (some (.remove 0 6)) 30 ++ turn 1 none 10)
    (fun M : Machine Nat Nat 1 =>
      decide (((M.shared.chain 0).map fun n => (M.shared.mem n).key) = [9, 7])) (by decide +kernel)
  have hsorted := h M hr 0
  rw [of_decide_eq_true hp] at hsorted
  simp at hsorted

end Machine

end TxList
