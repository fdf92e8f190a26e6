import TxList.Proofs.Points

/-!
# Pointers read again

A search compares the key of the node it has read from `pred->m_next` and then reads `pred->m_next`
again for the node it returns; `putSingleton` reads it a third time, and `removeSingleton` once more
between its check and its write. Each time another thread may have written it since. As long as none
does, what is read again is the node that was compared.
-/

namespace TxList

variable {K V : Type} {m : Nat}

/-- The program has stopped at the fault. -/
def Pc.isStopped (f : Fault) : Pc K V m → Bool
  | .stopped w => decide (w = f)
  | _ => false

theorem Pc.isStopped_iff {f : Fault} {k : Pc K V m} : k.isStopped f = true ↔ k = .stopped f := by
  cases k with
  | stopped w => simp [isStopped]
  | _ => simp [isStopped]

/-- The search has found the node. -/
def Pc.isFound [DecidableEq K] [DecidableEq V] (op : Access K V m) (pred next : NodeId) : Pc K V m → Bool
  | .found op' b pred' next' => decide (op' = op ∧ b = true ∧ pred' = pred ∧ next' = some next)
  | _ => false

theorem Pc.isFound_iff [DecidableEq K] [DecidableEq V] {op : Access K V m} {pred next : NodeId} {k : Pc K V m} :
    k.isFound op pred next = true ↔ k = .found op true pred (some next) := by
  cases k with
  | found op' b pred' next' => simp [isFound]
  | _ => simp [isFound]

/-! ## Null pointers -/

/-- The node whose `m_next` the thread is to read again, to use what it reads as a node. -/
def Pc.rereads : Pc K V m → Option NodeId
  | .reread _ pred _ | .found (.put _ _ _) true pred _ | .putNode _ _ _ pred _ | .removeRead _ _ pred _
  | .removeSecond _ _ pred _ _ => some pred
  | _ => none

/-- What the thread has found is a node. -/
def Pc.HasNode : Pc K V m → Prop
  | .found _ true _ o | .putNode _ _ _ _ o | .putCheck _ _ _ _ o | .removeSame _ _ _ o => o.isSome = true
  | .stopped w => w ≠ .nullDereference
  | .setNext _ _ _ | .commit _ _ | .release _ _ => False
  | _ => True

/-- A thread that has met its key still finds a pointer where it met it, and no other thread sets that
pointer to null before it has been read again. -/
def Machine.NotEmptied [LinearOrder K] : Machine.Guard K V m := fun M t mv =>
  Machine.SingletonsOnly M t mv ∧
  (∀ e op pred next, M.effect t mv = some (e, .reread op pred next) → (M.shared.mem pred).next ≠ none) ∧
  ∀ n k, M.effect t mv = some (.next n none, k) → ∀ u, u ≠ t → ∀ x ∈ (M.pc u).points, x.rereads ≠ some n

/-- The pointers to be read again are not null. -/
def Pc.Filled (s : Shared K V m) (k : Pc K V m) : Prop :=
  k.HasNode ∧ ∀ n, k.rereads = some n → (s.mem n).next ≠ none

namespace Pc

variable {s : Shared K V m} {k : Pc K V m}

/-- At a point from which nothing is read again. -/
theorem Filled.of_not (h : k.HasNode) (hr : k.rereads = none) : k.Filled s :=
  ⟨h, fun n hn => by simp [hr] at hn⟩

/-- At a point that reads one pointer again. -/
theorem Filled.of_rereads {pred : NodeId} (h : k.HasNode) (hp : (s.mem pred).next ≠ none)
    (hr : k.rereads = some pred) : k.Filled s := by
  refine ⟨h, fun n hn => ?_⟩
  obtain rfl := Option.some.inj (hr.symm.trans hn)
  exact hp

theorem rereads_lt {n : NodeId} {f : Nat} (h : k.rereads = some n) (hw : k.Within f) : n < f := by
  cases k with
  | reread op pred next | putNode l key val pred o | removeRead l key pred next
  | removeSecond l key pred next ret =>
    obtain rfl := Option.some.inj h
    exact hw.1
  | found op b pred o =>
    cases op with
    | put l key val =>
      cases b with
      | false => cases h
      | true =>
        obtain rfl := Option.some.inj h
        exact hw.1
    | remove | get => cases h
  | _ => cases h

/-- It stays so, unless one of the pointers is set to null. -/
theorem Filled.apply {e : Effect K V m} (h : k.Filled s) (hw : k.Within s.fresh)
    (he : ∀ n, k.rereads = some n → e ≠ .next n none) : k.Filled (e.apply s) := by
  refine ⟨h.1, fun n hn => ?_⟩
  rcases Effect.next_apply (e := e) (rereads_lt hn hw) with hsame | hnext
  · rw [hsame]
    exact h.2 n hn
  · intro hnone
    rw [hnone] at hnext
    exact he n hn hnext

theorem filled_start (op : Access K V m) : (start op).Filled s := .of_not trivial rfl

theorem filled_loop (op : Access K V m) (pred : NodeId) : ∀ o, (loop op pred o).Ahead (Filled s)
  | none => .here (.of_not trivial (by cases op <;> rfl)) rfl
  | some y => .here (.of_not trivial rfl) rfl

theorem filled_find {op : Access K V m} {b : Bool} {pred : NodeId} {o : Option NodeId}
    (h : (Pc.found op b pred o).Filled s) : (find op b pred o).Ahead (Filled s) := by
  have hstart : (start op).Ahead (Filled s) := .here (filled_start op) rfl
  cases op with
  | put l key val =>
    cases b with
    | true => exact .here (.of_rereads h.1 (h.2 pred rfl) rfl) rfl
    | false => exact .tryLock (.test hstart (.here (.of_not trivial rfl) rfl)) hstart
  | remove l key =>
    cases b with
    | true => exact .tryLock (.test hstart (.here (.of_not h.1 rfl) rfl)) hstart
    | false => exact .here (.of_not trivial rfl) rfl
  | get l key =>
    cases b with
    | true =>
      obtain ⟨y, rfl⟩ := Option.isSome_iff_exists.1 h.1
      exact .here (.of_not trivial rfl) rfl
    | false => exact .here (.of_not trivial rfl) rfl

theorem Filled.step [LinearOrder K] {d : Draw} (hk : k.between = false) (h : k.Filled s) :
    ∀ e k', k.step s d = some (e, k') →
      (∀ op pred next, k' = .reread op pred next → (s.mem pred).next ≠ none) →
      k'.Ahead (Filled (e.apply s)) := by
  have hstart : ∀ op : Access K V m, (start op).Ahead (Filled s) := fun op => .here (filled_start op) rfl
  cases k with
  | idle | returned op ret | ended b | stopped w => simp [Pc.step]
  | test | tryLock | tryLockCas | unlock | unlockCas | set | store | setVal | increment | indexAdd
  | indexRemove | retire => simp [between] at hk
  | setNext n o k | commit job locked | release locked k => exact h.1.elim
  | getPred op key =>
    simp only [Pc.step, Option.map_eq_some_iff, Prod.mk.injEq]
    rintro e k' ⟨x, -, rfl, rfl⟩ -
    exact .here (.of_not trivial rfl) rfl
  | predTest op pred =>
    exact after fun _ => .ite (fun _ => .ite (fun _ => .here (.of_not trivial rfl) rfl)
      fun _ => .here (.of_not trivial rfl) rfl) fun _ => .here (.of_not trivial rfl) rfl
  | firstTest op pred =>
    exact after fun _ => .ite (fun _ => hstart op) fun _ => .here (.of_not trivial rfl) rfl
  | firstNext op pred | advanceNext op pred => exact after fun _ => .here (.of_not trivial rfl) rfl
  | firstRetest op pred o | advanceTest op pred o =>
    exact after fun _ => .ite (fun _ => hstart op) fun _ => filled_loop op pred o
  | nextTest op pred next =>
    refine after fun hr => ?_
    dsimp only at hr ⊢
    split_ifs with h1 h2 h3
    · exact hstart op
    · exact .here (.of_rereads trivial (hr op pred next (by rw [if_neg h1, if_pos h2])) rfl) rfl
    · exact .here (.of_not trivial (by cases op <;> rfl)) rfl
    · exact .here (.of_not trivial rfl) rfl
  | reread op pred next =>
    have hne := h.2 pred rfl
    refine after fun _ => .here ⟨Option.isSome_iff_ne_none.2 hne, fun n hn => ?_⟩ rfl
    obtain rfl : pred = n := by cases op <;> first | exact Option.some.inj hn | cases hn
    exact hne
  | nextLocked op pred next | nextSame op pred next =>
    exact after fun _ => .ite (fun _ => hstart op) fun _ => .here (.of_not trivial rfl) rfl
  | advance op pred next =>
    rcases hp : (s.mem pred).next with _ | y <;> simp only [Pc.step, hp]
    · exact after fun _ => hstart op
    · exact after fun _ => .here (.of_not trivial rfl) rfl
  | found op b pred o => exact after fun _ => filled_find h
  | putNode l key val pred o =>
    obtain ⟨y, hp⟩ := Option.ne_none_iff_exists'.1 (h.2 pred rfl)
    simp only [Pc.step, hp]
    exact after fun _ => .tryLock (.here (.of_not h.1 rfl) rfl) (hstart _)
  | putCheck l key val node o =>
    obtain ⟨y, rfl⟩ := Option.isSome_iff_exists.1 h.1
    exact after fun _ => .ite (fun _ => hstart _) fun _ =>
      .test (hstart _) (.here (.of_not trivial rfl) rfl)
  | putRead l key val node =>
    refine after fun _ => ?_
    exact Ahead.here (k := .putVersion l key val node _) (.of_not trivial rfl) rfl
  | putVersion l key val node ret =>
    refine after fun _ => ?_
    exact Ahead.here (k := .returned _ ret) (.of_not trivial rfl) rfl
  | insertSame l key val pred o =>
    exact after fun _ => .ite (fun _ => hstart _) fun _ => .here (.of_not trivial rfl) rfl
  | insertNew l key val pred o =>
    exact after fun _ => .ite (fun _ => .here (.of_not trivial rfl) rfl)
      fun _ => .here (.of_not trivial rfl) rfl
  | insertNext l key val pred n | insertLink l key val pred n o | insertPublish l key val pred n =>
    exact after fun _ => .here (.of_not trivial rfl) rfl
  | insertVersion l key val pred n =>
    refine after fun _ => ?_
    exact Ahead.here (k := .returned _ none) (.of_not trivial rfl) rfl
  | removeSame l key pred o =>
    obtain ⟨y, rfl⟩ := Option.isSome_iff_exists.1 h.1
    refine after fun _ => .ite (fun _ => hstart _) fun hsame => ?_
    have hne : (s.mem pred).next ≠ none := by
      rw [← not_ne_iff.1 hsame]
      simp
    exact .tryLock (.here (.of_rereads trivial hne rfl) rfl) (hstart _)
  | removeRead l key pred next =>
    refine after fun _ => ?_
    exact Ahead.here (k := .removeSecond l key pred next _) (.of_rereads trivial (h.2 pred rfl) rfl) rfl
  | removeSecond l key pred next ret =>
    obtain ⟨y, hp⟩ := Option.ne_none_iff_exists'.1 (h.2 pred rfl)
    simp only [Pc.step, hp]
    exact after fun _ => .here (.of_not trivial rfl) rfl
  | removeAfter l key pred next second ret | removeUnlink l key pred next second o ret =>
    exact after fun _ => .here (.of_not trivial rfl) rfl
  | removeVersion l key pred next ret =>
    refine after fun _ => ?_
    exact Ahead.here (k := .returned _ ret) (.of_not trivial rfl) rfl
  | getVal l key next => exact after fun _ => .here (.of_not trivial rfl) rfl

end Pc

namespace Machine

variable [LinearOrder K] {minKey : K} {dflt : V} {M : Machine K V m}

theorem kept_filled : Kept (NotEmptied (K := K) (V := V) (m := m)) (fun _ => True) Pc.Filled where
  access hg := hg.1
  idle s := .of_not trivial rfl
  start s op := Pc.filled_start op
  stopped s w hw := .of_not hw rfl
  calm _ hc hw h := h.apply hw fun n _ he => by
    rw [he] at hc
    simp [Effect.calm] at hc
  other hw hg hs hu hx hxw h := h.apply hxw fun n hn he => by
    cases he
    exact hg.2.2 _ _ hs _ hu _ hx hn
  point hw _ hg hb h hs := h.step hb _ _ hs fun op pred next hk => hg.2.1 _ op pred next (hk ▸ hs)
  mem _ _ _ _ := trivial

/-- No null pointer is used as a node. -/
theorem no_null_dereference (hr : Reach minKey dflt NotEmptied M) (t : ThreadId) :
    M.pc t ≠ .stopped .nullDereference := by
  intro hp
  have h := (kept_filled.reach trivial hr).2 t _ (by rw [hp]; exact List.mem_singleton_self _)
  exact h.1 rfl

/-- This step is one that `NotEmptied` allows, as far as the threads below `B` go. -/
def notEmptied (B : Nat) (M : Machine K V m) (t : ThreadId) (mv : Move K V m) : Bool :=
  decide (SingletonsOnly M t mv) &&
    (match M.effect t mv with
      | some (_, .reread _ pred _) => (M.shared.mem pred).next.isSome
      | _ => true) &&
    match M.effect t mv with
    | some (.next n none, _) => others B M t fun x => decide (x.rereads ≠ some n)
    | _ => true

theorem Idle.notEmptied {B : Nat} {t : ThreadId} {mv : Move K V m} (h : M.Idle B)
    (hs : notEmptied B M t mv = true) : NotEmptied M t mv := by
  simp only [Machine.notEmptied, Bool.and_eq_true, decide_eq_true_eq] at hs
  obtain ⟨⟨hmv, hre⟩, hnext⟩ := hs
  refine ⟨hmv, fun e op pred next he => ?_, fun n k he u hu x hx => ?_⟩
  · rw [he] at hre
    exact Option.isSome_iff_ne_none.1 hre
  · rw [he] at hnext
    exact of_decide_eq_true (h.others (p := fun x => decide (x.rereads ≠ some n)) rfl hnext u hu x hx)

/-- Thread `1` reads again after the key `7` was found, while thread `0` is about to remove it. -/
theorem no_null_dereference_removing : ∃ M : Machine Nat Nat 1, Reach 0 0 NotEmptied M ∧
    M.pc 1 = .found (.get 0 7) true 0 (some 1) ∧ M.pc 1 ≠ .stopped .nullDereference := by
  obtain ⟨M, hr, -, hp⟩ := exists_reach (G := NotEmptied) 0 0
    (turn 1 (some (.put 0 7 70)) 18 ++ turn 1 (some (.get 0 7)) 6 ++ turn 0 (some (.remove 0 7)) 17 ++
      turn 1 none 1)
    (fun M : Machine Nat Nat 1 => (M.pc 1).isFound (.get 0 7) 0 1) (B := 2)
    (fun _ _ _ hI hs => hI.notEmptied hs) (by decide +kernel)
  exact ⟨M, hr, Pc.isFound_iff.1 hp, no_null_dereference hr 1⟩

/-- Between the comparison of the key `7` and the second read of the head's `m_next` the node is removed,
and the head's `m_next` is null. -/
theorem null_dereferenced : ¬ ∀ M : Machine Nat Nat 1, Reach 0 0 SingletonsOnly M →
    ∀ t, M.pc t ≠ .stopped .nullDereference := by
  intro h
  obtain ⟨M, hr, -, hp⟩ := exists_reach_of_decidable (G := SingletonsOnly) 0 0 2
    (turn 1 (some (.put 0 7 70)) 18 ++ turn 1 (some (.get 0 7)) 6 ++ turn 0 (some (.remove 0 7)) 19 ++
      turn 1 none 2)
    (fun M : Machine Nat Nat 1 => (M.pc 1).isStopped .nullDereference) (by decide +kernel)
  exact h M hr 1 (Pc.isStopped_iff.1 hp)

end Machine

/-! ## The key asked for -/

/-- The node whose `m_next` the thread takes to be still what it was, and what it was. -/
def Pc.trusts : Pc K V m → Option (NodeId × NodeId)
  | .reread _ pred next | .removeRead _ _ pred next | .removeSecond _ _ pred next _
  | .removeAfter _ _ pred next _ _ | .removeUnlink _ _ pred next _ _ _ => some (pred, next)
  | _ => none

/-- A thread that has met its key still finds the node where it met it, and no other thread writes the
pointer to it before it has been read again, or while `removeSingleton` is between its check of that
pointer and its own write. -/
def Machine.NotRepointed [LinearOrder K] : Machine.Guard K V m := fun M t mv =>
  Machine.SingletonsOnly M t mv ∧
  (∀ e op pred next, M.effect t mv = some (e, .reread op pred next) →
    (M.shared.mem pred).next = some next) ∧
  ∀ n o k, M.effect t mv = some (.next n o, k) → ∀ u, u ≠ t → ∀ x ∈ (M.pc u).points, ∀ y,
    x.trusts = some (n, y) → o = some y

/-- The node in hand has the key asked for. -/
def Pc.HasKey (s : Shared K V m) : Pc K V m → Prop
  | .reread op _ next => (s.mem next).key = op.key
  | .found op true _ o => ∃ y, o = some y ∧ (s.mem y).key = op.key
  | .removeSame _ key _ o => ∃ y, o = some y ∧ (s.mem y).key = key
  | .removeRead _ key _ next | .removeSecond _ key _ next _ | .removeVersion _ key _ next _
  | .getVal _ key next => (s.mem next).key = key
  | .removeAfter _ key _ next second _ | .removeUnlink _ key _ next second _ _ =>
    second = next ∧ (s.mem next).key = key
  | .setNext _ _ _ | .commit _ _ | .release _ _ => False
  | _ => True

/-- It has, and it is the one behind the pointer that is to be read again or to be written. -/
def Pc.Keyed (s : Shared K V m) (k : Pc K V m) : Prop :=
  k.HasKey s ∧ ∀ n y, k.trusts = some (n, y) → (s.mem n).next = some y

namespace Pc

variable {s : Shared K V m} {k : Pc K V m}

/-- At a point that trusts no pointer. -/
theorem Keyed.of_not (h : k.HasKey s) (hr : k.trusts = none) : k.Keyed s :=
  ⟨h, fun n y hn => by simp [hr] at hn⟩

/-- At a point that trusts one. -/
theorem Keyed.of_trusts {pred next : NodeId} (h : k.HasKey s) (hp : (s.mem pred).next = some next)
    (hr : k.trusts = some (pred, next)) : k.Keyed s := by
  refine ⟨h, fun n y hn => ?_⟩
  obtain ⟨rfl, rfl⟩ := Prod.mk.inj (Option.some.inj (hr.symm.trans hn))
  exact hp

theorem trusts_lt {n y : NodeId} {f : Nat} (h : k.trusts = some (n, y)) (hw : k.Within f) : n < f := by
  cases k with
  | reread op pred next | removeRead l key pred next | removeSecond l key pred next ret
  | removeAfter l key pred next second ret | removeUnlink l key pred next second after ret =>
    obtain ⟨rfl, rfl⟩ := Prod.mk.inj (Option.some.inj h)
    exact hw.1
  | _ => cases h

/-- Keys of allocated nodes stay. -/
theorem HasKey.apply {e : Effect K V m} (h : k.HasKey s) (hw : k.Within s.fresh) :
    k.HasKey (e.apply s) := by
  cases k with
  | reread op pred next | removeRead l key pred next | removeSecond l key pred next ret
  | removeVersion l key pred next ret =>
    exact (Effect.key_apply hw.2).trans h
  | getVal l key next => exact (Effect.key_apply hw).trans h
  | removeAfter l key pred next second ret | removeUnlink l key pred next second after ret =>
    exact ⟨h.1, (Effect.key_apply hw.2.1).trans h.2⟩
  | found op b pred o =>
    cases b with
    | false => trivial
    | true =>
      obtain ⟨y, rfl, hy⟩ := h
      exact ⟨y, rfl, (Effect.key_apply (hw.2 y rfl)).trans hy⟩
  | removeSame l key pred o =>
    obtain ⟨y, rfl, hy⟩ := h
    exact ⟨y, rfl, (Effect.key_apply (hw.2 y rfl)).trans hy⟩
  | setNext n o k | commit job locked | release locked k => exact h
  | _ => trivial

/-- It stays so, unless one of the pointers is written. -/
theorem Keyed.apply {e : Effect K V m} (h : k.Keyed s) (hw : k.Within s.fresh)
    (he : ∀ n y o, k.trusts = some (n, y) → e = .next n o → o = some y) : k.Keyed (e.apply s) := by
  refine ⟨h.1.apply hw, fun n y hn => ?_⟩
  rcases Effect.next_apply (e := e) (trusts_lt hn hw) with hsame | hnext
  · rw [hsame]
    exact h.2 n y hn
  · exact he n y _ hn hnext

theorem keyed_start (op : Access K V m) : (start op).Keyed s := .of_not trivial rfl

theorem keyed_loop (op : Access K V m) (pred : NodeId) : ∀ o, (loop op pred o).Ahead (Keyed s)
  | none | some _ => .here (.of_not trivial rfl) rfl

theorem keyed_find {op : Access K V m} {b : Bool} {pred : NodeId} {o : Option NodeId}
    (h : (Pc.found op b pred o).Keyed s) : (find op b pred o).Ahead (Keyed s) := by
  have hstart : (start op).Ahead (Keyed s) := .here (keyed_start op) rfl
  cases op with
  | put l key val =>
    cases b with
    | true => exact .here (.of_not trivial rfl) rfl
    | false => exact .tryLock (.test hstart (.here (.of_not trivial rfl) rfl)) hstart
  | remove l key =>
    cases b with
    | true => exact .tryLock (.test hstart (.here (.of_not h.1 rfl) rfl)) hstart
    | false => exact .here (.of_not trivial rfl) rfl
  | get l key =>
    cases b with
    | true =>
      obtain ⟨y, rfl, hy⟩ := h.1
      exact .here (.of_not hy rfl) rfl
    | false => exact .here (.of_not trivial rfl) rfl

theorem Keyed.step [LinearOrder K] {d : Draw} (hk : k.between = false) (h : k.Keyed s)
    (hw : k.Within s.fresh) : ∀ e k', k.step s d = some (e, k') →
      (∀ op pred next, k' = .reread op pred next → (s.mem pred).next = some next) →
      k'.Ahead (Keyed (e.apply s)) := by
  have hstart : ∀ op : Access K V m, (start op).Ahead (Keyed s) := fun op => .here (keyed_start op) rfl
  cases k with
  | idle | returned op ret | ended b | stopped w => simp [Pc.step]
  | test | tryLock | tryLockCas | unlock | unlockCas | set | store | setVal | increment | indexAdd
  | indexRemove | retire => simp [between] at hk
  | setNext n o k | commit job locked | release locked k => exact h.1.elim
  | getPred op key =>
    simp only [Pc.step, Option.map_eq_some_iff, Prod.mk.injEq]
    rintro e k' ⟨x, -, rfl, rfl⟩ -
    exact .here (.of_not trivial rfl) rfl
  | predTest op pred =>
    exact after fun _ => .ite (fun _ => .ite (fun _ => .here (.of_not trivial rfl) rfl)
      fun _ => .here (.of_not trivial rfl) rfl) fun _ => .here (.of_not trivial rfl) rfl
  | firstTest op pred =>
    exact after fun _ => .ite (fun _ => hstart op) fun _ => .here (.of_not trivial rfl) rfl
  | firstNext op pred | advanceNext op pred => exact after fun _ => .here (.of_not trivial rfl) rfl
  | firstRetest op pred o | advanceTest op pred o =>
    exact after fun _ => .ite (fun _ => hstart op) fun _ => keyed_loop op pred o
  | nextTest op pred next =>
    refine after fun hr => ?_
    dsimp only at hr ⊢
    split_ifs with h1 h2 h3
    · exact hstart op
    · exact .here (.of_trusts h2 (hr op pred next (by rw [if_neg h1, if_pos h2])) rfl) rfl
    · exact .here (.of_not trivial rfl) rfl
    · exact .here (.of_not trivial rfl) rfl
  | reread op pred next =>
    exact after fun _ => .here (.of_not ⟨next, h.2 pred next rfl, h.1⟩ rfl) rfl
  | nextLocked op pred next | nextSame op pred next =>
    exact after fun _ => .ite (fun _ => hstart op) fun _ => .here (.of_not trivial rfl) rfl
  | advance op pred next =>
    rcases hp : (s.mem pred).next with _ | y <;> simp only [Pc.step, hp]
    · exact after fun _ => hstart op
    · exact after fun _ => .here (.of_not trivial rfl) rfl
  | found op b pred o => exact after fun _ => keyed_find h
  | putNode l key val pred o =>
    rcases hp : (s.mem pred).next with _ | y <;> simp only [Pc.step, hp]
    · exact after fun _ => .here (.of_not trivial rfl) rfl
    · exact after fun _ => .tryLock (.here (.of_not trivial rfl) rfl) (hstart _)
  | putCheck l key val node o =>
    cases o with
    | none => exact after fun _ => .here (.of_not trivial rfl) rfl
    | some y =>
      exact after fun _ => .ite (fun _ => hstart _) fun _ =>
        .test (hstart _) (.here (.of_not trivial rfl) rfl)
  | putRead l key val node =>
    refine after fun _ => ?_
    exact Ahead.here (k := .putVersion l key val node _) (.of_not trivial rfl) rfl
  | putVersion l key val node ret =>
    refine after fun _ => ?_
    exact Ahead.here (k := .returned _ ret) (.of_not trivial rfl) rfl
  | insertSame l key val pred o =>
    exact after fun _ => .ite (fun _ => hstart _) fun _ => .here (.of_not trivial rfl) rfl
  | insertNew l key val pred o =>
    exact after fun _ => .ite (fun _ => .here (.of_not trivial rfl) rfl)
      fun _ => .here (.of_not trivial rfl) rfl
  | insertNext l key val pred n | insertLink l key val pred n o | insertPublish l key val pred n =>
    exact after fun _ => .here (.of_not trivial rfl) rfl
  | insertVersion l key val pred n =>
    refine after fun _ => ?_
    exact Ahead.here (k := .returned _ none) (.of_not trivial rfl) rfl
  | removeSame l key pred o =>
    obtain ⟨y, rfl, hy⟩ := h.1
    refine after fun _ => .ite (fun _ => hstart _) fun hsame => ?_
    exact .tryLock (.here (.of_trusts hy (not_ne_iff.1 hsame).symm rfl) rfl) (hstart _)
  | removeRead l key pred next =>
    refine after fun _ => ?_
    exact Ahead.here (k := .removeSecond l key pred next _)
      (.of_trusts h.1 (h.2 pred next rfl) rfl) rfl
  | removeSecond l key pred next ret =>
    have hp := h.2 pred next rfl
    simp only [Pc.step, hp]
    exact after fun _ => .here (.of_trusts ⟨rfl, h.1⟩ hp rfl) rfl
  | removeAfter l key pred next second ret =>
    exact after fun _ => .here (.of_trusts h.1 (h.2 pred next rfl) rfl) rfl
  | removeUnlink l key pred next second o ret =>
    exact after fun _ => .here (.of_not ((Effect.key_apply hw.2.1).trans h.1.2) rfl) rfl
  | removeVersion l key pred next ret =>
    refine after fun _ => ?_
    exact Ahead.here (k := .returned _ ret) (.of_not trivial rfl) rfl
  | getVal l key next => exact after fun _ => .here (.of_not trivial rfl) rfl

end Pc

namespace Machine

variable [LinearOrder K] {minKey : K} {dflt : V} {M : Machine K V m}

theorem kept_keyed : Kept (NotRepointed (K := K) (V := V) (m := m)) (fun _ => True) Pc.Keyed where
  access hg := hg.1
  idle s := .of_not trivial rfl
  start s op := Pc.keyed_start op
  stopped s w hw := .of_not trivial rfl
  calm _ hc hw h := h.apply hw fun n _ _ _ he => by
    rw [he] at hc
    simp [Effect.calm] at hc
  other hw hg hs hu hx hxw h := h.apply hxw fun n y o hn he => by
    cases he
    exact hg.2.2 _ _ _ hs _ hu _ hx y hn
  point hw _ hg hb h hs := h.step hb (hw.pc _) _ _ hs fun op pred next hk =>
    hg.2.1 _ op pred next (hk ▸ hs)
  mem _ _ _ _ := trivial

/-- Whatever a singleton operation has in hand has the key it was asked for: the node that a search has
found, the node that `removeSingleton` unlinks, which is the one that it marks deleted, and the node
whose value `getSingleton` returns. -/
structure RightKeys (M : Machine K V m) : Prop where
  found : ∀ t op pred o, M.pc t = .found op true pred o →
    ∃ y, o = some y ∧ (M.shared.mem y).key = op.key
  unlinks : ∀ t l key pred next second after ret,
    M.pc t = .removeUnlink l key pred next second after ret →
      (M.shared.mem pred).next = some next ∧ second = next ∧ (M.shared.mem next).key = key
  deletes : ∀ t l key pred next ret, M.pc t = .removeVersion l key pred next ret →
    (M.shared.mem next).key = key
  gets : ∀ t l key next, M.pc t = .getVal l key next → (M.shared.mem next).key = key

theorem right_keys (hr : Reach minKey dflt NotRepointed M) : M.RightKeys := by
  have h : ∀ t k, M.pc t = k → k.points = [k] → k.Keyed M.shared := by
    rintro t k rfl hk
    exact (kept_keyed.reach trivial hr).2 t _ (by rw [hk]; exact List.mem_singleton_self _)
  refine ⟨fun t op pred o hp => (h t _ hp rfl).1, fun t l key pred next second after ret hp => ?_,
    fun t l key pred next ret hp => (h t _ hp rfl).1, fun t l key next hp => (h t _ hp rfl).1⟩
  obtain ⟨⟨hsecond, hkey⟩, hnext⟩ := h t _ hp rfl
  exact ⟨hnext pred next rfl, hsecond, hkey⟩

/-- This step is one that `NotRepointed` allows, as far as the threads below `B` go. -/
def notRepointed (B : Nat) (M : Machine K V m) (t : ThreadId) (mv : Move K V m) : Bool :=
  decide (SingletonsOnly M t mv) &&
    (match M.effect t mv with
      | some (_, .reread _ pred next) => decide ((M.shared.mem pred).next = some next)
      | _ => true) &&
    match M.effect t mv with
    | some (.next n o, _) => others B M t fun x => decide (∀ z ∈ x.trusts, z.1 = n → o = some z.2)
    | _ => true

theorem Idle.notRepointed {B : Nat} {t : ThreadId} {mv : Move K V m} (h : M.Idle B)
    (hs : notRepointed B M t mv = true) : NotRepointed M t mv := by
  simp only [Machine.notRepointed, Bool.and_eq_true, decide_eq_true_eq] at hs
  obtain ⟨⟨hmv, hre⟩, hnext⟩ := hs
  refine ⟨hmv, fun e op pred next he => ?_, fun n o k he u hu x hx y hy => ?_⟩
  · rw [he] at hre
    exact of_decide_eq_true hre
  · rw [he] at hnext
    have hall := h.others (p := fun x => decide (∀ z ∈ x.trusts, z.1 = n → o = some z.2)) rfl hnext u hu x hx
    exact of_decide_eq_true hall (n, y) hy rfl

/-- Thread `1` has compared the key `7` and reads the pointer again, after thread `0` has put the key `9`
behind that node. -/
theorem right_keys_removing : ∃ M : Machine Nat Nat 1, Reach 0 0 NotRepointed M ∧
    M.pc 1 = .found (.remove 0 7) true 0 (some 1) ∧ (M.shared.mem 1).next = some 2 ∧ M.RightKeys := by
  obtain ⟨M, hr, -, hp⟩ := exists_reach (G := NotRepointed) 0 0
    (turn 1 (some (.put 0 7 70)) 18 ++ turn 0 (some (.put 0 9 90)) 6 ++ turn 1 (some (.remove 0 7)) 6 ++
      turn 0 none 7 ++ turn 1 none 1)
    (fun M : Machine Nat Nat 1 => (M.pc 1).isFound (.remove 0 7) 0 1 &&
      decide ((M.shared.mem 1).next = some 2)) (B := 2)
    (fun _ _ _ hI hs => hI.notRepointed hs) (by decide +kernel)
  rw [Bool.and_eq_true, decide_eq_true_eq] at hp
  exact ⟨M, hr, Pc.isFound_iff.1 hp.1, hp.2, right_keys hr⟩

/-- Between the comparison of the key `7` and the second read of the head's `m_next` another thread puts
the key `5` in front of it. -/
theorem wrong_key_found : ¬ ∀ M : Machine Nat Nat 1, Reach 0 0 SingletonsOnly M → M.RightKeys := by
  intro h
  obtain ⟨M, hr, -, hp⟩ := exists_reach_of_decidable (G := SingletonsOnly) 0 0 2
    (turn 1 (some (.put 0 7 70)) 18 ++ turn 1 (some (.get 0 7)) 6 ++ turn 0 (some (.put 0 5 50)) 15 ++
      turn 1 none 1)
    (fun M : Machine Nat Nat 1 => (M.pc 1).isFound (.get 0 7) 0 2 && decide ((M.shared.mem 2).key = 5))
    (by decide +kernel)
  rw [Bool.and_eq_true, decide_eq_true_eq] at hp
  obtain ⟨y, hy, hkey⟩ := (h M hr).found 1 _ _ _ (Pc.isFound_iff.1 hp.1)
  obtain rfl := Option.some.inj hy
  rw [hp.2] at hkey
  simp [Access.key] at hkey

end Machine

end TxList
