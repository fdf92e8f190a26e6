import TxList.Script
import TxList.Proofs.Reach

/-!
# Scripts are runs

A script that plays to its end is a run whose steps meet the guard it was checked against; the
threads that take no part in it are as they were.
-/

namespace TxList

variable {K V : Type} [LinearOrder K] {m : Nat} {C C' : Conf K V m} {t : ThreadId} {op : Op K V m}
  {ret : Ret V} {B : Nat} {G : Conf.Guard K V m} {g : Conf K V m → ThreadId → Op K V m → Bool}

omit [LinearOrder K] in
theorem of_thrown {α : Type} {e : Err} {r : EStateM.Result Err (Ctx K V m) α} (h : thrown r = some e) :
    ∃ c, r = .error e c := by
  rcases r with ⟨a, c⟩ | ⟨e', c⟩
  · simp [thrown] at h
  · obtain rfl : e' = e := by simpa [thrown] using h
    exact ⟨c, rfl⟩

theorem Conf.play_step (h : C.play t op = some (C', ret)) : C.Step t op ret C' := by
  simp only [Conf.play] at h
  split_ifs at h with ho
  rcases hs : C.sys.step t op (C.choice t) with _ | ⟨σ, r⟩
  · simp [hs] at h
  · simp only [hs, Option.some.injEq, Prod.mk.injEq] at h
    obtain ⟨rfl, rfl⟩ := h
    exact ⟨C.choice t, fun _ => ho, hs, rfl⟩

theorem Conf.Step.threads_ne {u : ThreadId} (h : C.Step t op ret C') (hu : u ≠ t) :
    C'.sys.threads u = C.sys.threads u := by
  obtain ⟨ch, -, hs, -⟩ := h
  simp only [Sys.step] at hs
  rcases hc : call ch op (C.sys.ctx t) with ⟨r, c⟩ | ⟨e, c⟩
  · simp only [hc, Option.some.injEq, Prod.mk.injEq] at hs
    rw [← hs.1, Sys.put_threads_ne _ _ hu]
  · rcases e with _ | _ | _ | _ <;> simp only [hc] at hs
    · simp only [Option.some.injEq, Prod.mk.injEq] at hs
      rw [← hs.1, Sys.put_threads_ne _ _ hu]
    all_goals simp at hs

theorem Conf.Idle.step (h : C.Idle B) (ht : t < B) (hst : C.Step t op ret C') : C'.Idle B := by
  intro u hu
  have hne : u ≠ t := (ht.trans_le hu).ne'
  obtain ⟨ch, -, -, hhist⟩ := id hst
  rw [hst.threads_ne hne, hhist, Hist.step_current_ne _ hne]
  exact h u hu

omit [LinearOrder K] in
theorem Conf.Idle.closed_of_alone (h : C.Idle B) (ha : C.alone B t = true) {u : ThreadId}
    (hu : u ≠ t) : C.inTX u = false := by
  by_cases hB : u < B
  · have := List.all_eq_true.1 ha u (List.mem_range.2 hB)
    simpa [hu] using this
  · rw [Conf.inTX, (h u (Nat.le_of_not_lt hB)).1]

theorem Conf.script_run (hG : ∀ C t op, Conf.Idle B C → g C t op = true → G C t op) :
    ∀ (moves : List (ThreadId × Op K V m)) {C C' : Conf K V m}, C.Idle B →
      C.script g B moves = some C' → C.Run G C' ∧ C'.Idle B
  | [], C, C', hI, h => by
    obtain rfl : C = C' := by simpa [Conf.script] using h
    exact ⟨.refl, hI⟩
  | (t, op) :: moves, C, C', hI, h => by
    simp only [Conf.script] at h
    split_ifs at h with hok
    rw [Bool.and_eq_true, decide_eq_true_eq] at hok
    rcases hp : C.play t op with _ | ⟨C₁, ret⟩
    · simp [hp] at h
    · simp only [hp] at h
      have hst := Conf.play_step hp
      obtain ⟨hr, hI'⟩ := Conf.script_run hG moves (hI.step hok.1 hst) h
      exact ⟨(Conf.Run.step .refl (hG _ _ _ hI hok.2) hst).trans hr, hI'⟩

omit [LinearOrder K] in
theorem Conf.idle_init (minKey : K) (dflt : V) (B : Nat) :
    (Conf.init minKey dflt : Conf K V m).Idle B := fun _ _ => ⟨rfl, rfl⟩

/-- A state that a script gets to and that passes a test. -/
theorem Conf.exists_run (hI : C.Idle B) (moves : List (ThreadId × Op K V m)) (p : Conf K V m → Bool)
    (hG : ∀ C t op, Conf.Idle B C → g C t op = true → G C t op)
    (h : (C.script g B moves).any p = true) : ∃ C', C.Run G C' ∧ C'.Idle B ∧ p C' = true := by
  rcases hC : C.script g B moves with _ | C'
  · simp [hC] at h
  have hp : p C' = true := by simpa [hC] using h
  obtain ⟨hr, hI'⟩ := Conf.script_run hG moves hI hC
  exact ⟨C', hr, hI', hp⟩

theorem Conf.exists_reach (minKey : K) (dflt : V) (moves : List (ThreadId × Op K V m))
    (p : Conf K V m → Bool) (hG : ∀ C t op, Conf.Idle B C → g C t op = true → G C t op)
    (h : ((Conf.init minKey dflt).script g B moves).any p = true) :
    ∃ C, Conf.Reach minKey dflt G C ∧ C.Idle B ∧ p C = true :=
  Conf.exists_run (Conf.idle_init minKey dflt B) moves p hG h

/-- A state that a script with a decidable guard reaches and that passes a test. -/
theorem Conf.exists_reach_of_decidable (minKey : K) (dflt : V) [∀ C t op, Decidable (G C t op)]
    (B : Nat) (moves : List (ThreadId × Op K V m)) (p : Conf K V m → Bool)
    (h : ((Conf.init minKey dflt).script (fun C t op => decide (G C t op)) B moves).any p = true) :
    ∃ C, Conf.Reach minKey dflt G C ∧ C.Idle B ∧ p C = true :=
  Conf.exists_reach minKey dflt moves p (fun _ _ _ _ hg => of_decide_eq_true hg) h

/-- The same for what a script reaches from there. -/
theorem Conf.exists_run_of_decidable [∀ C t op, Decidable (G C t op)] (hI : C.Idle B)
    (moves : List (ThreadId × Op K V m)) (p : Conf K V m → Bool)
    (h : (C.script (fun C t op => decide (G C t op)) B moves).any p = true) :
    ∃ C', C.Run G C' ∧ C'.Idle B ∧ p C' = true :=
  Conf.exists_run hI moves p (fun _ _ _ _ hg => of_decide_eq_true hg) h

/-- A call with its result, and a test of what it leaves. -/
def Conf.after [DecidableEq V] (C : Conf K V m) (t : ThreadId) (op : Op K V m) (ret : Ret V)
    (p : Conf K V m → Bool) : Bool :=
  (C.play t op).any fun x => decide (x.2 = ret) && p x.1

theorem Conf.step_of_after [DecidableEq V] {p : Conf K V m → Bool} (h : C.after t op ret p = true) :
    ∃ C', C.Step t op ret C' ∧ p C' = true := by
  simp only [Conf.after] at h
  rcases hp : C.play t op with _ | ⟨C', ret'⟩
  · simp [hp] at h
  · obtain ⟨rfl, hC'⟩ : ret' = ret ∧ p C' = true := by simpa [hp] using h
    exact ⟨C', Conf.play_step hp, hC'⟩

theorem Conf.exists_step [DecidableEq V] {p : Conf K V m → Bool} (hI : C.Idle B) (ht : t < B)
    (h : C.after t op ret p = true) : ∃ C', C.Step t op ret C' ∧ C'.Idle B ∧ p C' = true := by
  obtain ⟨C', hst, hC'⟩ := Conf.step_of_after h
  exact ⟨C', hst, hI.step ht hst, hC'⟩

theorem Conf.step_of_returns [DecidableEq V] (h : C.returns t op ret = true) :
    ∃ C', C.Step t op ret C' := by
  simp only [Conf.returns] at h
  rcases hp : C.play t op with _ | ⟨C', ret'⟩
  · simp [hp] at h
  · obtain rfl : ret' = ret := by simpa [hp] using h
    exact ⟨C', Conf.play_step hp⟩

instance (C : Conf K V m) (t : ThreadId) (op : Op K V m) : Decidable (Conf.anyStep C t op) :=
  isTrue trivial

theorem LocalStorage.isEmpty_iff (s : LocalStorage V m) : s.IsEmpty ↔ s.writeSet.keys = [] ∧
    s.readSet = ∅ ∧ (∀ l, s.indexAdd l = []) ∧ ∀ l, s.indexRemove l = [] := by
  refine and_congr_left fun _ => ⟨fun h => by rw [h]; rfl, fun h => AList.ext ?_⟩
  simpa [AList.keys, List.keys] using h

instance (s : LocalStorage V m) : Decidable s.IsEmpty :=
  decidable_of_iff _ s.isEmpty_iff.symm

/-- A thread that is alone, and starts transactions with nothing left over, is safe. -/
def Conf.safeAlone [DecidableEq V] (B : Nat) (C : Conf K V m) (t : ThreadId) (op : Op K V m) : Bool :=
  C.alone B t && (decide (op ≠ .txBegin) || decide (C.sys.threads t).storage.IsEmpty)

theorem Safe.of_safeAlone [DecidableEq V] (hI : C.Idle B) (h : C.safeAlone B t op = true) :
    Safe C t op := by
  simp only [Conf.safeAlone, Bool.and_eq_true, Bool.or_eq_true, decide_eq_true_eq] at h
  have hclosed : ∀ {u}, u ≠ t → C.inTX u = true → False := fun hu hT => by
    rw [hI.closed_of_alone h.1 hu] at hT
    simp at hT
  refine ⟨fun hop => h.2.resolve_left fun hne => hne hop, fun l key val _ hT _ u hl => ?_,
    fun _ _ n _ _ _ _ u hu hT => (hclosed hu hT).elim⟩
  by_cases hu : u = t
  · subst hu
    have hl : C.inTX u = true := hl.1
    rw [hT] at hl
    simp at hl
  · exact (hclosed hu hl.1).elim

instance [DecidableEq V] (C : Conf K V m) (t : ThreadId) (op : Op K V m) :
    Decidable (TxClient C t op) :=
  match op with
  | .txBegin => inferInstanceAs (Decidable (_ ∧ C.inTX t = false))
  | .put _ _ _ | .remove _ _ | .get _ _ | .containsKey _ _ =>
    inferInstanceAs (Decidable (_ ∧ C.inTX t = true))
  | .txEnd | .handleAbort => inferInstanceAs (Decidable (_ ∧ True))

instance (C : Conf K V m) (t : ThreadId) (op : Op K V m) : Decidable (SingletonClient C t op) :=
  match op with
  | .put _ _ _ | .remove _ _ | .get _ _ | .containsKey _ _ =>
    inferInstanceAs (Decidable (C.inTX t = false))
  | .txBegin | .txEnd | .handleAbort => inferInstanceAs (Decidable False)

end TxList
