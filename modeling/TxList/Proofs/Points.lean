import TxList.Proofs.Turns

/-!
# The points a program goes on from

What a thread knows about the shared memory it knows at the points of its program that have a `Pc` of
their own. The steps in between read and write words and values only, so what is known at the points
ahead stays known until they are reached, as long as no other thread writes a pointer it rests on.
-/

namespace TxList

variable {K V : Type} {m : Nat}

/-- The points that come next. -/
def Pc.points : Pc K V m → List (Pc K V m)
  | .test _ _ yes no | .tryLock _ yes no | .tryLockCas _ _ yes no => yes.points ++ no.points
  | .unlock _ k | .unlockCas _ _ k | .set _ _ k | .store _ _ k | .setVal _ _ k | .increment k
  | .indexAdd _ _ k | .indexRemove _ _ k | .retire _ k => k.points
  | k => [k]

/-- `P` holds at the points that come next. -/
def Pc.Ahead (P : Pc K V m → Prop) (k : Pc K V m) : Prop := ∀ x ∈ k.points, P x

namespace Pc.Ahead

variable {P : Pc K V m → Prop} {k k' : Pc K V m}

theorem here (h : P k) (hk : k.points = [k]) : k.Ahead P := by
  intro x hx
  rw [hk] at hx
  rwa [List.mem_singleton.1 hx]

theorem ite {c : Prop} [Decidable c] (h : c → k.Ahead P) (h' : ¬ c → k'.Ahead P) :
    (if c then k else k').Ahead P := by
  split_ifs with hc
  · exact h hc
  · exact h' hc

theorem tryLock {n : NodeId} (h : k.Ahead P) (h' : k'.Ahead P) : (Pc.tryLock n k k').Ahead P := by
  intro x hx
  rcases List.mem_append.1 hx with hx | hx
  · exact h x hx
  · exact h' x hx

theorem test {n : NodeId} {p : Test} (h : k.Ahead P) (h' : k'.Ahead P) :
    (Pc.test n p k k').Ahead P := by
  intro x hx
  rcases List.mem_append.1 hx with hx | hx
  · exact h x hx
  · exact h' x hx

end Pc.Ahead

/-- The next step is one in between. -/
def Pc.between : Pc K V m → Bool
  | .test _ _ _ _ | .tryLock _ _ _ | .tryLockCas _ _ _ _ | .unlock _ _ | .unlockCas _ _ _ | .set _ _ _
  | .store _ _ _ | .setVal _ _ _ | .increment _ | .indexAdd _ _ _ | .indexRemove _ _ _
  | .retire _ _ => true
  | _ => false

/-- The effect writes no pointer. -/
def Effect.calm : Effect K V m → Bool
  | .next _ _ => false
  | _ => true

namespace Pc

variable {f : Nat} {k : Pc K V m} {s : Shared K V m} {d : Draw}

theorem points_of_not_between (h : k.between = false) : k.points = [k] := by
  cases k with
  | test | tryLock | tryLockCas | unlock | unlockCas | set | store | setVal | increment | indexAdd
  | indexRemove | retire => simp [between] at h
  | _ => rfl

theorem Within.points (h : k.Within f) : ∀ x ∈ k.points, x.Within f := by
  induction k with
  | test n p yes no ihy ihn | tryLock n yes no ihy ihn | tryLockCas n l yes no ihy ihn =>
    intro x hx
    rcases List.mem_append.1 hx with hx | hx
    · exact ihy h.2.1 x hx
    · exact ihn h.2.2 x hx
  | unlock n k ih | unlockCas n l k ih | set n p k ih | store n w k ih | setVal n o k ih
  | indexAdd l n k ih | indexRemove l n k ih | retire n k ih => exact ih h.2
  | increment k ih => exact ih h
  | _ =>
    intro x hx
    obtain rfl := List.mem_singleton.1 hx
    exact h

theorem step_between [LinearOrder K] (hk : k.between = true) : ∀ e k', k.step s d = some (e, k') →
    e.calm = true ∧ ∀ x ∈ k'.points, x ∈ k.points ∨ ∃ w, w ≠ .nullDereference ∧ x = .stopped w := by
  have hstop : ∀ {w : Fault}, w ≠ .nullDereference → ∀ x ∈ (Pc.stopped w : Pc K V m).points,
      ∃ w, w ≠ .nullDereference ∧ x = .stopped w :=
    fun hw x hx => ⟨_, hw, List.mem_singleton.1 hx⟩
  cases k with
  | test n p yes no =>
    refine after ⟨rfl, fun x hx => .inl (List.mem_append.2 ?_)⟩
    dsimp only at hx
    split_ifs at hx
    · exact .inl hx
    · exact .inr hx
  | tryLock n yes no =>
    refine after ⟨rfl, fun x hx => .inl (List.mem_append.2 ?_)⟩
    dsimp only at hx
    split_ifs at hx
    · exact .inr hx
    · exact List.mem_append.1 hx
  | tryLockCas n l yes no =>
    simp only [Pc.step]
    split_ifs
    · exact after ⟨rfl, fun x hx => .inl (List.mem_append.2 (.inl hx))⟩
    · exact after ⟨rfl, fun x hx => .inl (List.mem_append.2 (.inr hx))⟩
  | unlock n k =>
    refine after ⟨rfl, fun x hx => ?_⟩
    dsimp only at hx
    split_ifs at hx
    · exact .inl hx
    · exact .inr (hstop (by simp) x hx)
  | unlockCas n l k =>
    simp only [Pc.step]
    split_ifs
    · exact after ⟨rfl, fun x hx => .inl hx⟩
    · exact after ⟨rfl, fun x hx => .inr (hstop (by simp) x hx)⟩
  | set n p k =>
    refine after ⟨rfl, fun x hx => ?_⟩
    dsimp only at hx
    split_ifs at hx
    · exact .inr (hstop (by simp) x hx)
    · exact .inl hx
  | store n w k | setVal n o k | retire n k | increment k => exact after ⟨rfl, fun x hx => .inl hx⟩
  | indexAdd l n k | indexRemove l n k =>
    simp only [Pc.step, Option.map_eq_some_iff, Prod.mk.injEq]
    rintro e k' ⟨ix, -, rfl, rfl⟩
    exact ⟨rfl, fun x hx => .inl hx⟩
  | _ => simp [between] at hk

end Pc

namespace Machine

variable [LinearOrder K] {minKey : K} {dflt : V} {G : Guard K V m} {M : Machine K V m}
  {L : Shared K V m → Pc K V m → Prop}

/-- What holds at a point in the shared memory as it is, if the threads keep it: it holds where a call
starts and where one stops at an assertion, no step but the write of a pointer makes it fail, the guard
lets no other thread write a pointer it rests on, and a thread at the point goes on to points that it
holds at. Beside it every step keeps `I` of the shared memory. -/
structure Kept (G : Guard K V m) (I : Shared K V m → Prop) (L : Shared K V m → Pc K V m → Prop) :
    Prop where
  access : ∀ {M t mv}, G M t mv → SingletonsOnly M t mv
  idle : ∀ s, L s .idle
  start : ∀ s op, L s (.start op)
  stopped : ∀ s w, w ≠ .nullDereference → L s (.stopped w)
  calm : ∀ {s : Shared K V m} {e : Effect K V m} {k : Pc K V m}, s.Closed → e.calm = true →
    k.Within s.fresh → L s k → L (e.apply s) k
  other : ∀ {M t d n o k u x}, M.Within → G M t (.go d) → (M.pc t).step M.shared d = some (.next n o, k) →
    u ≠ t → x ∈ (M.pc u).points → x.Within M.shared.fresh → L M.shared x →
    L ((Effect.next n o).apply M.shared) x
  point : ∀ {M t d e k}, M.Within → I M.shared → G M t (.go d) → (M.pc t).between = false →
    L M.shared (M.pc t) → (M.pc t).step M.shared d = some (e, k) → k.Ahead (L (e.apply M.shared))
  mem : ∀ {M : Machine K V m} {t d e k}, M.Within → I M.shared →
    ((M.pc t).between = false → L M.shared (M.pc t)) → (M.pc t).step M.shared d = some (e, k) →
    I (e.apply M.shared)

theorem Kept.reach {I : Shared K V m → Prop} (h : Kept G I L) (h0 : I (init minKey dflt).shared)
    (hr : Reach minKey dflt G M) : I M.shared ∧ ∀ t, (M.pc t).Ahead (L M.shared) := by
  refine hr.keeps (J := fun M => I M.shared ∧ ∀ t, (M.pc t).Ahead (L M.shared)) ⟨h0, ?_⟩ ?_
  · intro t x hx
    obtain rfl := List.mem_singleton.1 hx
    exact h.idle _
  rintro M t mv e k hr hg he ⟨hI, hL⟩
  have hw := hr.within
  obtain ⟨op, rfl, -, rfl, rfl⟩ | ⟨key, val, next, rfl, -⟩ | ⟨rfl, -⟩ | ⟨job, rfl, -⟩ | ⟨d, rfl, hs⟩ :=
    effect_cases he
  · refine ⟨hI, fun u x hx => ?_⟩
    by_cases hu : u = t
    · subst hu
      simp only [put, Function.update_self] at hx
      obtain rfl := List.mem_singleton.1 hx
      exact h.start _ op
    · simp only [put, Function.update_of_ne hu] at hx
      exact hL u x hx
  · exact (h.access hg).elim
  · exact (h.access hg).elim
  · exact (h.access hg).elim
  · have hhere : (M.pc t).between = false → L M.shared (M.pc t) := fun hb =>
      hL t _ (by rw [Pc.points_of_not_between hb]; exact List.mem_singleton_self _)
    refine ⟨h.mem hw hI hhere hs, fun u x hx => ?_⟩
    by_cases hu : u = t
    · subst hu
      simp only [put, Function.update_self] at hx ⊢
      rcases hb : (M.pc u).between with _ | _
      · exact h.point hw hI hg hb (hhere hb) hs x hx
      · obtain ⟨hcalm, hpts⟩ := Pc.step_between hb e k hs
        rcases hpts x hx with hx | ⟨w, hw', rfl⟩
        · exact h.calm hw.closed hcalm ((hw.pc u).points x hx) (hL u x hx)
        · exact h.stopped _ w hw'
    · simp only [put, Function.update_of_ne hu] at hx ⊢
      have hxw := (hw.pc u).points x hx
      rcases hc : e.calm with _ | _
      · cases e with
        | next n o => exact h.other hw hg hs hu hx hxw (hL u x hx)
        | _ => simp [Effect.calm] at hc
      · exact h.calm hw.closed hc hxw (hL u x hx)

/-- The points that come next of the other threads, as far as the threads below `B` go. -/
def others (B : Nat) (M : Machine K V m) (t : ThreadId) (p : Pc K V m → Bool) : Bool :=
  (List.range B).all fun u => u == t || (M.pc u).points.all p

omit [LinearOrder K] in
theorem Idle.others {B : Nat} {t : ThreadId} {p : Pc K V m → Bool} (h : M.Idle B) (hidle : p .idle = true)
    (hp : others B M t p = true) : ∀ u, u ≠ t → ∀ x ∈ (M.pc u).points, p x = true := by
  intro u hu x hx
  by_cases hB : u < B
  · have hall := List.all_eq_true.1 hp u (List.mem_range.2 hB)
    rw [Bool.or_eq_true, beq_iff_eq] at hall
    exact List.all_eq_true.1 (hall.resolve_left hu) x hx
  · rw [(h u (Nat.le_of_not_lt hB)).1] at hx
    rw [List.mem_singleton.1 hx]
    exact hidle

end Machine

end TxList
