import TxList.Proofs.Within

/-!
# Runs of single accesses by turns

A run in which the threads take turns of so many steps each, for the concrete interleavings.
-/

namespace TxList

variable {K V : Type} [LinearOrder K] {m : Nat}

/-- Thread `t` starts a call, if one is given, and takes `k` steps. -/
def turn (t : ThreadId) (op : Option (Access K V m)) (k : Nat) : List (ThreadId × Move K V m) :=
  (op.map fun op => (t, .access op)).toList ++ List.replicate k (t, .go { fuel := 9 })

namespace Machine

/-- Make the moves of threads below `B` in turn, as long as `g` allows them. -/
def play (g : Machine K V m → ThreadId → Move K V m → Bool) (B : Nat) :
    Machine K V m → List (ThreadId × Move K V m) → Option (Machine K V m)
  | M, [] => some M
  | M, (t, mv) :: moves =>
    if t < B && g M t mv then
      match M.next t mv with
      | some M' => play g B M' moves
      | none => none
    else none

/-- No thread from `B` on has done anything. -/
def Idle (B : Nat) (M : Machine K V m) : Prop := ∀ u, B ≤ u → M.pc u = .idle ∧ M.held u = ∅

variable {B : Nat} {G : Guard K V m} {g : Machine K V m → ThreadId → Move K V m → Bool}
  {minKey : K} {dflt : V}

theorem Idle.next {M M' : Machine K V m} {t : ThreadId} {mv : Move K V m} (h : M.Idle B) (ht : t < B)
    (hn : M.next t mv = some M') : M'.Idle B := by
  obtain ⟨⟨e, k⟩, -, rfl⟩ := Option.map_eq_some_iff.1 hn
  intro u hu
  have hne : u ≠ t := (ht.trans_le hu).ne'
  simp only [put, Function.update_of_ne hne]
  exact h u hu

theorem play_reach (hG : ∀ M t mv, Idle B M → g M t mv = true → G M t mv) :
    ∀ (moves : List (ThreadId × Move K V m)) {M M' : Machine K V m}, M.Idle B →
      Reach minKey dflt G M → play g B M moves = some M' → Reach minKey dflt G M' ∧ M'.Idle B
  | [], M, M', hI, hr, h => by
    obtain rfl : M = M' := by simpa [play] using h
    exact ⟨hr, hI⟩
  | (t, mv) :: moves, M, M', hI, hr, h => by
    simp only [play] at h
    split_ifs at h with hok
    rw [Bool.and_eq_true, decide_eq_true_eq] at hok
    rcases hn : M.next t mv with _ | M₁
    · simp [hn] at h
    · simp only [hn] at h
      exact play_reach hG moves (hI.next hok.1 hn) (.step hr (hG _ _ _ hI hok.2) hn) h

/-- A state that the moves get to and that passes a test. -/
theorem exists_reach (minKey : K) (dflt : V) (moves : List (ThreadId × Move K V m)) (p : Machine K V m → Bool)
    (hG : ∀ M t mv, Idle B M → g M t mv = true → G M t mv)
    (h : (play g B (init minKey dflt) moves).any p = true) :
    ∃ M, Reach minKey dflt G M ∧ M.Idle B ∧ p M = true := by
  rcases hM : play g B (init minKey dflt) moves with _ | M
  · simp [hM] at h
  have hp : p M = true := by simpa [hM] using h
  obtain ⟨hr, hI⟩ := play_reach hG moves (fun _ _ => ⟨rfl, rfl⟩) .init hM
  exact ⟨M, hr, hI, hp⟩

/-- The same under a decidable guard. -/
theorem exists_reach_of_decidable (minKey : K) (dflt : V) [∀ M t mv, Decidable (G M t mv)] (B : Nat)
    (moves : List (ThreadId × Move K V m)) (p : Machine K V m → Bool)
    (h : (play (fun M t mv => decide (G M t mv)) B (init minKey dflt) moves).any p = true) :
    ∃ M, Reach minKey dflt G M ∧ M.Idle B ∧ p M = true :=
  exists_reach minKey dflt moves p (fun _ _ _ _ hg => of_decide_eq_true hg) h

/-- The threads make calls outside of transactions only. -/
def SingletonsOnly : Guard K V m := fun _ _ mv =>
  match mv with
  | .newNode _ _ _ | .increment | .txEnd _ => False
  | .access _ | .go _ => True

instance (M : Machine K V m) (t : ThreadId) (mv : Move K V m) : Decidable (SingletonsOnly M t mv) :=
  match mv with
  | .newNode _ _ _ | .increment | .txEnd _ => isFalse id
  | .access _ | .go _ => isTrue trivial

end Machine

end TxList
