import Mathlib.Tactic.SplitIfs

/-!
# Where a program ends

`Ends x s Q E` says that the program `x`, run from state `s`, ends in a value and a state that `Q`
holds of, or in an exception and a state that `E` holds of. The rules run a program symbolically:
`Ends_bind` takes it apart, the others deal with its single steps.
-/

namespace Prog

variable {ε σ α β : Type}

/-- Run from `s`, `x` ends in `Q`, or with an exception in `E`. -/
def Ends (x : EStateM ε σ α) (s : σ) (Q : α → σ → Prop) (E : ε → σ → Prop) : Prop :=
  match x s with
  | .ok a s' => Q a s'
  | .error e s' => E e s'

theorem get_apply (s : σ) : (get : EStateM ε σ σ) s = .ok s s := rfl

theorem modify_apply (f : σ → σ) (s : σ) : (modify f : EStateM ε σ Unit) s = .ok () (f s) := rfl

variable {s : σ} {Q Q' : α → σ → Prop} {E E' : ε → σ → Prop}

@[simp] theorem Ends_pure (a : α) : Ends (pure a : EStateM ε σ α) s Q E ↔ Q a s := Iff.rfl

@[simp] theorem Ends_throw (e : ε) : Ends (throw e : EStateM ε σ α) s Q E ↔ E e s := Iff.rfl

@[simp] theorem Ends_bind (x : EStateM ε σ α) (f : α → EStateM ε σ β) {Q : β → σ → Prop} :
    Ends (x >>= f) s Q E ↔ Ends x s (fun a s' => Ends (f a) s' Q E) E := by
  simp only [Ends, bind, EStateM.bind]
  cases x s <;> rfl

@[simp] theorem Ends_map (x : EStateM ε σ α) (f : α → β) {Q : β → σ → Prop} :
    Ends (f <$> x) s Q E ↔ Ends x s (fun a s' => Q (f a) s') E := by
  simp only [Ends, Functor.map, EStateM.map]
  cases x s <;> rfl

@[simp] theorem Ends_get {Q : σ → σ → Prop} : Ends (get : EStateM ε σ σ) s Q E ↔ Q s s := Iff.rfl

@[simp] theorem Ends_set {Q : Unit → σ → Prop} (s' : σ) :
    Ends (set s' : EStateM ε σ Unit) s (fun _ => Q ()) E ↔ Q () s' := Iff.rfl

@[simp] theorem Ends_modify {Q : Unit → σ → Prop} (f : σ → σ) :
    Ends (modify f : EStateM ε σ Unit) s Q E ↔ Q () (f s) := Iff.rfl

theorem Ends_ite (p : Prop) [Decidable p] (x y : EStateM ε σ α) :
    Ends (if p then x else y) s Q E ↔ (p → Ends x s Q E) ∧ (¬ p → Ends y s Q E) := by
  split_ifs with h <;> simp [h]

variable {x : EStateM ε σ α}

theorem Ends.of_forall (hQ : ∀ a s', Q a s') (hE : ∀ e s', E e s') : Ends x s Q E := by
  unfold Ends
  split
  · exact hQ _ _
  · exact hE _ _

theorem Ends.mono (h : Ends x s Q E) (hQ : ∀ a s', Q a s' → Q' a s') (hE : ∀ e s', E e s' → E' e s') :
    Ends x s Q' E' := by
  simp only [Ends] at h ⊢
  split <;> rename_i hx
  · rw [hx] at h
    exact hQ _ _ h
  · rw [hx] at h
    exact hE _ _ h

theorem Ends.and (h : Ends x s Q E) (h' : Ends x s Q' E') :
    Ends x s (fun a s' => Q a s' ∧ Q' a s') (fun e s' => E e s' ∧ E' e s') := by
  simp only [Ends] at h h' ⊢
  split <;> rename_i hx <;> rw [hx] at h h' <;> exact ⟨h, h'⟩

/-- What a program ends in is its result. -/
theorem Ends.result : Ends x s (fun a s' => x s = .ok a s') fun e s' => x s = .error e s' := by
  unfold Ends
  split <;> assumption

theorem Ends.ok {a : α} {s' : σ} (h : Ends x s Q E) (hx : x s = .ok a s') : Q a s' := by
  simpa only [Ends, hx] using h

theorem Ends.error {e : ε} {s' : σ} (h : Ends x s Q E) (hx : x s = .error e s') : E e s' := by
  simpa only [Ends, hx] using h

/-- A program that can only end in one value, and in the state it was run from. -/
theorem Ends.eq_ok {a : α} (h : Ends x s (fun r s' => s' = s ∧ r = a) fun _ _ => False) :
    x s = .ok a s := by
  rcases hx : x s with ⟨r, s'⟩ | ⟨e, s'⟩
  · obtain ⟨rfl, rfl⟩ := h.ok hx
    rfl
  · exact (h.error hx).elim

end Prog
