import TxList.Lib.Ends

/-!
# Runs from two states

`Alike R x s s'` says that the program `x` ends alike from `s` and from `s'`: in the same value or
the same exception, and in states that `R` relates. A program is `Steady` for `R` when it does so
from all states that `R` relates. `EndsAlike` is what `Ends` is for one state, with conditions on the
value and on the two states it is left in.
-/

namespace Prog

variable {ε σ α β : Type} {R R' : σ → σ → Prop} {s s' : σ}

def Alike (R : σ → σ → Prop) (x : EStateM ε σ α) (s s' : σ) : Prop :=
  match x s, x s' with
  | .ok a t, .ok a' t' => a' = a ∧ R t t'
  | .error e t, .error e' t' => e' = e ∧ R t t'
  | _, _ => False

theorem Alike.refl {x : EStateM ε σ α} (h : ∀ t, R t t) : Alike R x s s := by
  simp only [Alike]
  cases x s with
  | ok a t => exact ⟨rfl, h t⟩
  | error e t => exact ⟨rfl, h t⟩

theorem Alike.mono {x : EStateM ε σ α} (h : Alike R x s s') (hR : ∀ t t', R t t' → R' t t') :
    Alike R' x s s' := by
  simp only [Alike] at h ⊢
  cases hx : x s <;> cases hx' : x s' <;> simp only [hx, hx'] at h ⊢
  · exact ⟨h.1, hR _ _ h.2⟩
  · exact ⟨h.1, hR _ _ h.2⟩

theorem Alike.bind {x : EStateM ε σ α} {f : α → EStateM ε σ β} (h : Alike R x s s')
    (hf : ∀ a t t', R t t' → Alike R (f a) t t') : Alike R (x >>= f) s s' := by
  simp only [Alike, Bind.bind, EStateM.bind] at h ⊢
  cases hx : x s <;> cases hx' : x s' <;> simp only [hx, hx'] at h ⊢
  · obtain ⟨rfl, h⟩ := h
    exact hf _ _ _ h
  · exact h

/-- From related states the program ends alike, in related states. -/
def Steady (R : σ → σ → Prop) (x : EStateM ε σ α) : Prop := ∀ s s', R s s' → Alike R x s s'

/-- The states a steady program keeps a property of. -/
theorem Steady.ends {x : EStateM ε σ α} (h : Steady R x) (hs : R s s) :
    Ends x s (fun _ t => R t t) fun _ t => R t t := by
  have h' := h s s hs
  simp only [Alike] at h'
  simp only [Ends]
  cases hx : x s with
  | ok a t =>
    rw [hx] at h'
    exact h'.2
  | error e t =>
    rw [hx] at h'
    exact h'.2

namespace Steady

theorem pure (a : α) : Steady R (Pure.pure a : EStateM ε σ α) := fun _ _ h => ⟨rfl, h⟩

theorem throw (e : ε) : Steady R (MonadExcept.throw e : EStateM ε σ α) := fun _ _ h => ⟨rfl, h⟩

theorem bind {x : EStateM ε σ α} {f : α → EStateM ε σ β} (hx : Steady R x)
    (hf : ∀ a, Steady R (f a)) : Steady R (x >>= f) := fun s s' h =>
  (hx s s' h).bind fun a t t' ht => hf a t t' ht

theorem map {x : EStateM ε σ α} (h : Steady R x) (f : α → β) : Steady R (f <$> x) := by
  rw [map_eq_pure_bind]
  exact h.bind fun _ => .pure _

theorem modify {g : σ → σ} (hg : ∀ s s', R s s' → R (g s) (g s')) :
    Steady R (modify g : EStateM ε σ PUnit) := fun s s' h => ⟨rfl, hg s s' h⟩

/-- What is done with the state read is the same for related states. -/
theorem get_bind {f : σ → EStateM ε σ α} (he : ∀ s s', R s s' → f s' = f s)
    (hf : ∀ s, Steady R (f s)) : Steady R (get >>= f) := by
  intro s s' h
  have h' : Alike R (f s) s s' := hf s s s' h
  simp only [Alike, Bind.bind, EStateM.bind, get_apply] at h' ⊢
  rw [he s s' h]
  exact h'

theorem ite {p : Prop} [Decidable p] {x y : EStateM ε σ α} (hx : Steady R x) (hy : Steady R y) :
    Steady R (if p then x else y) := by
  split_ifs
  · exact hx
  · exact hy

end Steady

/-! ## Conditions on where the two runs end -/

/-- Run from `s` and from `s'`, `x` ends in one value, in `Q`, or with one exception, in `E`. -/
def EndsAlike (x : EStateM ε σ α) (s s' : σ) (Q : α → σ → σ → Prop) (E : ε → σ → σ → Prop) : Prop :=
  match x s, x s' with
  | .ok a t, .ok a' t' => a' = a ∧ Q a t t'
  | .error e t, .error e' t' => e' = e ∧ E e t t'
  | _, _ => False

namespace EndsAlike

variable {Q Q' : α → σ → σ → Prop} {E E' : ε → σ → σ → Prop} {x : EStateM ε σ α}

theorem pure {a : α} (h : Q a s s') : EndsAlike (Pure.pure a : EStateM ε σ α) s s' Q E := ⟨rfl, h⟩

theorem throw {e : ε} (h : E e s s') : EndsAlike (MonadExcept.throw e : EStateM ε σ α) s s' Q E :=
  ⟨rfl, h⟩

theorem mono (h : EndsAlike x s s' Q E) (hQ : ∀ a t t', Q a t t' → Q' a t t')
    (hE : ∀ e t t', E e t t' → E' e t t') : EndsAlike x s s' Q' E' := by
  simp only [EndsAlike] at h ⊢
  cases hx : x s <;> cases hx' : x s' <;> simp only [hx, hx'] at h ⊢
  · exact ⟨h.1, hQ _ _ _ h.2⟩
  · exact ⟨h.1, hE _ _ _ h.2⟩

theorem bind {f : α → EStateM ε σ β} {P : β → σ → σ → Prop}
    (h : EndsAlike x s s' (fun a t t' => EndsAlike (f a) t t' P E) E) : EndsAlike (x >>= f) s s' P E := by
  simp only [EndsAlike, Bind.bind, EStateM.bind] at h ⊢
  cases hx : x s <;> cases hx' : x s' <;> simp only [hx, hx'] at h ⊢
  · obtain ⟨rfl, h⟩ := h
    exact h
  · exact h

theorem map {f : α → β} {P : β → σ → σ → Prop} (h : EndsAlike x s s' (fun a t t' => P (f a) t t') E) :
    EndsAlike (f <$> x) s s' P E := by
  rw [map_eq_pure_bind]
  exact bind (h.mono (fun _ _ _ ht => .pure ht) fun _ _ _ => id)

/-- What is done with the state read is the same in both. -/
theorem get_bind {f : σ → EStateM ε σ α} (hf : f s' = f s) (h : EndsAlike (f s) s s' Q E) :
    EndsAlike (get >>= f) s s' Q E := by
  simp only [EndsAlike, Bind.bind, EStateM.bind, get_apply] at h ⊢
  rwa [hf]

theorem modify {g : σ → σ} {P : Unit → σ → σ → Prop} (h : P () (g s) (g s')) :
    EndsAlike (modify g : EStateM ε σ Unit) s s' P E := ⟨rfl, h⟩

theorem ite {p : Prop} [Decidable p] {y : EStateM ε σ α} (hx : p → EndsAlike x s s' Q E)
    (hy : ¬ p → EndsAlike y s s' Q E) : EndsAlike (if p then x else y) s s' Q E := by
  split_ifs with hp
  · exact hx hp
  · exact hy hp

/-- Both runs from one state. -/
theorem ends (h : EndsAlike x s s Q E) : Ends x s (fun a t => Q a t t) fun e t => E e t t := by
  simp only [EndsAlike] at h
  simp only [Ends]
  cases hx : x s with
  | ok a t =>
    rw [hx] at h
    exact h.2
  | error e t =>
    rw [hx] at h
    exact h.2

end EndsAlike

end Prog
