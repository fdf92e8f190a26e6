import TxList.Lib.Ends

/-!
# More fuel

A program whose loops take fuel ends with an exception `d` when it runs out. `Below d x y` says that
`y` does what `x` does wherever `x` does not end with `d`, and `Fueled d x` that `x` with more fuel
is above `x` with less. Such a program settles: once it does not run out, no fuel on top of that
changes what it does.
-/

namespace Prog

variable {ε σ α β : Type} {d : ε} {s : σ}

def Below (d : ε) (x y : EStateM ε σ α) : Prop := ∀ s, y s = x s ∨ ∃ s', x s = .error d s'

namespace Below

variable {x y : EStateM ε σ α}

theorem refl (x : EStateM ε σ α) : Below d x x := fun _ => .inl rfl

theorem throw (y : EStateM ε σ α) : Below d (throw d) y := fun s => .inr ⟨s, rfl⟩

theorem bind {f g : α → EStateM ε σ β} (h : Below d x y) (hf : ∀ a, Below d (f a) (g a)) :
    Below d (x >>= f) (y >>= g) := by
  intro s
  simp only [Bind.bind, EStateM.bind]
  rcases h s with hs | ⟨s', hs⟩
  · rw [hs]
    cases x s with
    | ok a s' => exact hf a s'
    | error e s' => exact .inl rfl
  · rw [hs]
    exact .inr ⟨s', rfl⟩

theorem map (h : Below d x y) (f : α → β) : Below d (f <$> x) (f <$> y) := by
  simp only [map_eq_pure_bind]
  exact h.bind fun _ => .refl _

theorem ite {p : Prop} [Decidable p] {x' y' : EStateM ε σ α} (h : Below d x y) (h' : Below d x' y') :
    Below d (if p then x else x') (if p then y else y') := by
  split_ifs
  · exact h
  · exact h'

theorem ends {Q : α → σ → Prop} {E : ε → σ → Prop} (h : Below d x y) (hx : Ends x s Q E)
    (hd : ∀ s', ¬ E d s') : Ends y s Q E := by
  rcases h s with hs | ⟨s', hs⟩
  · simp only [Ends, hs]
    exact hx
  · exact (hd s' (hx.error hs)).elim

end Below

/-- More fuel changes nothing but a run that ran out. -/
def Fueled (d : ε) (x : Nat → EStateM ε σ α) : Prop := ∀ {n n' : Nat}, n ≤ n' → Below d (x n) (x n')

/-- With some fuel the program ends in `Q`, or with an exception in `E`. -/
def Settles (x : Nat → EStateM ε σ α) (s : σ) (Q : α → σ → Prop) (E : ε → σ → Prop) : Prop :=
  ∃ n, Ends (x n) s Q E

variable {x : Nat → EStateM ε σ α} {Q Q' : α → σ → Prop} {E E' : ε → σ → Prop}

theorem Settles.mono (h : Settles x s Q E) (hQ : ∀ a s', Q a s' → Q' a s')
    (hE : ∀ e s', E e s' → E' e s') : Settles x s Q' E' := by
  obtain ⟨n, hn⟩ := h
  exact ⟨n, hn.mono hQ hE⟩

/-- What comes first takes no fuel. -/
theorem Settles.after {y : EStateM ε σ α} {f : Nat → α → EStateM ε σ β} {Q : β → σ → Prop}
    (h : Ends y s (fun a s' => Settles (f · a) s' Q E) E) : Settles (fun n => y >>= f n) s Q E := by
  simp only [Settles, Ends_bind]
  rcases hr : y s with ⟨a, s'⟩ | ⟨e, s'⟩
  · obtain ⟨n, hn⟩ := h.ok hr
    exact ⟨n, by simpa only [Ends, hr] using hn⟩
  · exact ⟨0, by simpa only [Ends, hr] using h.error hr⟩

theorem Settles.bind {f : Nat → α → EStateM ε σ β} {Q : β → σ → Prop} (hx : Fueled d x)
    (hf : ∀ a, Fueled d (f · a)) (hd : ∀ s', ¬ E d s')
    (h : Settles x s (fun a s' => Settles (f · a) s' Q E) E) :
    Settles (fun n => x n >>= f n) s Q E := by
  obtain ⟨n, hn⟩ := h
  simp only [Settles, Ends_bind]
  rcases hr : x n s with ⟨a, s'⟩ | ⟨e, s'⟩
  · obtain ⟨k, hk⟩ := hn.ok hr
    refine ⟨max n k, ?_⟩
    have h₁ : Ends (x n) s (fun b t => b = a ∧ t = s') fun _ _ => False := by
      simp only [Ends, hr, and_self]
    refine ((hx (Nat.le_max_left n k)).ends h₁ fun _ => id).mono (fun b t ht => ?_) fun _ _ he => he.elim
    obtain ⟨rfl, rfl⟩ := ht
    exact (hf b (Nat.le_max_right n k)).ends hk hd
  · refine ⟨n, ?_⟩
    simp only [Ends, hr]
    exact hn.error hr

/-- A program that settles ends so with all fuel from some amount on. -/
theorem Settles.from (h : Settles x s Q E) (hx : Fueled d x) (hd : ∀ s', ¬ E d s') :
    ∃ N, ∀ n, N ≤ n → Ends (x n) s Q E := by
  obtain ⟨N, hN⟩ := h
  exact ⟨N, fun n hn => (hx hn).ends hN hd⟩

/-- With any fuel such a program ends so, or runs out. -/
theorem Settles.ends (h : Settles x s Q E) (hx : Fueled d x) (hd : ∀ s', ¬ E d s') (n : Nat) :
    Ends (x n) s Q fun e s' => E e s' ∨ e = d := by
  obtain ⟨N, hN⟩ := h.from hx hd
  rcases hx (Nat.le_max_left n N) s with hs | ⟨s', hs⟩
  · have hend := hN _ (Nat.le_max_right n N)
    simp only [Ends, hs] at hend
    exact Ends.mono hend (fun _ _ hq => hq) fun _ _ he => .inl he
  · simp only [Ends, hs, or_true]

/-- One turn of a loop takes one more. -/
theorem Settles.turn {y : Nat → EStateM ε σ α} (h : Settles x s Q E)
    (hy : ∀ n, Below d (x n) (y (n + 1))) (hd : ∀ s', ¬ E d s') : Settles y s Q E := by
  obtain ⟨n, hn⟩ := h
  exact ⟨n + 1, (hy n).ends hn hd⟩

end Prog
