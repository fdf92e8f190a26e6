import Mathlib.Data.List.Basic

/-!
# Operations replayed on a sequential object

A sequential object answers an operation in a state and moves to another state (`run`). A record of
operations and their answers `Plays` from one state to another when the object, run on the operations
in turn, gives these answers and ends there.
-/

section Plays

variable {O A S T : Type*} {run : O → S → A × S}

/-- Run on the operations in turn from the first state, the object gives their answers and ends in the
second. -/
def Plays (run : O → S → A × S) : List (O × A) → S → S → Prop
  | [], s, s' => s' = s
  | r :: rs, s, s' => (run r.1 s).1 = r.2 ∧ Plays run rs (run r.1 s).2 s'

namespace Plays

instance decidable [DecidableEq A] [DecidableEq S] : ∀ (rs : List (O × A)) (s s' : S),
    Decidable (Plays run rs s s')
  | [], s, s' => inferInstanceAs (Decidable (s' = s))
  | r :: rs, s, s' =>
    haveI := decidable rs (run r.1 s).2 s'
    inferInstanceAs (Decidable (_ ∧ _))

theorem append_iff : ∀ {rs rs' : List (O × A)} {s s' : S},
    Plays run (rs ++ rs') s s' ↔ ∃ u, Plays run rs s u ∧ Plays run rs' u s'
  | [], rs', s, s' => ⟨fun h => ⟨s, rfl, h⟩, fun ⟨u, hu, h⟩ => by rwa [show u = s from hu] at h⟩
  | r :: rs, rs', s, s' => by
    simp only [List.cons_append, Plays, append_iff]
    constructor
    · rintro ⟨h, u, hu, hu'⟩
      exact ⟨u, ⟨h, hu⟩, hu'⟩
    · rintro ⟨u, ⟨h, hu⟩, hu'⟩
      exact ⟨h, u, hu, hu'⟩

/-- One more operation. -/
theorem concat {rs : List (O × A)} {s u : S} (h : Plays run rs s u) (o : O) :
    Plays run (rs ++ [(o, (run o u).1)]) s (run o u).2 :=
  append_iff.2 ⟨u, h, rfl, rfl⟩

/-- Where one object follows another in what a record does, it plays the record too. -/
theorem map (run' : O → T → A × T) (φ : S → T) :
    ∀ {rs : List (O × A)} {s s' : S}, Plays run rs s s' →
      (∀ (rs₁ : List (O × A)) (r : O × A) (rs₂ : List (O × A)) (u : S), rs = rs₁ ++ r :: rs₂ →
        Plays run rs₁ s u → run' r.1 (φ u) = ((run r.1 u).1, φ (run r.1 u).2)) →
      Plays run' rs (φ s) (φ s')
  | [], _, _, h, _ => congrArg φ h
  | r :: rs, s, s', h, hφ => by
    have hr := hφ [] r rs s rfl rfl
    refine ⟨?_, ?_⟩
    · rw [hr]
      exact h.1
    · rw [hr]
      exact map run' φ h.2 fun rs₁ r' rs₂ u he hu => hφ (r :: rs₁) r' rs₂ u (by rw [he]; rfl) ⟨h.1, hu⟩

end Plays

/-- The relations of the elements of a list, one after another. -/
def Follows {B : Type*} (R : B → S → S → Prop) : List B → S → S → Prop
  | [], s, s' => s' = s
  | b :: bs, s, s' => ∃ u, R b s u ∧ Follows R bs u s'

theorem Follows.concat {B : Type*} {R : B → S → S → Prop} {b : B} {u s' : S} (hb : R b u s') :
    ∀ {bs : List B} {s : S}, Follows R bs s u → Follows R (bs ++ [b]) s s'
  | [], _, h => ⟨s', h ▸ hb, rfl⟩
  | _ :: _, _, ⟨w, hw, h⟩ => ⟨w, hw, concat hb h⟩

end Plays

/-!
A first-in first-out queue as a sequential object.
-/

namespace Fifo

variable {V : Type*}

inductive Op (V : Type*) where
  | enqueue (val : V)
  | dequeue
  | isEmpty
  deriving DecidableEq

/-- What an operation answers: `empty` is the exception of a `dequeue` from an empty queue. -/
inductive Ans (V : Type*) where
  | done
  | val (val : V)
  | empty
  | bool (b : Bool)
  deriving DecidableEq

def Op.isDequeue : Op V → Bool
  | .dequeue => true
  | .enqueue _ | .isEmpty => false

def run : Op V → List V → Ans V × List V
  | .enqueue v, L => (.done, L ++ [v])
  | .dequeue, [] => (.empty, [])
  | .dequeue, v :: L => (.val v, L)
  | .isEmpty, L => (.bool L.isEmpty, L)

/-- What is in the queue after the operations. -/
def after : List (Op V) → List V → List V
  | [], L => L
  | op :: ops, L => after ops (run op L).2

end Fifo
