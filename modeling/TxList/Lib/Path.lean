import Mathlib.Data.List.Basic
import Mathlib.Data.List.Nodup
import Mathlib.Data.List.Pairwise
import Mathlib.Data.List.TakeWhile

/-!
# Paths by a `next` pointer

A list of nodes each of which leads to the one after it, and the last of which leads nowhere.
-/

namespace Chain

variable {N : Type*} {next next' : N → Option N}

/-- `next` leads from each node of the list to the one after it, and from the last nowhere. -/
def Path (next : N → Option N) : List N → Prop
  | [] => True
  | a :: l => next a = l.head? ∧ Path next l

namespace Path

theorem congr : ∀ {l : List N}, (∀ x ∈ l, next' x = next x) → Path next l → Path next' l
  | [], _, _ => trivial
  | a :: l, h, hp => by
    refine ⟨?_, congr (fun x hx => h x (List.mem_cons_of_mem _ hx)) hp.2⟩
    rw [h a List.mem_cons_self]
    exact hp.1

theorem of_append : ∀ {A l : List N}, Path next (A ++ l) → Path next l
  | [], _, hp => hp
  | _ :: A, _, hp => of_append (A := A) hp.2

/-- Change a path from some node on. -/
theorem replace {q : N} {B B' : List N} : ∀ {A : List N}, Path next (A ++ q :: B) →
    (∀ x ∈ A, next' x = next x) → Path next' (q :: B') → Path next' (A ++ q :: B')
  | [], _, _, hq => hq
  | [a], hp, h, hq => by
    refine ⟨?_, hq⟩
    rw [h a (by simp)]
    exact hp.1
  | a :: b :: A, hp, h, hq => by
    refine ⟨?_, replace (A := b :: A) hp.2 (fun x hx => h x (List.mem_cons_of_mem _ hx)) hq⟩
    rw [h a (by simp)]
    exact hp.1

/-- Link a new node `x` into a path. -/
theorem insert {p x : N} {A B : List N} (hp : Path next (A ++ p :: B)) (hpx : next' p = some x)
    (hx : next' x = next p) (hA : ∀ y ∈ A, next' y = next y) (hB : ∀ y ∈ B, next' y = next y) :
    Path next' (A ++ p :: x :: B) := by
  have hpB := hp.of_append
  exact hp.replace hA ⟨hpx, hx.trans hpB.1, hpB.2.congr hB⟩

/-- What a node of a path leads to is on the path. -/
theorem next_mem : ∀ {l : List N}, Path next l → ∀ {a b : N}, a ∈ l → next a = some b → b ∈ l
  | c :: l, hp, a, b, ha, hb => by
    rcases List.mem_cons.1 ha with rfl | ha
    · rw [hp.1] at hb
      exact List.mem_cons_of_mem _ (List.mem_of_mem_head? hb)
    · exact List.mem_cons_of_mem _ (next_mem hp.2 ha hb)

theorem next_getLast {B : List N} : ∀ {A : List N} (hA : A ≠ []), Path next (A ++ B) →
    next (A.getLast hA) = B.head?
  | [_], _, hp => hp.1
  | _ :: b :: A, _, hp => by
    rw [List.getLast_cons (List.cons_ne_nil b A)]
    exact next_getLast (A := b :: A) _ hp.2

/-- Two pointers with one path agree on it. -/
theorem agree : ∀ {l : List N}, Path next l → Path next' l → ∀ {x : N}, x ∈ l → next' x = next x
  | a :: l, h, h', x, hx => by
    rcases List.mem_cons.1 hx with rfl | hx
    · exact h'.1.trans h.1.symm
    · exact agree h.2 h'.2 hx

/-- Where `next` leads to what is greater, a path is sorted. -/
theorem pairwise {R : Type*} [Preorder R] {f : N → R} (hf : ∀ a b, next a = some b → f a < f b) :
    ∀ {l : List N}, Path next l → l.Pairwise fun a b => f a < f b
  | [], _ => .nil
  | [_], _ => List.pairwise_singleton _ _
  | a :: b :: l, hp => by
    have ih := pairwise hf hp.2
    have hab := hf a b hp.1
    refine List.pairwise_cons.2 ⟨fun c hc => ?_, ih⟩
    rcases List.mem_cons.1 hc with rfl | hc
    · exact hab
    · exact hab.trans ((List.pairwise_cons.1 ih).1 c hc)

/-- Some node leads to each node of a path but the first. -/
theorem exists_prev : ∀ {l : List N} {a b : N}, Path next (a :: l) → b ∈ l → ∃ c, next c = some b
  | c :: l, a, b, hp, hb => by
    rcases List.mem_cons.1 hb with rfl | hb
    · exact ⟨a, hp.1⟩
    · exact exists_prev hp.2 hb

end Path

/-- The nodes met on the way from a pointer, up to `k` of them. -/
def walk (next : N → Option N) : Nat → Option N → List N
  | 0, _ => []
  | _ + 1, none => []
  | k + 1, some n => n :: walk next k (next n)

/-- A walk stays among nodes that no pointer leads out of, and depends on their pointers alone. -/
theorem walk_within {S : Set N} (hS : ∀ a ∈ S, ∀ b, next a = some b → b ∈ S)
    (hn : ∀ a ∈ S, next' a = next a) : ∀ (k : Nat) {o : Option N}, (∀ a, o = some a → a ∈ S) →
      walk next' k o = walk next k o ∧ ∀ a ∈ walk next k o, a ∈ S
  | 0, _, _ => by simp [walk]
  | _ + 1, none, _ => by simp [walk]
  | k + 1, some a, h => by
    have ha := h a rfl
    obtain ⟨he, hmem⟩ := walk_within hS hn k (hS a ha)
    refine ⟨by rw [walk, walk, hn a ha, he], fun b hb => ?_⟩
    rcases List.mem_cons.1 hb with rfl | hb
    · exact ha
    · exact hmem b hb

/-- A long enough walk is the path. -/
theorem Path.walk_eq : ∀ {l : List N} {k : Nat}, Path next l → l.length ≤ k →
    walk next k l.head? = l
  | [], 0, _, _ => rfl
  | [], _ + 1, _, _ => rfl
  | a :: l, 0, _, hk => by simp at hk
  | a :: l, k + 1, hp, hk => by
    rw [List.head?_cons, walk, hp.1, walk_eq hp.2 (by simpa using hk)]

/-- Where `next` leads to what is greater, a walk is sorted, and all of it is above what its start is
above. -/
theorem walk_pairwise {R : Type*} [Preorder R] {f : N → R}
    (hf : ∀ a b, next a = some b → f a < f b) : ∀ (k : Nat) {o : Option N} {r : R},
    (∀ a, o = some a → r < f a) →
      (∀ b ∈ walk next k o, r < f b) ∧ (walk next k o).Pairwise fun a b => f a < f b
  | 0, _, _, _ => by simp [walk]
  | _ + 1, none, _, _ => by simp [walk]
  | k + 1, some a, r, h => by
    have ha := h a rfl
    obtain ⟨hlt, hp⟩ := walk_pairwise hf k (hf a)
    refine ⟨fun b hb => ?_, List.pairwise_cons.2 ⟨hlt, hp⟩⟩
    rcases List.mem_cons.1 hb with rfl | hb
    · exact ha
    · exact ha.trans (hlt b hb)

/-- A walk that has ended is a path. -/
theorem walk_path : ∀ {k : Nat} {o : Option N}, (walk next k o).length < k →
    o = (walk next k o).head? ∧ Path next (walk next k o)
  | 0, _, h => absurd h (Nat.not_lt_zero _)
  | _ + 1, none, _ => ⟨rfl, trivial⟩
  | k + 1, some a, h => by
    rw [walk, List.length_cons] at h
    exact ⟨rfl, walk_path (Nat.lt_of_succ_lt_succ h)⟩

/-- A list in the order of `f` has no two elements of one `f`. -/
theorem inj_of_sorted {R : Type*} [Preorder R] {f : N → R} : ∀ {l : List N},
    l.Pairwise (fun a b => f a < f b) → ∀ {a b : N}, a ∈ l → b ∈ l → f a = f b → a = b
  | c :: l, hp, a, b, ha, hb, he => by
    obtain ⟨hc, hl⟩ := List.pairwise_cons.1 hp
    rcases List.mem_cons.1 ha with rfl | ha' <;> rcases List.mem_cons.1 hb with rfl | hb'
    · rfl
    · exact absurd he (hc b hb').ne
    · exact absurd he.symm (hc a ha').ne
    · exact inj_of_sorted hl ha' hb' he

/-- In a list in the order of `f`, the elements come in the order of `f`. -/
theorem pair_sublist {R : Type*} [Preorder R] {f : N → R} : ∀ {l : List N},
    l.Pairwise (fun a b => f a < f b) → ∀ {a b : N}, a ∈ l → b ∈ l → f a < f b → [a, b].Sublist l
  | c :: l, hp, a, b, ha, hb, hlt => by
    obtain ⟨hc, hl⟩ := List.pairwise_cons.1 hp
    rcases List.mem_cons.1 ha with rfl | ha' <;> rcases List.mem_cons.1 hb with rfl | hb'
    · exact absurd hlt (lt_irrefl _)
    · exact (List.singleton_sublist.2 hb').cons_cons _
    · exact absurd (hc a ha') hlt.asymm
    · exact (pair_sublist hl ha' hb' hlt).cons _

/-- The first element stays when what follows some element changes. -/
theorem exists_cons_of_append {a x : N} {B C : List N} : ∀ {A : List N},
    (∃ r, A ++ a :: B = x :: r) → ∃ r, A ++ a :: C = x :: r
  | [], ⟨_, h⟩ => ⟨C, by rw [← (List.cons.inj h).1]; rfl⟩
  | _ :: A, ⟨_, h⟩ => ⟨A ++ a :: C, by rw [← (List.cons.inj h).1]; rfl⟩

/-- In a list in order, every element is the last or before it. -/
theorem eq_getLast_or_rel {R : N → N → Prop} : ∀ {l : List N} (hl : l ≠ []), l.Pairwise R →
    ∀ {a : N}, a ∈ l → a = l.getLast hl ∨ R a (l.getLast hl)
  | [b], _, _, a, ha => .inl (by simpa using ha)
  | b :: c :: l, _, hp, a, ha => by
    rw [List.getLast_cons (List.cons_ne_nil c l)]
    rcases List.mem_cons.1 ha with rfl | ha
    · exact .inr ((List.pairwise_cons.1 hp).1 _ (List.getLast_mem _))
    · exact eq_getLast_or_rel _ (List.pairwise_cons.1 hp).2 ha

end Chain
