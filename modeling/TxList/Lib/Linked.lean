import TxList.Lib.Path

/-!
# Linked lists with a head and a tail

A singly linked list held by a pointer to its first node and one to its last. Appending a node and
taking the first one off keep it, and so does writing to nodes that are not on it. Several lists in
one memory do not disturb each other as long as no node is on two of them (`Apart`).
-/

namespace Chain

variable {N : Type*} {next next' : N → Option N} {head tail : Option N} {l : List N}

/-- `head` and `tail` are the ends of the list of the nodes `l`. -/
structure Linked (next : N → Option N) (head tail : Option N) (l : List N) : Prop where
  path : Path next l
  head_eq : head = l.head?
  tail_eq : tail = l.getLast?
  nodup : l.Nodup

namespace Linked

theorem nil : Linked next none none [] := ⟨trivial, rfl, rfl, List.nodup_nil⟩

theorem singleton {x : N} (hx : next x = none) : Linked next (some x) (some x) [x] :=
  ⟨⟨hx, trivial⟩, rfl, rfl, List.nodup_singleton x⟩

theorem congr (h : Linked next head tail l) (hn : ∀ x ∈ l, next' x = next x) :
    Linked next' head tail l :=
  ⟨h.path.congr hn, h.head_eq, h.tail_eq, h.nodup⟩

theorem eq_nil_of_head (h : Linked next none tail l) : l = [] :=
  List.head?_eq_none_iff.1 h.head_eq.symm

theorem eq_nil_of_tail (h : Linked next head none l) : l = [] :=
  List.getLast?_eq_none_iff.1 h.tail_eq.symm

theorem exists_cons {a : N} (h : Linked next (some a) tail l) : ∃ B, l = a :: B := by
  cases l with
  | nil => exact absurd h.head_eq (by simp)
  | cons b B =>
    have : a = b := by simpa using h.head_eq
    exact ⟨B, by rw [this]⟩

theorem exists_concat {a : N} (h : Linked next head (some a) l) : ∃ A, l = A ++ [a] := by
  obtain ⟨A, hA⟩ := List.getLast?_eq_some_iff.1 h.tail_eq.symm
  exact ⟨A, hA⟩

theorem tail_mem {a : N} (h : Linked next head (some a) l) : a ∈ l := by
  obtain ⟨A, rfl⟩ := h.exists_concat
  simp

/-- Append a node. -/
theorem concat {a x : N} (h : Linked next head (some a) l) (hx : x ∉ l) (ha : next' a = some x)
    (hxn : next' x = none) (hn : ∀ y ∈ l, y ≠ a → next' y = next y) :
    Linked next' head (some x) (l ++ [x]) := by
  obtain ⟨A, rfl⟩ := h.exists_concat
  have hA : ∀ y ∈ A, y ≠ a := by
    rintro y hy rfl
    exact (List.nodup_append.1 h.nodup).2.2 y hy y (by simp) rfl
  refine ⟨?_, ?_, by simp, ?_⟩
  · have hax : Path next' [a, x] := ⟨by simpa using ha, hxn, trivial⟩
    have := h.path.replace (fun y hy => hn y (by simp [hy]) (hA y hy)) hax
    simpa using this
  · rw [h.head_eq]
    cases A <;> rfl
  · rw [← List.concat_eq_append]
    exact h.nodup.concat hx

/-- Drop nodes from the front, but not all. -/
theorem drop {A B : List N} (h : Linked next head tail (A ++ B)) (hB : B ≠ []) :
    Linked next B.head? tail B := by
  refine ⟨h.path.of_append, rfl, ?_, (List.nodup_append.1 h.nodup).2.1⟩
  rw [h.tail_eq, List.getLast?_append_of_ne_nil _ hB]

/-- Take the first node off. -/
theorem pop [DecidableEq N] {a : N} {B : List N} (h : Linked next head tail (a :: B)) :
    Linked next (next a) (if next a = none then none else tail) B := by
  rw [h.path.1]
  by_cases hB : B = []
  · subst hB
    exact nil
  · rw [if_neg (by simpa using hB)]
    exact h.drop (A := [a]) hB

theorem getElem_next (h : Linked next head tail l) {k : Nat} (hk : k < l.length) :
    next l[k] = l[k + 1]? := by
  obtain ⟨A, B, hl, hA⟩ : ∃ A B, l = A ++ l[k] :: B ∧ A.length = k :=
    ⟨l.take k, l.drop (k + 1), by simp, by simp [hk.le]⟩
  have hp := h.path
  rw [hl] at hp
  rw [hp.of_append.1, hl]
  subst hA
  rw [List.getElem?_append_right (Nat.le_succ _)]
  cases B <;> simp

end Linked

/-- Walk to `stop`, or to the end of the list: where the walk ends, and how many nodes it passed. -/
def skip [DecidableEq N] (next : N → Option N) (stop : Option N) :
    Nat → Option N → Option (Option N × Nat)
  | 0, _ => none
  | _ + 1, none => some (none, 0)
  | k + 1, some n =>
    if some n = stop then some (some n, 0)
    else (skip next stop k (next n)).map fun r => (r.1, r.2 + 1)

section Skip

variable [DecidableEq N] {s : Option N}

/-- A walk with enough fuel passes a beginning of the list. -/
theorem skip_path : ∀ {l : List N} {k : Nat}, Path next l → l.length < k →
    ∃ A B, l = A ++ B ∧ skip next s k l.head? = some (B.head?, A.length) ∧ s ∉ A.map some ∧
      (B = [] ∨ B.head? = s)
  | [], k + 1, _, _ => ⟨[], [], rfl, rfl, by simp, .inl rfl⟩
  | a :: l, k + 1, hp, hk => by
    by_cases ha : some a = s
    · exact ⟨[], a :: l, rfl, if_pos ha, by simp, .inr ha⟩
    · obtain ⟨A, B, rfl, hskip, hA, hB⟩ := skip_path hp.2 (by simpa using hk)
      refine ⟨a :: A, B, rfl, ?_, ?_, hB⟩
      · rw [List.head?_cons, skip, if_neg ha, hp.1, hskip]
        rfl
      · simpa [Ne.symm ha] using hA

end Skip

section Apart

variable {ι : Type*} {f : ι → List N}

/-- No node is on two of the lists. -/
def Apart (f : ι → List N) : Prop := ∀ (i j : ι) (x : N), x ∈ f i → x ∈ f j → i = j

theorem Apart.not_mem (h : Apart f) {i j : ι} {x : N} (hx : x ∈ f i) (hj : j ≠ i) : x ∉ f j :=
  fun hx' => hj (h j i x hx' hx)

/-- One list gets a node that is on none, or loses some. -/
theorem Apart.update [DecidableEq ι] (h : Apart f) {i : ι} {l : List N}
    (hl : ∀ x ∈ l, x ∈ f i ∨ ∀ j, x ∉ f j) : Apart (Function.update f i l) := by
  intro j k x hj hk
  by_cases hji : j = i <;> by_cases hki : k = i
  · rw [hji, hki]
  · subst hji
    rw [Function.update_self] at hj
    rw [Function.update_of_ne hki] at hk
    rcases hl x hj with h' | h'
    · exact h _ _ x h' hk
    · exact absurd hk (h' k)
  · subst hki
    rw [Function.update_of_ne hji] at hj
    rw [Function.update_self] at hk
    rcases hl x hk with h' | h'
    · exact h _ _ x hj h'
    · exact absurd hj (h' j)
  · rw [Function.update_of_ne hji] at hj
    rw [Function.update_of_ne hki] at hk
    exact h j k x hj hk

end Apart

end Chain
