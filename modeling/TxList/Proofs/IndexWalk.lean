import TxList.Index
import TxList.Lib.Path

/-!
# The index's levels and its searches

`Shape` is the index laid out by levels: `row l` is level `l` from its head `hd l` on, a path by
`m_right` with increasing keys, and each index node above level `0` has the index node of the same
list node one level down.

A search for a key walks each level from the top. On a level it unlinks the dead nodes it crosses
and stops before the first live node at or past the key (`walkLevel_spec`). A dead node it unlinks
on a level it has already unlinked on the level above, or never crosses there, so the levels stay
nested (`descend_spec`).
-/

namespace TxList

namespace Index

open Chain

variable {K : Type} [LinearOrder K] (v : NodeView K)

/-- The two indexes differ only in `m_right` of the nodes in `A`. -/
structure Reright (ix ix' : Index) (A : List IdxId) : Prop where
  nodes : ∀ i, ix'.nodes i = { ix.nodes i with right := (ix'.nodes i).right }
  out : ∀ i, i ∉ A → ix'.nodes i = ix.nodes i
  fresh : ix'.fresh = ix.fresh
  headTop : ix'.headTop = ix.headTop
  headBottom : ix'.headBottom = ix.headBottom

namespace Reright

variable {ix ix' ix'' : Index} {A B : List IdxId}

theorem refl (ix : Index) (A : List IdxId) : Reright ix ix A :=
  ⟨fun _ => rfl, fun _ _ => rfl, rfl, rfl, rfl⟩

theorem node (h : Reright ix ix' A) (i : IdxId) : (ix'.nodes i).node = (ix.nodes i).node := by
  rw [h.nodes i]

theorem down (h : Reright ix ix' A) (i : IdxId) : (ix'.nodes i).down = (ix.nodes i).down := by
  rw [h.nodes i]

theorem up (h : Reright ix ix' A) (i : IdxId) : (ix'.nodes i).up = (ix.nodes i).up := by
  rw [h.nodes i]

theorem level (h : Reright ix ix' A) (i : IdxId) : (ix'.nodes i).level = (ix.nodes i).level := by
  rw [h.nodes i]

omit [LinearOrder K] in
theorem live (h : Reright ix ix' A) (i : IdxId) : ix'.live v i = ix.live v i := by
  simp only [Index.live, h.node]

theorem trans (h : Reright ix ix' A) (h' : Reright ix' ix'' A) : Reright ix ix'' A where
  nodes i := by rw [h'.nodes i, h.nodes i]
  out i hi := by rw [h'.out i hi, h.out i hi]
  fresh := h'.fresh.trans h.fresh
  headTop := h'.headTop.trans h.headTop
  headBottom := h'.headBottom.trans h.headBottom

theorem mono (h : Reright ix ix' A) (hAB : ∀ i ∈ A, i ∈ B) : Reright ix ix' B where
  nodes := h.nodes
  out i hi := h.out i fun hA => hi (hAB i hA)
  fresh := h.fresh
  headTop := h.headTop
  headBottom := h.headBottom

theorem setRight (ix : Index) (q : IdxId) (r : Option IdxId) : Reright ix (ix.setRight q r) [q] where
  nodes i := by
    simp only [Index.setRight, setNode, Function.update_apply]
    split_ifs with h
    · rw [h]
    · rfl
  out i hi := by
    simp only [List.mem_singleton] at hi
    simp [Index.setRight, setNode, hi]
  fresh := rfl
  headTop := rfl
  headBottom := rfl

end Reright

@[simp] theorem setRight_right_self (ix : Index) (q : IdxId) (r : Option IdxId) :
    ((ix.setRight q r).nodes q).right = r := by
  simp [setRight, setNode]

theorem setRight_right_ne (ix : Index) {q i : IdxId} (r : Option IdxId) (h : i ≠ q) :
    ((ix.setRight q r).nodes i).right = (ix.nodes i).right := by
  simp [setRight, setNode, h]

/-- The right pointers. -/
def right (ix : Index) (i : IdxId) : Option IdxId := (ix.nodes i).right

section Walk

variable (key : K)

/-- A walk for `key` goes past this index node: it is dead, or below the key. -/
def passes (ix : Index) (i : IdxId) : Bool :=
  !ix.live v i || v.key (ix.nodes i).node < key

/-- What a walk over the nodes `suf` leaves of the ones it passes. -/
def kept (ix : Index) (suf : List IdxId) : List IdxId :=
  (suf.takeWhile (ix.passes v key)).filter (ix.live v)

/-- Where a walk over the nodes `suf` stops. -/
def rest (ix : Index) (suf : List IdxId) : List IdxId := suf.dropWhile (ix.passes v key)

variable {v key} in
theorem Reright.kept {ix ix' : Index} {A : List IdxId} (h : Reright ix ix' A) (suf : List IdxId) :
    ix'.kept v key suf = ix.kept v key suf := by
  have h1 : ix'.passes v key = ix.passes v key := by
    funext i
    simp only [passes, h.live, h.node]
  have h2 : ix'.live v = ix.live v := funext fun i => h.live v i
  rw [Index.kept, Index.kept, h1, h2]

variable {v key} in
theorem Reright.rest {ix ix' : Index} {A : List IdxId} (h : Reright ix ix' A) (suf : List IdxId) :
    ix'.rest v key suf = ix.rest v key suf := by
  have h1 : ix'.passes v key = ix.passes v key := by
    funext i
    simp only [passes, h.live, h.node]
  rw [Index.rest, Index.rest, h1]

theorem walkLevel_spec : ∀ (fuel : Nat) (ix : Index) (q : IdxId) (suf : List IdxId),
    ix.live v q = true → (q :: suf).Nodup → Path ix.right (q :: suf) →
    (∀ x, walkLevel v key fuel ix q = some x → ∃ ix',
      x = (ix', some ((q :: ix.kept v key suf).getLast (by simp), (ix.rest v key suf).head?))
        ∧ Reright ix ix' (q :: suf) ∧ Path ix'.right (q :: (ix.kept v key suf ++ ix.rest v key suf)))
    ∧ (suf.length < fuel → (walkLevel v key fuel ix q).isSome)
  | 0, ix, q, suf, _, _, _ => by simp [walkLevel]
  | fuel + 1, ix, q, [], hq, hnd, hp => by
    have hr : (ix.nodes q).right = none := hp.1
    simp only [walkLevel, hr]
    refine ⟨fun x hx => ?_, fun _ => rfl⟩
    simp only [Option.some.injEq] at hx
    exact ⟨ix, by simp [← hx, kept, rest], .refl _ _, by simpa [kept, rest] using hp⟩
  | fuel + 1, ix, q, r :: suf, hq, hnd, hp => by
    have hr : (ix.nodes q).right = some r := hp.1
    have hqr : q ≠ r := fun h => (List.nodup_cons.1 hnd).1 (by simp [h])
    have hqs : q ∉ suf := fun h => (List.nodup_cons.1 hnd).1 (by simp [h])
    have hnd' := (List.nodup_cons.1 hnd).2
    simp only [walkLevel, hr]
    by_cases hlr : ix.live v r = true
    · simp only [hlr, Bool.not_true, Bool.false_eq_true, if_false]
      by_cases hk : v.key (ix.nodes r).node < key
      · -- a live node below the key: the walk moves on to it
        have hpass : ix.passes v key r = true := by simp [passes, hk]
        have hkept : ix.kept v key (r :: suf) = r :: ix.kept v key suf := by
          simp [kept, hpass, hlr]
        have hrest : ix.rest v key (r :: suf) = ix.rest v key suf := by simp [rest, hpass]
        obtain ⟨ih1, ih2⟩ := walkLevel_spec fuel ix r suf hlr hnd' hp.2
        rw [if_pos hk]
        refine ⟨fun x hx => ?_, fun h => ih2 (by simpa using h)⟩
        obtain ⟨ix', rfl, hre, hp'⟩ := ih1 x hx
        refine ⟨ix', by simp [hkept, hrest], hre.mono (fun i hi => List.mem_cons_of_mem _ hi), ?_⟩
        rw [hkept, hrest]
        refine ⟨?_, hp'⟩
        rw [right, hre.out q (by simp [hqr, hqs])]
        exact hr
      · have hpass : ix.passes v key r = false := by simp [passes, hk, hlr]
        rw [if_neg hk]
        refine ⟨fun x hx => ?_, fun _ => rfl⟩
        simp only [Option.some.injEq] at hx
        refine ⟨ix, ?_, .refl _ _, by simpa [kept, rest, hpass] using hp⟩
        simp [← hx, kept, rest, hpass]
    · -- a dead node: the walk unlinks it and stays
      have hlr' : ix.live v r = false := by simpa using hlr
      have hpass : ix.passes v key r = true := by simp [passes, hlr']
      have hkept : ix.kept v key (r :: suf) = ix.kept v key suf := by simp [kept, hpass, hlr']
      have hrest : ix.rest v key (r :: suf) = ix.rest v key suf := by simp [rest, hpass]
      have hun : ix.unlink v q r = (ix.setRight q (ix.nodes r).right, true) := by
        simp [unlink, hq, casRight, hr]
      simp only [hlr', Bool.not_false, if_true, hun]
      set ix₁ := ix.setRight q (ix.nodes r).right with hix₁
      have hre₁ : Reright ix ix₁ [q] := .setRight _ _ _
      have hp₁ : Path ix₁.right (q :: suf) := by
        refine ⟨?_, hp.2.2.congr fun x hx => ?_⟩
        · rw [right, hix₁, setRight_right_self]
          exact hp.2.1
        · rw [right, hix₁, setRight_right_ne _ _ (show x ≠ q from fun h => hqs (h ▸ hx))]
          rfl
      obtain ⟨ih1, ih2⟩ := walkLevel_spec fuel ix₁ q suf (by rw [hre₁.live]; exact hq)
        (List.nodup_cons.2 ⟨hqs, (List.nodup_cons.1 hnd').2⟩) hp₁
      refine ⟨fun x hx => ?_, fun h => ih2 (by simp only [List.length_cons] at h; omega)⟩
      obtain ⟨ix', rfl, hre, hp'⟩ := ih1 x hx
      rw [hre₁.kept, hre₁.rest] at hp'
      refine ⟨ix', by simp only [hkept, hrest, hre₁.kept, hre₁.rest], ?_, ?_⟩
      · refine (hre₁.mono (by simp)).trans (hre.mono fun i hi => ?_)
        rcases List.mem_cons.1 hi with rfl | hi
        · exact List.mem_cons_self
        · exact List.mem_cons_of_mem _ (List.mem_cons_of_mem _ hi)
      · rw [hkept, hrest]
        exact hp'

theorem mem_kept {ix : Index} {suf : List IdxId} {i : IdxId} (h : i ∈ ix.kept v key suf) :
    i ∈ suf ∧ ix.live v i = true ∧ v.key (ix.nodes i).node < key := by
  obtain ⟨hm, hl⟩ := List.mem_filter.1 h
  have hpass := List.mem_takeWhile_imp hm
  simp only [passes, hl, Bool.not_true, Bool.false_or, decide_eq_true_eq] at hpass
  exact ⟨(List.takeWhile_prefix _).subset hm, hl, hpass⟩

theorem kept_append_rest_sublist (ix : Index) (suf : List IdxId) :
    List.Sublist (ix.kept v key suf ++ ix.rest v key suf) suf := by
  have h := (List.filter_sublist (p := ix.live v) (l := suf.takeWhile (ix.passes v key))).append
    (List.Sublist.refl (suf.dropWhile (ix.passes v key)))
  rwa [List.takeWhile_append_dropWhile] at h

/-- What a walk unlinks is dead. -/
theorem mem_kept_append_rest {ix : Index} {suf : List IdxId} {i : IdxId} (hi : i ∈ suf)
    (hl : ix.live v i = true) : i ∈ ix.kept v key suf ++ ix.rest v key suf := by
  rw [← List.takeWhile_append_dropWhile (p := ix.passes v key) (l := suf)] at hi
  rcases List.mem_append.1 hi with hi | hi
  · exact List.mem_append_left _ (List.mem_filter.2 ⟨hi, hl⟩)
  · exact List.mem_append_right _ hi

/-- What a walk stops before is live and not below the key. -/
theorem rest_head {ix : Index} {suf : List IdxId} {r : IdxId}
    (h : (ix.rest v key suf).head? = some r) :
    ix.live v r = true ∧ key ≤ v.key (ix.nodes r).node := by
  have := List.head?_dropWhile_not (ix.passes v key) suf
  rw [show suf.dropWhile (ix.passes v key) = ix.rest v key suf from rfl, h] at this
  simpa [passes] using this

end Walk

section Shape

variable (rank : NodeId → WithBot K) (hn : NodeId)

/-- The index laid out by levels. -/
structure Shape (ix : Index) (top : Nat) (hd : Nat → IdxId) (row : Nat → List IdxId) : Prop where
  bottom : ix.headBottom = hd 0
  top_eq : ix.headTop = hd top
  row_eq : ∀ l ≤ top, ∃ rest, row l = hd l :: rest
  path : ∀ l ≤ top, Path ix.right (row l)
  sorted : ∀ l ≤ top,
    (row l).Pairwise fun i j => rank (ix.nodes i).node < rank (ix.nodes j).node
  key : ∀ l ≤ top, ∀ i ∈ row l, i ≠ hd l → rank (ix.nodes i).node = v.key (ix.nodes i).node
  hd_node : ∀ l ≤ top, (ix.nodes (hd l)).node = hn
  hd_level : ∀ l ≤ top, (ix.nodes (hd l)).level = l
  hd_up : ∀ l ≤ top, (ix.nodes (hd l)).up = if l = top then none else some (hd (l + 1))
  hd_down : ∀ l < top, (ix.nodes (hd (l + 1))).down = some (hd l)
  down_zero : ∀ i ∈ row 0, (ix.nodes i).down = none
  down_succ : ∀ l < top, ∀ i ∈ row (l + 1),
    ∃ j ∈ row l, (ix.nodes i).down = some j ∧ (ix.nodes j).node = (ix.nodes i).node
  bound : ∀ l ≤ top, ∀ i ∈ row l, i < ix.fresh
  disj : ∀ l ≤ top, ∀ l' ≤ top, ∀ i, i ∈ row l → i ∈ row l' → l = l'

namespace Shape

variable {v rank hn} {ix ix' : Index} {top : Nat} {hd : Nat → IdxId} {row : Nat → List IdxId}

theorem hd_mem (h : Shape v rank hn ix top hd row) {l : Nat} (hl : l ≤ top) : hd l ∈ row l := by
  obtain ⟨rest, hr⟩ := h.row_eq l hl
  rw [hr]
  exact List.mem_cons_self

theorem nodup (h : Shape v rank hn ix top hd row) {l : Nat} (hl : l ≤ top) : (row l).Nodup :=
  (h.sorted l hl).imp fun hlt he => (he ▸ hlt).ne rfl

theorem inj (h : Shape v rank hn ix top hd row) {l : Nat} (hl : l ≤ top) {i j : IdxId}
    (hi : i ∈ row l) (hj : j ∈ row l) (he : rank (ix.nodes i).node = rank (ix.nodes j).node) :
    i = j :=
  inj_of_sorted (f := fun i => rank (ix.nodes i).node) (h.sorted l hl) hi hj he

/-- The index after the row of one level has lost nodes. -/
theorem rerow (h : Shape v rank hn ix top hd row) {l : Nat} (hl : l ≤ top)
    (hre : Reright ix ix' (row l)) {row' : List IdxId} (hsub : row'.Sublist (row l))
    (hhd : ∃ rest, row' = hd l :: rest) (hpath : Path ix'.right row')
    (hnest : l < top → ∀ i ∈ row (l + 1), ∀ j ∈ row l,
      (ix.nodes i).down = some j → (ix.nodes j).node = (ix.nodes i).node → j ∈ row') :
    Shape v rank hn ix' top hd (Function.update row l row') where
  bottom := by rw [hre.headBottom, h.bottom]
  top_eq := by rw [hre.headTop, h.top_eq]
  row_eq l' hl' := by
    by_cases he : l' = l
    · subst he
      simpa using hhd
    · simpa [he] using h.row_eq l' hl'
  path l' hl' := by
    by_cases he : l' = l
    · subst he
      simpa using hpath
    · simp only [Function.update_of_ne he]
      refine (h.path l' hl').congr fun x hx => ?_
      rw [right, hre.out x fun hx' => he (h.disj l' hl' l hl x hx hx')]
      rfl
  sorted l' hl' := by
    simp only [hre.node]
    by_cases he : l' = l
    · subst he
      simpa using (h.sorted l' hl').sublist hsub
    · simpa [he] using h.sorted l' hl'
  key l' hl' i hi := by
    simp only [hre.node]
    refine h.key l' hl' i ?_
    by_cases he : l' = l
    · subst he
      exact hsub.subset (by simpa using hi)
    · simpa [he] using hi
  hd_node l' hl' := by rw [hre.node, h.hd_node l' hl']
  hd_level l' hl' := by rw [hre.level, h.hd_level l' hl']
  hd_up l' hl' := by rw [hre.up, h.hd_up l' hl']
  hd_down l' hl' := by rw [hre.down, h.hd_down l' hl']
  down_zero i hi := by
    rw [hre.down]
    refine h.down_zero i ?_
    by_cases he : 0 = l
    · subst he
      exact hsub.subset (by simpa using hi)
    · simpa [he] using hi
  down_succ l' hl' i hi := by
    have hi' : i ∈ row (l' + 1) := by
      by_cases he : l' + 1 = l
      · subst he
        exact hsub.subset (by simpa using hi)
      · simpa [he] using hi
    obtain ⟨j, hj, hd, hn⟩ := h.down_succ l' hl' i hi'
    refine ⟨j, ?_, by rw [hre.down, hd], by rw [hre.node, hre.node, hn]⟩
    by_cases he : l' = l
    · subst he
      simpa using hnest hl' i hi' j hj hd hn
    · simpa [he] using hj
  bound l' hl' i hi := by
    rw [hre.fresh]
    refine h.bound l' hl' i ?_
    by_cases he : l' = l
    · subst he
      exact hsub.subset (by simpa using hi)
    · simpa [he] using hi
  disj l₁ hl₁ l₂ hl₂ i hi₁ hi₂ := by
    have hsub' : ∀ l', i ∈ Function.update row l row' l' → i ∈ row l' := by
      intro l' hi
      by_cases he : l' = l
      · subst he
        exact hsub.subset (by simpa using hi)
      · simpa [he] using hi
    exact h.disj l₁ hl₁ l₂ hl₂ i (hsub' l₁ hi₁) (hsub' l₂ hi₂)

end Shape

/-- A search for `key` can enter the level at `prev`, with `next` after it: `prev` is live and
below the key, and `next` is live and not below it. -/
structure Point (key : K) (ix : Index) (row : List IdxId) (prev : IdxId) (next : Option IdxId) :
    Prop where
  mem : prev ∈ row
  live : ix.live v prev = true
  below : rank (ix.nodes prev).node < key
  right : ix.right prev = next
  next_live : ∀ r, next = some r → ix.live v r = true ∧ (key : WithBot K) ≤ rank (ix.nodes r).node

/-- The level holds no dead node with the key. -/
def Clean (key : K) (ix : Index) (row : List IdxId) : Prop :=
  ∀ i ∈ row, ix.live v i = false → rank (ix.nodes i).node ≠ key

/-- Every dead node past `curr` one level up has a live node at or past the key before it. -/
def Shielded (key : K) (ix : Index) (upper row : List IdxId) (curr : IdxId) : Prop :=
  ∀ i ∈ upper, ix.live v i = false → rank (ix.nodes curr).node < rank (ix.nodes i).node →
    ∃ j ∈ row, ix.live v j = true ∧ (key : WithBot K) ≤ rank (ix.nodes j).node ∧
      rank (ix.nodes j).node ≤ rank (ix.nodes i).node

/-- What a walk of level `l` leaves: the level without the dead nodes it crossed, and the point it
found. -/
structure Walked (key : K) (ix ix' : Index) (top : Nat) (hd : Nat → IdxId) (row : Nat → List IdxId)
    (l : Nat) (row' : List IdxId) (prev : IdxId) (next : Option IdxId) : Prop where
  shape : Shape v rank hn ix' top hd (Function.update row l row')
  reright : Reright ix ix' (row l)
  sub : row'.Sublist (row l)
  keeps : ∀ i ∈ row l, ix.live v i = true → i ∈ row'
  point : Point v rank key ix' row' prev next
  clean : Clean v rank key ix' row'
  past : ∀ i ∈ row', rank (ix.nodes prev).node < rank (ix.nodes i).node →
    ∃ r ∈ row', next = some r ∧ rank (ix.nodes r).node ≤ rank (ix.nodes i).node

/-- A finished search: every level has its point and no dead node with the key. -/
structure Searched (key : K) (ix ix' : Index) (top : Nat) (hd : Nat → IdxId)
    (row row' : Nat → List IdxId) (points : List (IdxId × Option IdxId)) : Prop where
  shape : Shape v rank hn ix' top hd row'
  nodes : ∀ i, ix'.nodes i = { ix.nodes i with right := (ix'.nodes i).right }
  fresh : ix'.fresh = ix.fresh
  out : ∀ i, (∀ l ≤ top, i ∉ row l) → ix'.nodes i = ix.nodes i
  sub : ∀ l ≤ top, (row' l).Sublist (row l)
  keeps : ∀ l ≤ top, ∀ i ∈ row l, ix.live v i = true → i ∈ row' l
  length : points.length = top + 1
  point : ∀ l ≤ top, ∃ pt, points[l]? = some pt ∧ Point v rank key ix' (row' l) pt.1 pt.2
  clean : ∀ l ≤ top, Clean v rank key ix' (row' l)

section Descend

variable {v rank hn} {ix : Index} {top : Nat} {hd : Nat → IdxId} {row : Nat → List IdxId} {key : K}

theorem Shape.ne_hd (h : Shape v rank hn ix top hd row) (hbot : rank hn = ⊥) {l : Nat}
    (hl : l ≤ top) {i : IdxId} {r : WithBot K} (hi : r < rank (ix.nodes i).node) : i ≠ hd l := by
  rintro rfl
  rw [h.hd_node l hl, hbot] at hi
  exact not_lt_bot hi

/-- A walk for `key` that is at `curr`, with the nodes `A` of the row behind it and `suf` before it. -/
structure Walking (v : NodeView K) (rank : NodeId → WithBot K) (key : K) (ix : Index)
    (A suf : List IdxId) (curr : IdxId) : Prop where
  sorted : (A ++ curr :: suf).Pairwise fun i j => rank (ix.nodes i).node < rank (ix.nodes j).node
  key_eq : ∀ i ∈ suf, rank (ix.nodes i).node = v.key (ix.nodes i).node
  live : ix.live v curr = true
  below : rank (ix.nodes curr).node < key

namespace Walking

variable {ix' : Index} {A suf B : List IdxId} {curr i j : IdxId}

theorem behind (h : Walking v rank key ix A suf curr) (hi : i ∈ A) :
    rank (ix.nodes i).node < rank (ix.nodes curr).node :=
  (List.pairwise_append.1 h.sorted).2.2 i hi curr List.mem_cons_self

theorem sorted_from (h : Walking v rank key ix A suf curr) :
    (curr :: suf).Pairwise fun i j => rank (ix.nodes i).node < rank (ix.nodes j).node :=
  (List.pairwise_append.1 h.sorted).2.1

theorem before (h : Walking v rank key ix A suf curr) (hi : i ∈ suf) :
    rank (ix.nodes curr).node < rank (ix.nodes i).node := (List.pairwise_cons.1 h.sorted_from).1 i hi

/-- What the walk leaves before it. -/
theorem sorted_left (h : Walking v rank key ix A suf curr) :
    ((ix.kept v key suf) ++ ix.rest v key suf).Pairwise
      fun i j => rank (ix.nodes i).node < rank (ix.nodes j).node :=
  (List.pairwise_cons.1 h.sorted_from).2.sublist (kept_append_rest_sublist v key ix suf)

/-- A live node at or past the key stops the walk before the nodes past it. -/
theorem mem_rest (h : Walking v rank key ix A suf curr) (hi : i ∈ suf) (hj : j ∈ A ++ curr :: suf)
    (hjl : ix.live v j = true) (hjk : (key : WithBot K) ≤ rank (ix.nodes j).node)
    (hji : rank (ix.nodes j).node < rank (ix.nodes i).node) : i ∈ ix.rest v key suf := by
  have hj : j ∈ suf := by
    rcases List.mem_append.1 hj with hj | hj
    · exact absurd ((h.behind hj).trans h.below) hjk.not_gt
    · rcases List.mem_cons.1 hj with rfl | hj
      · exact absurd h.below hjk.not_gt
      · exact hj
  have hsplit := List.takeWhile_append_dropWhile (p := ix.passes v key) (l := suf)
  have hsort := (List.pairwise_cons.1 h.sorted_from).2
  have hj' := hj
  rw [← hsplit] at hi hj' hsort
  rcases List.mem_append.1 hi with hi | hi
  · exfalso
    rcases List.mem_append.1 hj' with hj' | hj'
    · have := List.mem_takeWhile_imp hj'
      simp only [passes, hjl, Bool.not_true, Bool.false_or, decide_eq_true_eq] at this
      rw [h.key_eq j hj, WithBot.coe_le_coe] at hjk
      exact hjk.not_gt this
    · exact hji.not_gt ((List.pairwise_append.1 hsort).2.2 i hi j hj')
  · exact hi

/-- No live node is unlinked. -/
theorem mem_left (hi : i ∈ A ++ curr :: suf) (hl : ix.live v i = true) :
    i ∈ A ++ curr :: (ix.kept v key suf ++ ix.rest v key suf) := by
  rcases List.mem_append.1 hi with hi | hi
  · exact List.mem_append_left _ hi
  · rcases List.mem_cons.1 hi with rfl | hi
    · simp
    · exact List.mem_append_right _ (List.mem_cons_of_mem _ (mem_kept_append_rest v key hi hl))

/-- The walk ends at a point for the key. -/
theorem point (h : Walking v rank key ix A suf curr) (hre : Reright ix ix' B)
    (hp : Path ix'.right (curr :: (ix.kept v key suf ++ ix.rest v key suf))) :
    Point v rank key ix' (A ++ curr :: (ix.kept v key suf ++ ix.rest v key suf))
      ((curr :: ix.kept v key suf).getLast (List.cons_ne_nil _ _)) (ix.rest v key suf).head? := by
  have hlast := List.getLast_mem (List.cons_ne_nil curr (ix.kept v key suf))
  refine ⟨?_, ?_, ?_, ?_, fun r hr => ?_⟩
  · refine List.mem_append_right _ ?_
    rw [← List.cons_append]
    exact List.mem_append_left _ hlast
  · rw [hre.live]
    rcases List.mem_cons.1 hlast with he | hmem
    · rw [he]
      exact h.live
    · exact (mem_kept v key hmem).2.1
  · rw [hre.node]
    rcases List.mem_cons.1 hlast with he | hmem
    · rw [he]
      exact h.below
    · obtain ⟨h1, -, h3⟩ := mem_kept v key hmem
      rw [h.key_eq _ h1]
      exact WithBot.coe_lt_coe.2 h3
  · rw [← List.cons_append] at hp
    exact hp.next_getLast _
  · obtain ⟨hrl, hrk⟩ := rest_head v key hr
    have hrs : r ∈ suf := (List.dropWhile_suffix _).subset (List.mem_of_mem_head? hr)
    rw [hre.live, hre.node, h.key_eq r hrs]
    exact ⟨hrl, WithBot.coe_le_coe.2 hrk⟩

/-- The first node of the rest is no higher than the others. -/
theorem rest_le (h : Walking v rank key ix A suf curr) (hi : i ∈ ix.rest v key suf) :
    ∃ r ∈ ix.rest v key suf, (ix.rest v key suf).head? = some r ∧
      (r = i ∨ rank (ix.nodes r).node < rank (ix.nodes i).node) := by
  have hsort := (List.pairwise_append.1 h.sorted_left).2.1
  rcases hr : ix.rest v key suf with _ | ⟨r, rs⟩
  · simp [hr] at hi
  rw [hr] at hi hsort
  refine ⟨r, List.mem_cons_self, rfl, ?_⟩
  rcases List.mem_cons.1 hi with rfl | hi
  · exact .inl rfl
  · exact .inr ((List.pairwise_cons.1 hsort).1 i hi)

/-- The walk leaves no dead node with the key. -/
theorem clean (h : Walking v rank key ix A suf curr) (hre : Reright ix ix' B) :
    Clean v rank key ix' (A ++ curr :: (ix.kept v key suf ++ ix.rest v key suf)) := by
  intro i hi hdead he
  rw [hre.live] at hdead
  rw [hre.node] at he
  rcases List.mem_append.1 hi with hi | hi
  · exact absurd ((h.behind hi).trans h.below) (by rw [he]; exact lt_irrefl _)
  rcases List.mem_cons.1 hi with rfl | hi
  · exact absurd h.live (by simp [hdead])
  rcases List.mem_append.1 hi with hi | hi
  · exact absurd (mem_kept v key hi).2.1 (by simp [hdead])
  · -- the first node of the rest is live and not below the key
    obtain ⟨r, hr, hhead, rfl | hri⟩ := h.rest_le hi
    · exact absurd (rest_head v key hhead).1 (by simp [hdead])
    · have hrs : r ∈ suf := (List.dropWhile_suffix _).subset hr
      rw [he, h.key_eq r hrs, WithBot.coe_lt_coe] at hri
      exact (rest_head v key hhead).2.not_gt hri

/-- What lies past the walk's end is no lower than the node after it. -/
theorem past (h : Walking v rank key ix A suf curr)
    (hi : i ∈ A ++ curr :: (ix.kept v key suf ++ ix.rest v key suf))
    (hlt : rank (ix.nodes ((curr :: ix.kept v key suf).getLast (List.cons_ne_nil _ _))).node <
      rank (ix.nodes i).node) :
    ∃ r ∈ A ++ curr :: (ix.kept v key suf ++ ix.rest v key suf), (ix.rest v key suf).head? = some r ∧
      rank (ix.nodes r).node ≤ rank (ix.nodes i).node := by
  have hkept : (curr :: ix.kept v key suf).Pairwise
      fun i j => rank (ix.nodes i).node < rank (ix.nodes j).node :=
    h.sorted_from.sublist
      (((List.sublist_append_left _ _).trans (kept_append_rest_sublist v key ix suf)).cons_cons curr)
  have hlast : ∀ a ∈ curr :: ix.kept v key suf, rank (ix.nodes a).node ≤
      rank (ix.nodes ((curr :: ix.kept v key suf).getLast (List.cons_ne_nil _ _))).node := by
    intro a ha
    rcases eq_getLast_or_rel (List.cons_ne_nil _ _) hkept ha with he | hlt
    · rw [← he]
    · exact hlt.le
  rcases List.mem_append.1 hi with hi | hi
  · exact absurd hlt ((h.behind hi).trans_le (hlast curr List.mem_cons_self)).not_gt
  rw [← List.cons_append] at hi
  rcases List.mem_append.1 hi with hi | hi
  · exact absurd hlt (hlast i hi).not_gt
  · obtain ⟨r, hr, hhead, hri⟩ := h.rest_le hi
    exact ⟨r, by simp [hr], hhead, hri.elim (fun he => he ▸ le_rfl) le_of_lt⟩

/-- An index node of the level above still points down into what the walk leaves. -/
theorem mem_nested (h : Walking v rank key ix A suf curr) {upper : List IdxId}
    (hsh : Shielded v rank key ix upper (A ++ curr :: suf) curr) (hi : i ∈ upper)
    (hj : j ∈ A ++ curr :: suf) (hnode : (ix.nodes j).node = (ix.nodes i).node) :
    j ∈ A ++ curr :: (ix.kept v key suf ++ ix.rest v key suf) := by
  by_cases hjl : ix.live v j = true
  · exact mem_left hj hjl
  rcases List.mem_append.1 hj with hj' | hj'
  · exact List.mem_append_left _ hj'
  refine List.mem_append_right _ ?_
  rcases List.mem_cons.1 hj' with rfl | hj'
  · exact List.mem_cons_self
  -- the shield: a live node at or past the key comes before `j`
  have hil : ix.live v i = false := by simpa only [Index.live, hnode, Bool.not_eq_true] using hjl
  obtain ⟨k, hk, hkl, hkk, hle⟩ := hsh i hi hil (by rw [← hnode]; exact h.before hj')
  rw [← hnode] at hle
  have hne : rank (ix.nodes k).node ≠ rank (ix.nodes j).node := fun he => by
    rw [inj_of_sorted (f := fun i => rank (ix.nodes i).node) h.sorted hk hj he] at hkl
    exact hjl hkl
  exact List.mem_cons_of_mem _
    (List.mem_append_right _ (h.mem_rest hj' hk hkl hkk (lt_of_le_of_ne hle hne)))

end Walking

theorem walkLevel_row (h : Shape v rank hn ix top hd row) (hbot : rank hn = ⊥) {l : Nat}
    (hl : l ≤ top) {curr : IdxId} (hc : curr ∈ row l) (hlive : ix.live v curr = true)
    (hlt : rank (ix.nodes curr).node < key)
    (hsh : l < top → Shielded v rank key ix (row (l + 1)) (row l) curr) (fuel : Nat) :
    (∀ x, walkLevel v key fuel ix curr = some x → ∃ ix' row' prev next,
      x = (ix', some (prev, next)) ∧ Walked v rank hn key ix ix' top hd row l row' prev next)
    ∧ ((row l).length < fuel → (walkLevel v key fuel ix curr).isSome) := by
  obtain ⟨A, suf, hrow⟩ := List.append_of_mem hc
  have hsort := h.sorted l hl
  have hnd := h.nodup hl
  have hpath := h.path l hl
  rw [hrow] at hsort hnd hpath
  have hbefore : ∀ i ∈ suf, rank (ix.nodes curr).node < rank (ix.nodes i).node := fun i hi =>
    (List.pairwise_cons.1 (List.pairwise_append.1 hsort).2.1).1 i hi
  have hW : Walking v rank key ix A suf curr := by
    refine ⟨hsort, fun i hi => h.key l hl i ?_ (h.ne_hd hbot hl (hbefore i hi)), hlive, hlt⟩
    rw [hrow]
    simp [hi]
  obtain ⟨hspec, hterm⟩ := walkLevel_spec v key fuel ix curr suf hlive
    (List.Nodup.of_append_right hnd) hpath.of_append
  refine ⟨fun x hx => ?_, fun hf => hterm ?_⟩
  swap
  · rw [hrow, List.length_append, List.length_cons] at hf
    omega
  obtain ⟨ix', rfl, hre, hp⟩ := hspec x hx
  have hre' : Reright ix ix' (row l) := hre.mono fun i hi => by
    rw [hrow]
    exact List.mem_append_right _ hi
  have hsub : (A ++ curr :: (ix.kept v key suf ++ ix.rest v key suf)).Sublist (row l) := by
    rw [hrow]
    exact (List.Sublist.refl A).append ((kept_append_rest_sublist v key ix suf).cons_cons curr)
  refine ⟨ix', _, _, _, rfl, ?_, hre', hsub, fun i hi => ?_, hW.point hre hp, hW.clean hre,
    fun i => hW.past⟩
  · refine h.rerow hl hre' hsub ?_ (hpath.replace (fun x hxA => ?_) hp) fun hlt' i hi j hj _ hnode => ?_
    · obtain ⟨r, hr⟩ := h.row_eq l hl
      exact exists_cons_of_append ⟨r, hrow ▸ hr⟩
    · rw [right, hre.out x fun hx' => ?_]
      · rfl
      · exact ((List.pairwise_append.1 hsort).2.2 x hxA x hx').ne rfl
    · rw [hrow] at hj
      exact hW.mem_nested (hrow ▸ hsh hlt') hi hj hnode
  · rw [hrow] at hi
    exact Walking.mem_left hi

theorem walkUntil_row (h : Shape v rank hn ix top hd row) (hbot : rank hn = ⊥) {l : Nat}
    (hl : l ≤ top) {curr : IdxId} (hc : curr ∈ row l) (hlive : ix.live v curr = true)
    (hlt : rank (ix.nodes curr).node < key)
    (hsh : l < top → Shielded v rank key ix (row (l + 1)) (row l) curr) (fuel : Nat)
    (levelHead : IdxId) : ∀ n,
    (∀ x, walkUntil v key fuel levelHead n ix curr = some x → ∃ ix' row' prev next,
      x = (ix', curr, prev, next) ∧ Walked v rank hn key ix ix' top hd row l row' prev next)
    ∧ ((row l).length < fuel → 0 < n → (walkUntil v key fuel levelHead n ix curr).isSome)
  | 0 => by simp [walkUntil]
  | n + 1 => by
    obtain ⟨h1, h2⟩ := walkLevel_row h hbot hl hc hlive hlt hsh fuel
    simp only [walkUntil]
    rcases hw : walkLevel v key fuel ix curr with _ | x
    · refine ⟨fun x hx => by simp at hx, fun hf _ => ?_⟩
      have := h2 hf
      rw [hw] at this
      simp at this
    · obtain ⟨ix', row', prev, next, rfl, hW⟩ := h1 x hw
      refine ⟨fun x hx => ?_, fun _ _ => rfl⟩
      simp only [Option.some.injEq] at hx
      exact ⟨ix', row', prev, next, hx.symm, hW⟩

/-- A point of a level is one still when other levels' rows and pointers change. -/
theorem Point.congr {ix' : Index} {A : List IdxId} {rw : List IdxId} {prev : IdxId}
    {next : Option IdxId} (hP : Point v rank key ix rw prev next) (hre : Reright ix ix' A)
    (hA : ∀ i ∈ rw, i ∉ A) : Point v rank key ix' rw prev next where
  mem := hP.mem
  live := by rw [hre.live]; exact hP.live
  below := by rw [hre.node]; exact hP.below
  right := by rw [Index.right, hre.out prev (hA prev hP.mem)]; exact hP.right
  next_live r hr := by rw [hre.live, hre.node]; exact hP.next_live r hr

omit [LinearOrder K] in
theorem Clean.congr {ix' : Index} {A : List IdxId} {rw : List IdxId} (hC : Clean v rank key ix rw)
    (hre : Reright ix ix' A) : Clean v rank key ix' rw := by
  intro i hi hd
  rw [hre.live] at hd
  rw [hre.node]
  exact hC i hi hd

/-- Below a level's point the next level down is shielded. -/
theorem Walked.shielded {ix' : Index} {l : Nat} {row' : List IdxId} {prev d : IdxId}
    {next : Option IdxId} (hl : l < top)
    (hW : Walked v rank hn key ix ix' top hd row (l + 1) row' prev next)
    (hd' : (ix'.nodes d).node = (ix'.nodes prev).node) :
    Shielded v rank key ix' row' (row l) d := by
  intro i hi hdead hlt
  rw [hd', hW.reright.node, hW.reright.node] at hlt
  obtain ⟨r, hr, hnext, hle⟩ := hW.past i hi hlt
  obtain ⟨hrl, hrk⟩ := hW.point.next_live r hnext
  have hrow : r ∈ Function.update row (l + 1) row' (l + 1) := by simpa using hr
  obtain ⟨j, hj, -, hjn⟩ := hW.shape.down_succ l hl r hrow
  refine ⟨j, by simpa using hj, ?_, ?_, ?_⟩
  · simp only [Index.live, hjn]
    exact hrl
  · rw [hjn]
    exact hrk
  · rw [hjn, hW.reright.node, hW.reright.node]
    exact hle

/-- A search of the rows left by a walk is one of the rows before it. -/
theorem Searched.of_walked {ix' ix'' : Index} {l : Nat} (hl : l ≤ top) {rl : List IdxId}
    {prev : IdxId} {next : Option IdxId} {row' : Nat → List IdxId}
    {points : List (IdxId × Option IdxId)}
    (hW : Walked v rank hn key ix ix' top hd row l rl prev next)
    (hS : Searched v rank hn key ix' ix'' top hd (Function.update row l rl) row' points) :
    Searched v rank hn key ix ix'' top hd row row' points where
  shape := hS.shape
  nodes i := by rw [hS.nodes, hW.reright.nodes]
  fresh := by rw [hS.fresh, hW.reright.fresh]
  out i hi := by
    rw [hS.out i fun l' hl' => ?_, hW.reright.out i (hi l hl)]
    by_cases he : l' = l
    · subst he
      simpa using fun hi' => hi l' hl' (hW.sub.subset hi')
    · simpa [he] using hi l' hl'
  sub l' hl' := by
    refine (hS.sub l' hl').trans ?_
    by_cases he : l' = l
    · subst he
      simpa using hW.sub
    · simp [he]
  keeps l' hl' i hi hil := by
    refine hS.keeps l' hl' i ?_ (by rw [hW.reright.live]; exact hil)
    by_cases he : l' = l
    · subst he
      simpa using hW.keeps i hi hil
    · simpa [he] using hi
  length := hS.length
  point := hS.point
  clean := hS.clean

/-- The state of a search about to walk `level` from `curr`. -/
structure Descending (v : NodeView K) (rank : NodeId → WithBot K) (hn : NodeId) (key : K)
    (ix : Index) (top : Nat) (hd : Nat → IdxId) (row : Nat → List IdxId) (level : Nat)
    (curr : IdxId) (points : List (IdxId × Option IdxId)) : Prop where
  shape : Shape v rank hn ix top hd row
  le : level ≤ top
  mem : curr ∈ row level
  live : ix.live v curr = true
  below : rank (ix.nodes curr).node < key
  shielded : level < top → Shielded v rank key ix (row (level + 1)) (row level) curr
  length : points.length = top - level
  point : ∀ l, level < l → l ≤ top → ∃ pt, points[l - level - 1]? = some pt ∧
    Point v rank key ix (row l) pt.1 pt.2
  clean : ∀ l, level < l → l ≤ top → Clean v rank key ix (row l)

/-- The points of the levels from `level` up, once `level` is walked. -/
theorem Descending.points {level : Nat} {curr : IdxId} {points : List (IdxId × Option IdxId)}
    (hD : Descending v rank hn key ix top hd row level curr points) {ix' : Index}
    {rl : List IdxId} {prev : IdxId} {next : Option IdxId}
    (hW : Walked v rank hn key ix ix' top hd row level rl prev next) :
    ∀ l, level ≤ l → l ≤ top →
      (∃ pt, ((prev, next) :: points)[l - level]? = some pt ∧
        Point v rank key ix' (Function.update row level rl l) pt.1 pt.2)
      ∧ Clean v rank key ix' (Function.update row level rl l) := by
  intro l h1 h2
  by_cases he : l = level
  · subst he
    simp only [Nat.sub_self, List.getElem?_cons_zero, Option.some.injEq, exists_eq_left',
      Function.update_self]
    exact ⟨hW.point, hW.clean⟩
  · have hlt : level < l := by omega
    obtain ⟨pt, hpt, hP⟩ := hD.point l hlt h2
    simp only [Function.update_of_ne he]
    refine ⟨⟨pt, ?_, hP.congr hW.reright fun i hi hi' => ?_⟩,
      (hD.clean l hlt h2).congr hW.reright⟩
    · rw [show l - level = (l - level - 1) + 1 by omega]
      exact hpt
    · exact he (hD.shape.disj l h2 level hD.le i hi hi')

theorem descend_spec (hbot : rank hn = ⊥) (fuel : Nat) : ∀ (n : Nat) (ix : Index)
    (row : Nat → List IdxId) (level : Nat) (curr : IdxId) (points : List (IdxId × Option IdxId)),
    Descending v rank hn key ix top hd row level curr points →
    (∀ ix' points', descend v key fuel n ix (hd level) curr level points = some (ix', points') →
      ∃ row', Searched v rank hn key ix ix' top hd row row' points')
    ∧ (level < n → (∀ l ≤ top, (row l).length < fuel) →
      (descend v key fuel n ix (hd level) curr level points).isSome)
  | 0, _, _, _, _, _, _ => by simp [descend]
  | n + 1, ix, row, level, curr, points, hD => by
    obtain ⟨h1, h2⟩ := walkUntil_row hD.shape hbot hD.le hD.mem hD.live hD.below hD.shielded fuel
      (hd level) fuel
    simp only [descend, hD.live, Bool.not_true, Bool.false_eq_true, if_false]
    rcases hw : walkUntil v key fuel (hd level) fuel ix curr with _ | x
    · refine ⟨fun _ _ h => by simp at h, fun _ hf => ?_⟩
      have h3 := h2 (hf level hD.le) (by have := hf level hD.le; omega)
      rw [hw] at h3
      simp at h3
    obtain ⟨ix', rl, prev, next, rfl, hW⟩ := h1 x hw
    have hpts := hD.points hW
    have hprev : prev ∈ Function.update row level rl level := by simpa using hW.point.mem
    simp only [hW.point.live, Bool.not_true, Bool.false_eq_true, if_false]
    rcases level with _ | level
    · -- the bottom level: the search ends
      simp only [hW.shape.down_zero prev hprev]
      refine ⟨fun ix'' points' h => ?_, fun _ _ => rfl⟩
      simp only [Option.some.injEq, Prod.mk.injEq] at h
      obtain ⟨rfl, rfl⟩ := h
      refine ⟨Function.update row 0 rl, Searched.of_walked hD.le hW ⟨hW.shape, fun _ => rfl, rfl,
        fun _ _ => rfl, fun _ _ => .refl _, fun _ _ _ hi _ => hi, ?_, fun l hl => ?_,
        fun l hl => (hpts l (Nat.zero_le l) hl).2⟩⟩
      · rw [List.length_cons, hD.length, Nat.sub_zero]
      · exact (hpts l (Nat.zero_le l) hl).1
    · obtain ⟨d, hd1, hd2, hd3⟩ := hW.shape.down_succ level hD.le prev hprev
      have hlh : (ix'.nodes (hd (level + 1))).down.getD (hd (level + 1)) = hd level := by
        rw [hW.shape.hd_down level hD.le]
        rfl
      have hrow : Function.update row (level + 1) rl level = row level := by simp
      have hD' : Descending v rank hn key ix' top hd (Function.update row (level + 1) rl) level d
          ((prev, next) :: points) := by
        refine ⟨hW.shape, by have := hD.le; omega, hd1, ?_, ?_, fun hlt => ?_, ?_,
          fun l hl1 hl2 => ?_, fun l hl1 hl2 => ?_⟩
        · simp only [Index.live, hd3]
          exact hW.point.live
        · rw [hd3]
          exact hW.point.below
        · rw [hrow]
          simpa using hW.shielded hD.le hd3
        · rw [List.length_cons, hD.length]
          have := hD.le
          omega
        · have := (hpts l hl1 hl2).1
          rwa [show l - (level + 1) = l - level - 1 by omega] at this
        · exact (hpts l hl1 hl2).2
      simp only [hd2, hlh]
      obtain ⟨ih1, ih2⟩ := descend_spec hbot fuel n ix' _ level d _ hD'
      refine ⟨fun ix'' points' h => ?_, fun hn hf => ih2 (by omega) fun l hl => ?_⟩
      · obtain ⟨row', hS⟩ := ih1 ix'' points' h
        exact ⟨row', Searched.of_walked hD.le hW hS⟩
      · by_cases he : l = level + 1
        · subst he
          simp only [Function.update_self]
          exact lt_of_le_of_lt hW.sub.length_le (hf _ hl)
        · simpa [he] using hf l hl

theorem findInsertionPoints_spec (key : K) (h : Shape v rank hn ix top hd row) (hbot : rank hn = ⊥)
    (hlive : v.live hn = true) (fuel : Nat) :
    (∀ ix' points, findInsertionPoints v key fuel ix = some (ix', points) →
      ∃ row', Searched v rank hn key ix ix' top hd row row' points)
    ∧ (top < fuel → (∀ l ≤ top, (row l).length < fuel) →
      (findInsertionPoints v key fuel ix).isSome) := by
  have hD : Descending v rank hn key ix top hd row top (hd top) [] := by
    refine ⟨h, le_rfl, h.hd_mem le_rfl, ?_, ?_, fun hlt => absurd hlt (lt_irrefl _), by simp,
      fun l h1 h2 => absurd h1 (by omega), fun l h1 h2 => absurd h1 (by omega)⟩
    · simp only [Index.live, h.hd_node top le_rfl]
      exact hlive
    · rw [h.hd_node top le_rfl, hbot]
      exact WithBot.bot_lt_coe key
  simp only [findInsertionPoints, h.top_eq, h.hd_level top le_rfl]
  exact descend_spec hbot fuel fuel ix row top (hd top) [] hD

end Descend

end Shape

end Index

end TxList
