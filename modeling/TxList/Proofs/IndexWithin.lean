import TxList.Proofs.IndexFrame
import Mathlib.Data.Set.Insert

/-!
# The list nodes an index operation comes by

An operation starts at the index's heads and follows pointers. So it reads the list nodes only that
the index nodes it can get to stand for: it does the same whatever the others hold, and its new
pointers lead nowhere else.
-/

namespace TxList

variable {K : Type}

namespace Index

/-- The pointers of the index nodes `S` stay in `S`, and these stand for list nodes in `N`. The levels'
heads are in `H`, where `up` stays. -/
structure Within (N : Set NodeId) (S H : Set IdxId) (ix : Index) : Prop where
  node : ∀ i ∈ S, (ix.nodes i).node ∈ N
  top : ix.headTop ∈ S
  bottom : ix.headBottom ∈ H
  heads : H ⊆ S
  right : ∀ i ∈ S, ∀ j, (ix.nodes i).right = some j → j ∈ S
  down : ∀ i ∈ S, ∀ j, (ix.nodes i).down = some j → j ∈ S
  up : ∀ i ∈ H, ∀ j, (ix.nodes i).up = some j → j ∈ H

/-- The views agree on these list nodes. -/
def Agree (v v' : NodeView K) (N : Set NodeId) : Prop :=
  ∀ n ∈ N, v'.key n = v.key n ∧ v'.live n = v.live n

variable {N : Set NodeId} {S H : Set IdxId} {ix ix' : Index} {v v' : NodeView K} {i j : IdxId}
  {o : Option IdxId}

theorem Within.of_univ (h : ∀ i, (ix.nodes i).node ∈ N) : ix.Within N Set.univ Set.univ :=
  ⟨fun i _ => h i, trivial, trivial, fun _ _ => trivial, fun _ _ _ _ => trivial, fun _ _ _ _ => trivial,
    fun _ _ _ _ => trivial⟩

/-! ## The pointers stay inside -/

theorem Within.setRight (h : ix.Within N S H) (i : IdxId) (ho : ∀ j, o = some j → j ∈ S) :
    (ix.setRight i o).Within N S H := by
  refine ⟨fun k hk => ?_, h.top, h.bottom, h.heads, fun k hk j hj => ?_, fun k hk j hj => ?_,
    fun k hk j hj => ?_⟩
  · rw [(sameNodes_setRight i o).node]
    exact h.node k hk
  · by_cases hki : k = i
    · subst hki
      exact ho j (by simpa [Index.setRight, setNode] using hj)
    · exact h.right k hk j (by simpa [Index.setRight, setNode, hki] using hj)
  · rw [(sameNodes_setRight i o).down] at hj
    exact h.down k hk j hj
  · refine h.up k hk j ?_
    by_cases hki : k = i
    · subst hki
      simpa [Index.setRight, setNode] using hj
    · simpa [Index.setRight, setNode, hki] using hj

theorem Within.casRight (h : ix.Within N S H) (i : IdxId) (cmp : Option IdxId)
    (ho : ∀ j, o = some j → j ∈ S) : (ix.casRight i cmp o).1.Within N S H := by
  simp only [Index.casRight]
  split_ifs
  · exact h.setRight i ho
  · exact h

theorem Within.link (h : ix.Within N S H) (i : IdxId) (ho : ∀ j, o = some j → j ∈ S) (hj : j ∈ S) :
    (ix.link v i o j).1.Within N S H := by
  simp only [Index.link]
  split_ifs
  · exact (h.setRight j ho).casRight i o fun k hk => Option.some.inj hk ▸ hj
  · exact h.setRight j ho

theorem Within.unlink (h : ix.Within N S H) (i : IdxId) (hj : j ∈ S) :
    (ix.unlink v i j).1.Within N S H := by
  simp only [Index.unlink]
  split_ifs
  · exact h.casRight i (some j) (h.right j hj)
  · exact h

/-- A new index node. -/
theorem Within.alloc (h : ix.Within N S H) {x : IndexNode} (hx : x.node ∈ N)
    (hr : ∀ j, x.right = some j → j ∈ S) (hd : ∀ j, x.down = some j → j ∈ S) (hu : x.up = none) :
    ({ ix.setNode ix.fresh x with fresh := ix.fresh + 1 } : Index).Within N (insert ix.fresh S) H := by
  have hnodes : ∀ k, Function.update ix.nodes ix.fresh x k = x ∨
      k ≠ ix.fresh ∧ Function.update ix.nodes ix.fresh x k = ix.nodes k := by
    intro k
    by_cases hk : k = ix.fresh
    · subst hk
      exact .inl (Function.update_self _ _ _)
    · exact .inr ⟨hk, Function.update_of_ne hk _ _⟩
  refine ⟨fun k hk => ?_, .inr h.top, h.bottom, fun k hk => .inr (h.heads hk), fun k hk j hj => .inr ?_,
    fun k hk j hj => .inr ?_, fun k hk j hj => ?_⟩
  · show (Function.update ix.nodes ix.fresh x k).node ∈ N
    rcases hnodes k with he | ⟨hne, he⟩ <;> rw [he]
    · exact hx
    · exact h.node k (hk.resolve_left hne)
  · change (Function.update ix.nodes ix.fresh x k).right = some j at hj
    rcases hnodes k with he | ⟨hne, he⟩ <;> rw [he] at hj
    · exact hr j hj
    · exact h.right k (hk.resolve_left hne) j hj
  · change (Function.update ix.nodes ix.fresh x k).down = some j at hj
    rcases hnodes k with he | ⟨hne, he⟩ <;> rw [he] at hj
    · exact hd j hj
    · exact h.down k (hk.resolve_left hne) j hj
  · change (Function.update ix.nodes ix.fresh x k).up = some j at hj
    rcases hnodes k with he | ⟨-, he⟩ <;> rw [he] at hj
    · rw [hu] at hj
      simp at hj
    · exact h.up k hk j hj

theorem Within.createNewIndexNodes {n : NodeId} (hn : n ∈ N) : ∀ (count : Nat) (down : Option IdxId)
    {ix : Index} {S : Set IdxId}, ix.Within N S H → (∀ j, down = some j → j ∈ S) →
    ∃ S', S ⊆ S' ∧ (ix.createNewIndexNodes n count down).1.Within N S' H ∧
      ∀ i ∈ (ix.createNewIndexNodes n count down).2, i ∈ S'
  | 0, _, _, S, h, _ => ⟨S, subset_rfl, h, fun i hi => by simp [Index.createNewIndexNodes] at hi⟩
  | count + 1, down, ix, S, h, hd => by
    have hnew := h.alloc (x := { node := n, down := down }) hn (fun j hj => by simp at hj) hd rfl
    obtain ⟨S', hS, hw, hids⟩ := Within.createNewIndexNodes hn count (some ix.fresh) hnew
      fun j hj => .inl (Option.some.inj hj).symm
    refine ⟨S', (Set.subset_insert _ _).trans hS, hw, fun i hi => ?_⟩
    rcases List.mem_cons.1 hi with rfl | hi
    · exact hS (.inl rfl)
    · exact hids i hi

theorem Within.setUp (h : ix.Within N S H) (i : IdxId) (ho : i ∈ H → ∀ j, o = some j → j ∈ H) :
    (ix.setUp i o).Within N S H := by
  refine ⟨fun k hk => ?_, h.top, h.bottom, h.heads, fun k hk j hj => ?_, fun k hk j hj => ?_,
    fun k hk j hj => ?_⟩
  · rw [(sameNodes_setUp i o).node]
    exact h.node k hk
  · refine h.right k hk j ?_
    by_cases hki : k = i
    · subst hki
      simpa [Index.setUp, setNode] using hj
    · simpa [Index.setUp, setNode, hki] using hj
  · rw [(sameNodes_setUp i o).down] at hj
    exact h.down k hk j hj
  · by_cases hki : k = i
    · subst hki
      exact ho hk j (by simpa [Index.setUp, setNode] using hj)
    · exact h.up k hk j (by simpa [Index.setUp, setNode, hki] using hj)

/-- The top head may become any other index node of them. -/
theorem Within.casHead (h : ix.Within N S H) {cmp val : IdxId} {up b : Bool} (hval : val ∈ S)
    (hc : ix.casHead cmp val up = some (ix', b)) : ∃ H', ix'.Within N S H' := by
  simp only [Index.casHead] at hc
  split_ifs at hc with htop hup hnew <;> simp only [Option.some.injEq, Prod.mk.injEq] at hc <;>
    obtain ⟨rfl, -⟩ := hc
  · -- the head below leads up to the new one, which leads up no further
    have hH : ix.Within N S (insert val H) := by
      refine { h with
        bottom := .inr h.bottom
        heads := Set.insert_subset hval h.heads
        up := fun k hk j hj => ?_ }
      rcases hk with rfl | hk
      · rw [hnew.2] at hj
        simp at hj
      · exact .inr (h.up k hk j hj)
    exact ⟨_, { hH.setUp cmp (fun _ j hj => .inl (Option.some.inj hj).symm) with top := hval }⟩
  · exact ⟨H, { h.setUp val (fun _ j hj => by simp at hj) with top := hval }⟩
  · exact ⟨H, h⟩

theorem Within.tryReduceLevel (h : ix.Within N S H) (hr : ix.tryReduceLevel = some ix') :
    ∃ H', ix'.Within N S H' := by
  simp only [Index.tryReduceLevel] at hr
  split_ifs at hr
  · obtain rfl := Option.some.inj hr
    exact ⟨H, h⟩
  split at hr
  · simp at hr
  rename_i d hd
  have hdS := h.down _ h.top d hd
  split at hr
  · obtain rfl := Option.some.inj hr
    exact ⟨H, h⟩
  split_ifs at hr
  · split at hr
    · simp at hr
    · rename_i hc
      obtain rfl := Option.some.inj hr
      exact h.casHead hdS hc
    · rename_i ix₁ hc
      obtain ⟨H₁, h₁⟩ := h.casHead hdS hc
      split_ifs at hr
      · obtain rfl := Option.some.inj hr
        exact ⟨H₁, h₁⟩
      · simp only [Option.map_eq_some_iff, Prod.exists] at hr
        obtain ⟨ix₂, b, hc', rfl⟩ := hr
        exact h₁.casHead h.top hc'
  · obtain rfl := Option.some.inj hr
    exact ⟨H, h⟩

/-! ## What the operations read of the list nodes -/

theorem Agree.live (hv : Agree v v' N) (h : ix.Within N S H) (hi : i ∈ S) :
    ix.live v' i = ix.live v i := (hv _ (h.node i hi)).2

theorem Agree.unlink (hv : Agree v v' N) (h : ix.Within N S H) (hi : i ∈ S) :
    ix.unlink v' i j = ix.unlink v i j := by
  simp only [Index.unlink, hv.live h hi]

theorem Agree.link (hv : Agree v v' N) (h : ix.Within N S H) (hi : i ∈ S)
    (ho : ∀ j, o = some j → j ∈ S) : ix.link v' i o j = ix.link v i o j := by
  simp only [Index.link, hv.live (h.setRight j ho) hi]

variable [LinearOrder K]

/-- The walk ends at an index node of `S`, as does what it stopped before. -/
theorem Within.walkLevel (hv : Agree v v' N) (key : K) : ∀ (fuel : Nat) {ix : Index} {q : IdxId},
    ix.Within N S H → q ∈ S → walkLevel v' key fuel ix q = walkLevel v key fuel ix q ∧
      ∀ ix' r, walkLevel v key fuel ix q = some (ix', r) → ix'.Within N S H ∧
        ∀ p o, r = some (p, o) → p ∈ S ∧ ∀ j, o = some j → j ∈ S
  | 0, _, _, _, _ => ⟨rfl, fun _ _ h => by simp [Index.walkLevel] at h⟩
  | fuel + 1, ix, q, h, hq => by
    have hstop : ∀ {o : Option IdxId}, (∀ j, o = some j → j ∈ S) → ∀ ix' r,
        some (ix, some (q, o)) = some (ix', r) → ix'.Within N S H ∧
          ∀ p o, r = some (p, o) → p ∈ S ∧ ∀ j, o = some j → j ∈ S := by
      rintro o ho _ _ ⟨⟩
      refine ⟨h, ?_⟩
      rintro _ _ ⟨⟩
      exact ⟨hq, ho⟩
    simp only [Index.walkLevel]
    rcases hr : (ix.nodes q).right with _ | r
    · exact ⟨rfl, hstop fun j hj => by simp at hj⟩
    have hrS := h.right q hq r hr
    have hun : (ix.unlink v q r).1.Within N S H := h.unlink q hrS
    simp only [hv.live h hrS, hv.unlink h hq, (hv _ (h.node r hrS)).1]
    split_ifs
    · rcases hu : ix.unlink v q r with ⟨ix₁, _ | _⟩ <;> rw [hu] at hun
      · refine ⟨rfl, ?_⟩
        rintro _ _ ⟨⟩
        exact ⟨hun, fun p o hp => by simp at hp⟩
      · exact Within.walkLevel hv key fuel hun hq
    · exact Within.walkLevel hv key fuel h hrS
    · exact ⟨rfl, hstop fun j hj => Option.some.inj hj ▸ hrS⟩

theorem Within.walkUntil (hv : Agree v v' N) (key : K) (fuel : Nat) {levelHead : IdxId}
    (hl : levelHead ∈ S) : ∀ (n : Nat) {ix : Index} {curr : IdxId}, ix.Within N S H → curr ∈ S →
      walkUntil v' key fuel levelHead n ix curr = walkUntil v key fuel levelHead n ix curr ∧
      ∀ ix' c p o, walkUntil v key fuel levelHead n ix curr = some (ix', c, p, o) →
        ix'.Within N S H ∧ c ∈ S ∧ p ∈ S ∧ ∀ j, o = some j → j ∈ S
  | 0, _, _, _, _ => ⟨rfl, fun _ _ _ _ h => by simp [Index.walkUntil] at h⟩
  | n + 1, ix, curr, h, hc => by
    obtain ⟨he, hw⟩ := Within.walkLevel hv key fuel h hc
    simp only [Index.walkUntil, he]
    rcases hx : Index.walkLevel v key fuel ix curr with _ | ⟨ix₁, _ | ⟨p, o⟩⟩
    · exact ⟨rfl, fun _ _ _ _ h => by simp at h⟩
    · exact Within.walkUntil hv key fuel hl n (hw _ _ hx).1 hl
    · obtain ⟨h₁, hp⟩ := hw _ _ hx
      refine ⟨rfl, ?_⟩
      rintro _ _ _ _ ⟨⟩
      exact ⟨h₁, hc, hp p o rfl⟩

/-- All these index nodes are in `S`. -/
def Points (S : Set IdxId) (points : List (IdxId × Option IdxId)) : Prop :=
  ∀ x ∈ points, x.1 ∈ S ∧ ∀ j, x.2 = some j → j ∈ S

theorem Within.descend (hv : Agree v v' N) (key : K) (fuel : Nat) : ∀ (n : Nat) {ix : Index}
    {levelHead curr : IdxId} {level : Nat} {points : List (IdxId × Option IdxId)},
    ix.Within N S H → levelHead ∈ S → curr ∈ S → Points S points →
      descend v' key fuel n ix levelHead curr level points =
        descend v key fuel n ix levelHead curr level points ∧
      ∀ ix' points', descend v key fuel n ix levelHead curr level points = some (ix', points') →
        ix'.Within N S H ∧ Points S points'
  | 0, _, _, _, _, _, _, _, _, _ => ⟨rfl, fun _ _ h => by simp [Index.descend] at h⟩
  | n + 1, ix, levelHead, curr, level, points, h, hl, hc, hp => by
    have hnil : Points S [] := fun _ hx => by simp at hx
    obtain ⟨he, hw⟩ := Within.walkUntil hv key fuel hl fuel h hc
    simp only [Index.descend, hv.live h hc, he]
    split_ifs
    · exact Within.descend hv key fuel n h h.top h.top hnil
    rcases hx : Index.walkUntil v key fuel levelHead fuel ix curr with _ | ⟨ix₁, c, p, o⟩
    · exact ⟨rfl, fun _ _ h => by simp at h⟩
    obtain ⟨h₁, hcS, hpS, hoS⟩ := hw _ _ _ _ hx
    have hpts : Points S ((p, o) :: points) := fun x hx => by
      rcases List.mem_cons.1 hx with rfl | hx
      · exact ⟨hpS, hoS⟩
      · exact hp x hx
    simp only [hv.live h₁ hpS]
    split_ifs
    · exact Within.descend hv key fuel n h₁ hl hcS hp
    rcases hd : (ix₁.nodes p).down with _ | d <;> rcases level with _ | level
    · refine ⟨rfl, ?_⟩
      rintro _ _ ⟨⟩
      exact ⟨h₁, hpts⟩
    · exact ⟨rfl, fun _ _ h => by simp at h⟩
    · exact Within.descend hv key fuel n h₁ h₁.top h₁.top hnil
    · refine Within.descend hv key fuel n h₁ ?_ (h₁.down p hpS d hd) hpts
      rcases hdl : (ix₁.nodes levelHead).down with _ | e
      · exact hl
      · exact h₁.down levelHead hl e hdl

theorem Within.findInsertionPoints (hv : Agree v v' N) (key : K) (fuel : Nat) (h : ix.Within N S H) :
    findInsertionPoints v' key fuel ix = findInsertionPoints v key fuel ix ∧
      ∀ ix' points, findInsertionPoints v key fuel ix = some (ix', points) →
        ix'.Within N S H ∧ Points S points :=
  Within.descend hv key fuel fuel h h.top h.top fun _ hx => by simp at hx

theorem Within.findPredecessor (hv : Agree v v' N) (key : K) (fuel : Nat) (h : ix.Within N S H) :
    findPredecessor v' key fuel ix = findPredecessor v key fuel ix ∧
      ∀ ix' p, findPredecessor v key fuel ix = some (ix', p) → ix'.Within N S H ∧ p ∈ N := by
  obtain ⟨he, hw⟩ := Within.findInsertionPoints hv key fuel h
  simp only [Index.findPredecessor, he]
  refine ⟨trivial, fun ix' p hp => ?_⟩
  split at hp
  · rename_i prev o rest hx
    obtain ⟨h₁, hpts⟩ := hw _ _ hx
    simp only [Option.some.injEq, Prod.mk.injEq] at hp
    obtain ⟨rfl, rfl⟩ := hp
    exact ⟨h₁, h₁.node prev (hpts (prev, o) (by simp)).1⟩
  · simp at hp

theorem Within.getPredLoop (hv : Agree v v' N) (key : K) (fuel : Nat) : ∀ (n : Nat) {ix : Index},
    ix.Within N S H → getPredLoop v' key fuel n ix = getPredLoop v key fuel n ix ∧
      ∀ ix' p, getPredLoop v key fuel n ix = some (ix', p) → ix'.Within N S H ∧ p ∈ N
  | 0, _, _ => ⟨rfl, fun _ _ h => by simp [Index.getPredLoop] at h⟩
  | n + 1, ix, h => by
    obtain ⟨he, hw⟩ := h.findPredecessor hv key fuel
    simp only [Index.getPredLoop, he]
    rcases hx : Index.findPredecessor v key fuel ix with _ | ⟨ix₁, b⟩
    · exact ⟨rfl, fun _ _ h => by simp at h⟩
    obtain ⟨h₁, hb⟩ := hw _ _ hx
    simp only [(hv b hb).2]
    split_ifs
    · refine ⟨rfl, ?_⟩
      rintro _ _ ⟨⟩
      exact ⟨h₁, hb⟩
    · exact Within.getPredLoop hv key fuel n h₁

theorem Within.getPred (hv : Agree v v' N) (key : K) (fuel : Nat) (h : ix.Within N S H) :
    ix.getPred v' key fuel = ix.getPred v key fuel ∧
      ∀ ix' p, ix.getPred v key fuel = some (ix', p) → ix'.Within N S H ∧ p ∈ N :=
  Within.getPredLoop hv key fuel fuel h

theorem Within.remove (hv : Agree v v' N) (fuel : Nat) {n : NodeId} (h : ix.Within N S H)
    (hn : n ∈ N) : ix.remove v' fuel n = ix.remove v fuel n ∧
      ∀ ix', ix.remove v fuel n = some ix' → ∃ H', ix'.Within N S H' := by
  obtain ⟨he, hw⟩ := h.findPredecessor hv (v.key n) fuel
  simp only [Index.remove, (hv n hn).1, he]
  refine ⟨trivial, fun ix' hr => ?_⟩
  split at hr
  · simp at hr
  rename_i hx
  have h₁ := (hw _ _ hx).1
  split_ifs at hr
  · exact h₁.tryReduceLevel hr
  · obtain rfl := Option.some.inj hr
    exact ⟨H, h₁⟩

theorem Within.insertInLevel (hv : Agree v v' N) (fuel : Nat) {newNode head : IdxId}
    (hnew : newNode ∈ S) (hhead : head ∈ S) : ∀ (n : Nat) {ix : Index} {prev : IdxId}
    {next : Option IdxId}, ix.Within N S H → prev ∈ S → (∀ j, next = some j → j ∈ S) →
      insertInLevel v' fuel newNode head n ix prev next =
        insertInLevel v fuel newNode head n ix prev next ∧
      ∀ ix' b, insertInLevel v fuel newNode head n ix prev next = some (ix', b) →
        ix'.Within N S H
  | 0, _, _, _, _, _, _ => ⟨rfl, fun _ _ h => by simp [Index.insertInLevel] at h⟩
  | n + 1, ix, prev, next, h, hp, hnext => by
    have hl : (ix.link v prev next newNode).1.Within N S H := h.link prev hnext hnew
    simp only [Index.insertInLevel, hv.link h hp hnext]
    rcases hx : ix.link v prev next newNode with ⟨ix₁, _ | _⟩ <;> rw [hx] at hl
    · dsimp only at hl ⊢
      obtain ⟨he, hw⟩ := Within.walkUntil hv (v.key (ix₁.nodes newNode).node) fuel hhead fuel hl hhead
      simp only [hv.live hl hnew, (hv _ (hl.node newNode hnew)).1, he]
      split_ifs
      · refine ⟨rfl, ?_⟩
        rintro _ _ ⟨⟩
        exact hl
      rcases hy : Index.walkUntil v (v.key (ix₁.nodes newNode).node) fuel head fuel ix₁ head with
        _ | ⟨ix₂, c, p, o⟩
      · exact ⟨rfl, fun _ _ h => by simp at h⟩
      · obtain ⟨h₂, -, hpS, hoS⟩ := hw _ _ _ _ hy
        exact Within.insertInLevel hv fuel hnew hhead n h₂ hpS hoS
    · refine ⟨rfl, ?_⟩
      rintro _ _ ⟨⟩
      exact hl

theorem Within.insertLevels (hv : Agree v v' N) (fuel level : Nat) {idxs : List IdxId}
    {points : List (IdxId × Option IdxId)} (hidxs : ∀ i ∈ idxs, i ∈ S) (hpts : Points S points) :
    ∀ (n : Nat) {ix : Index} {head : Option IdxId} (linked : Nat), ix.Within N S H →
      (∀ i, head = some i → i ∈ H) →
      insertLevels v' fuel idxs points level n ix head linked =
        insertLevels v fuel idxs points level n ix head linked ∧
      ∀ ix' r, insertLevels v fuel idxs points level n ix head linked = some (ix', r) →
        ix'.Within N S H
  | 0, _, _, _, _, _ => ⟨rfl, fun _ _ h => by simp [Index.insertLevels] at h⟩
  | n + 1, ix, none, _, h, _ => by
    refine ⟨rfl, ?_⟩
    rintro _ _ ⟨⟩
    exact h
  | n + 1, ix, some head, linked, h, hh => by
    have hhead := hh head rfl
    simp only [Index.insertLevels]
    split_ifs
    · rcases hi : idxs[(ix.nodes head).level]? with _ | i
      · exact ⟨rfl, fun _ _ h => by simp at h⟩
      rcases hx : points[(ix.nodes head).level]? with _ | ⟨prev, next⟩
      · exact ⟨rfl, fun _ _ h => by simp at h⟩
      have hiS := hidxs i (List.mem_of_getElem? hi)
      obtain ⟨hp, hn⟩ := hpts _ (List.mem_of_getElem? hx)
      obtain ⟨he, hw⟩ := Within.insertInLevel hv fuel hiS (h.heads hhead) fuel h hp hn
      simp only [he]
      rcases hy : Index.insertInLevel v fuel i head fuel ix prev next with _ | ⟨ix₁, _ | _⟩
      · exact ⟨rfl, fun _ _ h => by simp at h⟩
      · refine ⟨rfl, ?_⟩
        rintro _ _ ⟨⟩
        exact hw _ _ hy
      · have h₁ := hw _ _ hy
        exact Within.insertLevels hv fuel level hidxs hpts n _ h₁ fun j hj => h₁.up head hhead j hj
    · refine ⟨rfl, ?_⟩
      rintro _ _ ⟨⟩
      exact h

theorem Within.add (hv : Agree v v' N) (fuel drawn : Nat) {n : NodeId} (h : ix.Within N S H)
    (hn : n ∈ N) : ix.add v' fuel drawn n = ix.add v fuel drawn n ∧
      ∀ ix', ix.add v fuel drawn n = some ix' → ∃ S' H', S ⊆ S' ∧ ix'.Within N S' H' := by
  obtain ⟨he, hw⟩ := h.findInsertionPoints hv (v.key n) fuel
  simp only [Index.add, (hv n hn).1, he]
  rcases hx : Index.findInsertionPoints v (v.key n) fuel ix with _ | ⟨ix₁, points⟩
  · exact ⟨rfl, fun _ h => by simp at h⟩
  obtain ⟨h₁, hpts⟩ := hw _ _ hx
  obtain ⟨S₂, hS₂, h₂, hidxs⟩ := h₁.createNewIndexNodes hn (min drawn (points.length + 1) + 1) none
    fun j hj => by simp at hj
  rcases hcr : ix₁.createNewIndexNodes n (min drawn (points.length + 1) + 1) none with ⟨ix₂, idxs⟩
  rw [hcr] at h₂ hidxs
  have hpts₂ : Points S₂ points := fun x hx => ⟨hS₂ (hpts x hx).1, fun j hj => hS₂ ((hpts x hx).2 j hj)⟩
  obtain ⟨he', hw'⟩ := h₂.insertLevels hv fuel (min drawn (points.length + 1)) hidxs hpts₂ fuel 0
    fun i hi => Option.some.inj hi ▸ h₂.bottom
  simp only [hcr, he']
  refine ⟨trivial, fun ix' hadd => ?_⟩
  split at hadd
  · simp at hadd
  · rename_i hy
    obtain rfl := Option.some.inj hadd
    exact ⟨S₂, H, hS₂, hw' _ _ hy⟩
  · rename_i ix₃ linked hy
    have h₃ := hw' _ _ hy
    split_ifs at hadd
    · obtain rfl := Option.some.inj hadd
      exact ⟨S₂, H, hS₂, h₃⟩
    · obtain rfl := Option.some.inj hadd
      exact ⟨S₂, H, hS₂, h₃⟩
    · -- a new top level over the old one
      simp only [Option.map_eq_some_iff, Prod.exists] at hadd
      obtain ⟨ix₄, b, hc, rfl⟩ := hadd
      have hnew := h₃.alloc (x := ⟨(ix₃.nodes ix₃.headTop).node, idxs[(ix₃.nodes ix₃.headTop).level + 1]?,
        some ix₃.headTop, (ix₃.nodes ix₃.headTop).level + 1, none⟩) (h₃.node _ h₃.top)
        (fun j hj => hidxs j (List.mem_of_getElem? hj)) (fun j hj => Option.some.inj hj ▸ h₃.top) rfl
      obtain ⟨H', h₄⟩ := hnew.casHead (.inl rfl) hc
      exact ⟨_, H', hS₂.trans (Set.subset_insert _ _), h₄⟩
    · obtain rfl := Option.some.inj hadd
      exact ⟨S₂, H, hS₂, h₃⟩

end Index

end TxList
