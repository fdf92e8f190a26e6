import TxList.Index
import Mathlib.Tactic.SplitIfs
import Mathlib.Tactic.Common

/-!
# The list nodes an index stands for

Whatever state an index is in, a search changes no index node's list node, and `add` brings in
none but the node it adds.
-/

namespace TxList

variable {K : Type}

/-- Both indexes have the same nodes, which stand for the same list nodes and lead to the same nodes
one level down. -/
structure Index.SameNodes (ix ix' : Index) : Prop where
  node : ∀ i, (ix'.nodes i).node = (ix.nodes i).node
  down : ∀ i, (ix'.nodes i).down = (ix.nodes i).down
  fresh : ix'.fresh = ix.fresh
  headTop : ix'.headTop = ix.headTop

namespace Index

variable {ix ix' ix'' : Index} {v : NodeView K}

theorem SameNodes.refl (ix : Index) : ix.SameNodes ix := ⟨fun _ => rfl, fun _ => rfl, rfl, rfl⟩

theorem SameNodes.trans (h : ix.SameNodes ix') (h' : ix'.SameNodes ix'') : ix.SameNodes ix'' :=
  ⟨fun i => (h'.node i).trans (h.node i), fun i => (h'.down i).trans (h.down i),
    h'.fresh.trans h.fresh, h'.headTop.trans h.headTop⟩

theorem sameNodes_setNode {i : IdxId} {x : IndexNode} (h : x.node = (ix.nodes i).node)
    (hd : x.down = (ix.nodes i).down) : ix.SameNodes (ix.setNode i x) := by
  refine ⟨fun j => ?_, fun j => ?_, rfl, rfl⟩ <;> by_cases hj : j = i
  · subst hj
    simpa [setNode] using h
  · simp [setNode, hj]
  · subst hj
    simpa [setNode] using hd
  · simp [setNode, hj]

theorem sameNodes_setRight (i : IdxId) (r : Option IdxId) : ix.SameNodes (ix.setRight i r) :=
  sameNodes_setNode rfl rfl

theorem sameNodes_setUp (i : IdxId) (r : Option IdxId) : ix.SameNodes (ix.setUp i r) :=
  sameNodes_setNode rfl rfl

theorem sameNodes_casRight (i : IdxId) (o o' : Option IdxId) :
    ix.SameNodes (ix.casRight i o o').1 := by
  simp only [casRight]
  split
  · exact sameNodes_setRight _ _
  · exact .refl _

theorem sameNodes_link (i : IdxId) (o : Option IdxId) (j : IdxId) :
    ix.SameNodes (ix.link v i o j).1 := by
  simp only [link]
  split
  · exact (sameNodes_setRight _ _).trans (sameNodes_casRight _ _ _)
  · exact sameNodes_setRight _ _

theorem sameNodes_unlink (i j : IdxId) : ix.SameNodes (ix.unlink v i j).1 := by
  simp only [unlink]
  split
  · exact sameNodes_casRight _ _ _
  · exact .refl _

theorem node_casHead {cmp val : IdxId} {up b : Bool} (h : ix.casHead cmp val up = some (ix', b))
    (i : IdxId) : (ix'.nodes i).node = (ix.nodes i).node := by
  simp only [casHead] at h
  split_ifs at h <;> simp only [Option.some.injEq, Prod.mk.injEq] at h <;> obtain ⟨rfl, -⟩ := h
  · exact (sameNodes_setUp _ _).node i
  · exact (sameNodes_setUp _ _).node i
  · rfl

theorem fresh_casHead {cmp val : IdxId} {up b : Bool} (h : ix.casHead cmp val up = some (ix', b)) :
    ix'.fresh = ix.fresh := by
  simp only [casHead] at h
  split_ifs at h <;> simp only [Option.some.injEq, Prod.mk.injEq] at h <;> obtain ⟨rfl, -⟩ := h <;> rfl

theorem node_tryReduceLevel (h : ix.tryReduceLevel = some ix') (i : IdxId) :
    (ix'.nodes i).node = (ix.nodes i).node := by
  simp only [tryReduceLevel] at h
  split_ifs at h with h3
  · obtain rfl := Option.some.inj h
    rfl
  split at h
  · simp at h
  split at h
  · obtain rfl := Option.some.inj h
    rfl
  split_ifs at h
  · split at h
    · simp at h
    · rename_i hc
      obtain rfl := Option.some.inj h
      exact node_casHead hc i
    · rename_i ix₁ hc
      have h1 := node_casHead hc i
      split_ifs at h
      · obtain rfl := Option.some.inj h
        exact h1
      · simp only [Option.map_eq_some_iff, Prod.exists] at h
        obtain ⟨ix₂, b, hc', rfl⟩ := h
        exact (node_casHead hc' i).trans h1
  · obtain rfl := Option.some.inj h
    rfl

variable [LinearOrder K]

theorem sameNodes_walkLevel {key : K} : ∀ {fuel : Nat} {ix ix' : Index} {q : IdxId}
    {r : Option (IdxId × Option IdxId)}, walkLevel v key fuel ix q = some (ix', r) → ix.SameNodes ix'
  | 0, _, _, _, _, h => by simp [walkLevel] at h
  | fuel + 1, ix, ix', q, r, h => by
    simp only [walkLevel] at h
    split at h
    · simp only [Option.some.injEq, Prod.mk.injEq] at h
      obtain ⟨rfl, -⟩ := h
      exact .refl _
    · rename_i r' _
      have hun : ix.SameNodes (ix.unlink v q r').1 := sameNodes_unlink q r'
      split_ifs at h
      · split at h <;> rename_i hu <;> rw [hu] at hun
        · exact hun.trans (sameNodes_walkLevel h)
        · simp only [Option.some.injEq, Prod.mk.injEq] at h
          obtain ⟨rfl, -⟩ := h
          exact hun
      · exact sameNodes_walkLevel h
      · simp only [Option.some.injEq, Prod.mk.injEq] at h
        obtain ⟨rfl, -⟩ := h
        exact .refl _

theorem sameNodes_walkUntil {key : K} {fuel : Nat} {levelHead : IdxId} : ∀ {n : Nat} {ix ix' : Index}
    {curr : IdxId} {r : IdxId × IdxId × Option IdxId},
    walkUntil v key fuel levelHead n ix curr = some (ix', r) → ix.SameNodes ix'
  | 0, _, _, _, _, h => by simp [walkUntil] at h
  | n + 1, ix, ix', curr, r, h => by
    simp only [walkUntil] at h
    split at h
    · simp at h
    · rename_i hw
      simp only [Option.some.injEq, Prod.mk.injEq] at h
      obtain ⟨rfl, -⟩ := h
      exact sameNodes_walkLevel hw
    · rename_i hw
      exact (sameNodes_walkLevel hw).trans (sameNodes_walkUntil h)

theorem sameNodes_descend {key : K} {fuel : Nat} : ∀ {n : Nat} {ix ix' : Index}
    {levelHead curr : IdxId} {level : Nat} {points points' : List (IdxId × Option IdxId)},
    descend v key fuel n ix levelHead curr level points = some (ix', points') → ix.SameNodes ix'
  | 0, _, _, _, _, _, _, _, h => by simp [descend] at h
  | n + 1, ix, ix', levelHead, curr, level, points, points', h => by
    simp only [descend] at h
    split_ifs at h
    · exact sameNodes_descend h
    split at h
    · simp at h
    rename_i hw
    refine (sameNodes_walkUntil hw).trans ?_
    split_ifs at h
    · exact sameNodes_descend h
    split at h
    · simp only [Option.some.injEq, Prod.mk.injEq] at h
      obtain ⟨rfl, -⟩ := h
      exact .refl _
    · simp at h
    · exact sameNodes_descend h
    · exact sameNodes_descend h

theorem sameNodes_findPredecessor {key : K} {fuel : Nat} {p : NodeId}
    (h : findPredecessor v key fuel ix = some (ix', p)) :
    ix.SameNodes ix' ∧ ∃ i, (ix.nodes i).node = p := by
  simp only [findPredecessor] at h
  split at h
  · rename_i hf
    have hs := sameNodes_descend hf
    simp only [Option.some.injEq, Prod.mk.injEq] at h
    obtain ⟨rfl, rfl⟩ := h
    exact ⟨hs, _, (hs.node _).symm⟩
  · simp at h

theorem sameNodes_getPredLoop {key : K} {fuel : Nat} : ∀ {n : Nat} {ix ix' : Index} {p : NodeId},
    getPredLoop v key fuel n ix = some (ix', p) → ix.SameNodes ix' ∧ ∃ i, (ix.nodes i).node = p
  | 0, _, _, _, h => by simp [getPredLoop] at h
  | n + 1, ix, ix', p, h => by
    simp only [getPredLoop] at h
    split at h
    · simp at h
    rename_i ix₁ b hf
    obtain ⟨h1, h2⟩ := sameNodes_findPredecessor hf
    split_ifs at h
    · simp only [Option.some.injEq, Prod.mk.injEq] at h
      obtain ⟨rfl, rfl⟩ := h
      exact ⟨h1, h2⟩
    · obtain ⟨h3, i, hi⟩ := sameNodes_getPredLoop h
      exact ⟨h1.trans h3, i, (h1.node i).symm.trans hi⟩

theorem node_remove {fuel : Nat} {n : NodeId} (h : remove v fuel n ix = some ix') (i : IdxId) :
    (ix'.nodes i).node = (ix.nodes i).node := by
  simp only [remove] at h
  split at h
  · simp at h
  rename_i hf
  refine Eq.trans ?_ ((sameNodes_findPredecessor hf).1.node i)
  split_ifs at h
  · exact node_tryReduceLevel h i
  · obtain rfl := Option.some.inj h
    rfl

theorem sameNodes_insertInLevel {fuel : Nat} {newNode head : IdxId} : ∀ {n : Nat} {ix ix' : Index}
    {prev : IdxId} {next : Option IdxId} {b : Bool},
    insertInLevel v fuel newNode head n ix prev next = some (ix', b) → ix.SameNodes ix'
  | 0, _, _, _, _, _, h => by simp [insertInLevel] at h
  | n + 1, ix, ix', prev, next, b, h => by
    have hl : ix.SameNodes (ix.link v prev next newNode).1 := sameNodes_link prev next newNode
    simp only [insertInLevel] at h
    split at h <;> rename_i he <;> rw [he] at hl
    · simp only [Option.some.injEq, Prod.mk.injEq] at h
      obtain ⟨rfl, -⟩ := h
      exact hl
    · refine hl.trans ?_
      split_ifs at h
      · simp only [Option.some.injEq, Prod.mk.injEq] at h
        obtain ⟨rfl, -⟩ := h
        exact .refl _
      · split at h
        · simp at h
        · rename_i hw
          exact (sameNodes_walkUntil hw).trans (sameNodes_insertInLevel h)

theorem sameNodes_insertLevels {fuel level : Nat} {idxs : List IdxId}
    {points : List (IdxId × Option IdxId)} : ∀ {n : Nat} {ix ix' : Index} {head : Option IdxId}
    {linked : Nat} {r : Option Nat},
    insertLevels v fuel idxs points level n ix head linked = some (ix', r) → ix.SameNodes ix'
  | 0, _, _, _, _, _, h => by simp [insertLevels] at h
  | n + 1, ix, ix', none, linked, r, h => by
    simp only [insertLevels, Option.some.injEq, Prod.mk.injEq] at h
    obtain ⟨rfl, -⟩ := h
    exact .refl _
  | n + 1, ix, ix', some head, linked, r, h => by
    simp only [insertLevels] at h
    split_ifs at h
    · split at h
      · split at h
        · simp at h
        · rename_i hi
          simp only [Option.some.injEq, Prod.mk.injEq] at h
          obtain ⟨rfl, -⟩ := h
          exact sameNodes_insertInLevel hi
        · rename_i hi
          exact (sameNodes_insertInLevel hi).trans (sameNodes_insertLevels h)
      · simp at h
    · simp only [Option.some.injEq, Prod.mk.injEq] at h
      obtain ⟨rfl, -⟩ := h
      exact .refl _

omit [LinearOrder K] in
theorem nodes_createNewIndexNodes (n : NodeId) (i : IdxId) : ∀ (count : Nat) (down : Option IdxId)
    (ix : Index), ((createNewIndexNodes n count down ix).1.nodes i).node = (ix.nodes i).node ∨
      ((createNewIndexNodes n count down ix).1.nodes i).node = n
  | 0, _, _ => .inl rfl
  | count + 1, down, ix => by
    simp only [createNewIndexNodes]
    rcases nodes_createNewIndexNodes n i count (some ix.fresh)
      { ix.setNode ix.fresh { node := n, down := down } with fresh := ix.fresh + 1 } with h | h
    · rw [h]
      by_cases he : i = ix.fresh
      · subst he
        exact .inr (by simp [setNode])
      · exact .inl (by simp [setNode, he])
    · exact .inr h

/-- The index nodes of `add` stand for the ones it found and the node it adds. -/
theorem nodes_add {fuel drawn : Nat} {n : NodeId} (h : add v fuel drawn n ix = some ix') (i : IdxId) :
    (∃ j, (ix'.nodes i).node = (ix.nodes j).node) ∨ (ix'.nodes i).node = n := by
  simp only [add] at h
  split at h
  · simp at h
  rename_i ix₁ points hf
  have h1 := sameNodes_descend hf
  split at h
  · simp at h
  · rename_i hi
    obtain rfl := Option.some.inj h
    rw [(sameNodes_insertLevels hi).node i]
    exact (nodes_createNewIndexNodes n i _ _ _).imp (fun h => ⟨i, h.trans (h1.node i)⟩) id
  · rename_i ix₂ _ hi
    have h2 : ∀ j, (∃ k, (ix₂.nodes j).node = (ix.nodes k).node) ∨ (ix₂.nodes j).node = n := by
      intro j
      rw [(sameNodes_insertLevels hi).node j]
      exact (nodes_createNewIndexNodes n j _ _ _).imp (fun h => ⟨j, h.trans (h1.node j)⟩) id
    split_ifs at h
    · obtain rfl := Option.some.inj h
      exact h2 i
    · obtain rfl := Option.some.inj h
      exact h2 i
    · simp only [Option.map_eq_some_iff, Prod.exists] at h
      obtain ⟨ix₃, b, hc, rfl⟩ := h
      rw [node_casHead hc i]
      by_cases he : i = ix₂.fresh
      · subst he
        simpa [setNode] using h2 _
      · simpa [setNode, he] using h2 i
    · obtain rfl := Option.some.inj h
      exact h2 i

end Index

end TxList
