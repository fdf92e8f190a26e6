import TxList.Contents

/-!
# The index on its own

An index used by one caller at a time. Nodes are added, each at whatever level is drawn, lose their
values, are removed and are searched for, in any order; a key whose node has lost its value may be
added again before that node is removed.
-/

namespace TxList

open Chain

variable {K : Type} [LinearOrder K]

/-- The index laid out by levels: `hd l` is the head of level `l`, and `row l` are the index nodes
after it. -/
structure Index.Levels (ix : Index) (key : NodeId → K) (hn : NodeId) (top : Nat) (hd : Nat → IdxId)
    (row : Nat → List IdxId) : Prop where
  headTop : ix.headTop = hd top
  headBottom : ix.headBottom = hd 0
  level : ∀ l ≤ top, (ix.nodes (hd l)).level = l
  head_node : ∀ l ≤ top, (ix.nodes (hd l)).node = hn
  head_down : ∀ l < top, (ix.nodes (hd (l + 1))).down = some (hd l)
  head_up : ∀ l < top, (ix.nodes (hd l)).up = some (hd (l + 1))
  top_up : (ix.nodes (hd top)).up = none
  bottom_down : ∀ i ∈ hd 0 :: row 0, (ix.nodes i).down = none
  path : ∀ l ≤ top, Path (fun i => (ix.nodes i).right) (hd l :: row l)
  increasing : ∀ l ≤ top, (row l).Pairwise fun i j => key (ix.nodes i).node < key (ix.nodes j).node
  down : ∀ l < top, ∀ i ∈ row (l + 1), ∃ j ∈ row l, (ix.nodes i).down = some j ∧
    (ix.nodes j).node = (ix.nodes i).node

/-- The level of the top head. -/
def Index.topLevel (ix : Index) : Nat := (ix.nodes ix.headTop).level

/-- The node has lost its value. -/
def NodeView.clear (v : NodeView K) (n : NodeId) : NodeView K :=
  { v with live := Function.update v.live n false }

/-- An index, what it reads of the list nodes, and the nodes added to it so far. -/
structure Indexing (K : Type) where
  view : NodeView K
  index : Index
  added : Finset NodeId

namespace Indexing

variable (hn : NodeId)

/-- The index as constructed on the head node. -/
def new (v : NodeView K) : Indexing K := ⟨v, Index.new hn, ∅⟩

/-- The node's key is that of no live node of the index. -/
def MayAdd (s : Indexing K) (n : NodeId) : Prop :=
  n ≠ hn ∧ ∀ a ∈ s.added, s.view.live a = true → s.view.key a ≠ s.view.key n

/-- One operation. -/
inductive Step (s : Indexing K) : Indexing K → Prop
  | add {n : NodeId} {fuel drawn : Nat} {ix : Index} : s.MayAdd hn n →
      s.index.add s.view fuel drawn n = some ix →
      Step s { s with index := ix, added := insert n s.added }
  | clear {n : NodeId} : n ∈ s.added → Step s { s with view := s.view.clear n }
  | remove {n : NodeId} {fuel : Nat} {ix : Index} : n ∈ s.added → s.view.live n = false →
      s.index.remove s.view fuel n = some ix → Step s { s with index := ix }
  | getPred {key : K} {fuel : Nat} {ix : Index} {p : NodeId} :
      s.index.getPred s.view key fuel = some (ix, p) → Step s { s with index := ix }

/-- The states that operations one after another lead to from the index as constructed. -/
inductive Reach (v : NodeView K) : Indexing K → Prop
  | new : Reach v (new hn v)
  | step {s s' : Indexing K} : Reach v s → s.Step hn s' → Reach v s'

/-- `p` has the greatest key below `key` among the live nodes added, or is the head when none of
them has a key below it. -/
def Below (s : Indexing K) (key : K) (p : NodeId) : Prop :=
  (p = hn ∨ p ∈ s.added ∧ s.view.live p = true ∧ s.view.key p < key) ∧
    ∀ a ∈ s.added, s.view.live a = true → s.view.key a < key →
      p ≠ hn ∧ s.view.key a ≤ s.view.key p

/-- The levels are in order and hold what they should, and every operation ends, and ends as it
should. -/
structure Correct (s : Indexing K) : Prop where
  levels : ∃ top hd row, s.index.Levels s.view.key hn top hd row ∧
    ∀ n ∈ s.added, s.view.live n = true → ∃ i ∈ row 0, (s.index.nodes i).node = n
  add : ∀ n drawn, s.MayAdd hn n →
    (∀ fuel ix, s.index.add s.view fuel drawn n = some ix → ix.topLevel ≤ s.index.topLevel + 1) ∧
      ∃ N, ∀ fuel, N ≤ fuel → (s.index.add s.view fuel drawn n).isSome = true
  remove : ∀ n ∈ s.added, s.view.live n = false →
    (∀ fuel ix, s.index.remove s.view fuel n = some ix → ¬ ix.Holds n) ∧
      ∃ N, ∀ fuel, N ≤ fuel → (s.index.remove s.view fuel n).isSome = true
  getPred : ∀ key,
    (∀ fuel ix p, s.index.getPred s.view key fuel = some (ix, p) → s.Below hn key p) ∧
      ∃ N, ∀ fuel, N ≤ fuel → (s.index.getPred s.view key fuel).isSome = true

end Indexing

end TxList
