import TxList.System
import TxList.IndexAdd

/-!
# Calls of `Index::add` side by side

Any number of calls of `add` on one index, each for a node that holds its value. The steps of a call are
`findInsertionPoints` together with the making of the new index nodes, the link on each level, the read of
`m_head_top`, and `casHead`.
-/

namespace TxList

/-- The index nodes that `m_right` leads to from `h`. -/
inductive Index.Rights (ix : Index) (h : IdxId) : IdxId → Prop
  | refl : Rights ix h h
  | step {i j : IdxId} : Rights ix h i → (ix.nodes i).right = some j → Rights ix h j

/-- The index nodes of a level point down to index nodes of the level below. -/
def Index.Nested (ix : Index) : Prop :=
  ∀ h h', ix.IsHead h → ix.IsHead h' → (ix.nodes h).level = (ix.nodes h').level + 1 →
    ∀ i, ix.Rights h i → ∃ j, (ix.nodes i).down = some j ∧ ix.Rights h' j

variable {K : Type} [LinearOrder K]

/-- One step: the index after it and what is left to do. -/
def AddPc.bigStep (v : NodeView K) (ix : Index) (n : NodeId) (fuel drawn : Nat) :
    AddPc → Option (Index × AddPc)
  | .search =>
    match ix.findInsertionPoints v (v.key n) fuel with
    | none => none
    | some (ix, points) =>
      let level := min drawn (points.length + 1)
      let (ix, idxs) := ix.createNewIndexNodes n (level + 1) none
      let head := ix.headBottom
      (loop ix { points, level, idxs, head } (some head)).map (ix, ·)
  | .link x newNode prev next =>
    match ix.insertInLevel v fuel newNode x.head fuel prev next with
    | none => none
    | some (ix, false) => some (ix, .gaveUp)
    | some (ix, true) =>
      (loop ix { x with linked := x.linked + 1 } (ix.nodes x.head).up).map (ix, ·)
  | .grow x => step v ix n drawn (.grow x)
  | .casHead x head => step v ix n drawn (.casHead x head)
  | _ => none

/-- What is left to do puts no level on top of a level that the call's node is not on. -/
def AddPc.TopLinked (ix : Index) : AddPc → Prop
  | .casHead x head => ix.headTop = head → (ix.nodes head).level < x.linked
  | _ => True

/-- The index, and for each thread the node it adds and what it has still to do. -/
structure Growing (K : Type) where
  index : Index
  node : ThreadId → NodeId
  pc : ThreadId → AddPc

namespace Growing

/-- The index as constructed, with no call yet. -/
def init (hn : NodeId) : Growing K := ⟨Index.new hn, fun _ => hn, fun _ => .returned⟩

/-- A thread calls `add`, or takes a step of its call. -/
inductive Step (v : NodeView K) (s : Growing K) (t : ThreadId) : Growing K → Prop
  | call {n : NodeId} : (s.pc t).isDone = true → v.live n = true →
      Step v s t { s with node := Function.update s.node t n, pc := Function.update s.pc t .search }
  | go {fuel drawn : Nat} {ix : Index} {k : AddPc} :
      (s.pc t).bigStep v s.index (s.node t) fuel drawn = some (ix, k) →
      Step v s t { s with index := ix, pc := Function.update s.pc t k }

/-- The states that steps meeting the guard lead to from the index as constructed. -/
inductive Reach (G : Growing K → ThreadId → Prop) (hn : NodeId) (v : NodeView K) : Growing K → Prop
  | init : Reach G hn v (init hn)
  | step {s s' : Growing K} {t : ThreadId} : Reach G hn v s → G s t → s.Step v t s' → Reach G hn v s'

/-- A call that is about to put a level on top of the top level has linked its node on the top level. -/
def TopLinked (s : Growing K) (t : ThreadId) : Prop := (s.pc t).TopLinked s.index

end Growing

end TxList
