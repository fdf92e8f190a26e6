import TxList.System

/-!
# List phases and index phases

The calls that update the index split in two: up to the unlocks they work on the list, and after that
they bring the index up to date. Here the list phase is one step, and so is each call of `add` and of
`remove` on an index after it; the threads' steps come in any order. Calls that update no index are one
step.
-/

namespace TxList

variable {K V : Type} [LinearOrder K] {m : Nat}

/-- A call on a list's index. -/
inductive IndexCall (m : Nat) where
  | add (l : ListId m) (n : NodeId)
  | remove (l : ListId m) (n : NodeId)
  deriving DecidableEq, Repr

/-- The calls of `TXend` on the indexes. -/
def LocalStorage.indexCalls (s : LocalStorage V m) : List (IndexCall m) :=
  (List.finRange m).flatMap (fun l => (s.indexAdd l).map (.add l)) ++
    (List.finRange m).flatMap fun l => (s.indexRemove l).map (.remove l)

/-- A call up to its index phase, with the index calls it has still to make. -/
def listPhase (ch : Choice) : Op K V m → Call K V m (Ret V × List (IndexCall m))
  | .put l key val => do
    if (← get).transaction.TX then return (.val (← putTX ch.fuel l key val), [])
    else
      let (ret, x) ← putSingletonLoopWith (fun n => return .add l n) ch.fuel l key val ch.fuel
      return (.val ret, x.toList)
  | .remove l key => do
    if (← get).transaction.TX then return (.val (← removeTX ch.fuel l key), [])
    else
      let (ret, x) ← removeSingletonLoopWith (fun n => return .remove l n) ch.fuel l key ch.fuel
      return (.val ret, x.toList)
  | .txEnd => do
    let c ← get
    let ret ← TXendWith (return ()) ch
    return (.bool ret, if c.transaction.readOnly then [] else c.storage.indexCalls)
  | op => return (← call ch op, [])

/-- An index call; what is removed is retired. -/
def IndexCall.run (ch : Choice) : IndexCall m → Call K V m Unit
  | .add l n => onIndex l fun v ix => (ix.add v ch.fuel (ch.level n) n).map (·, ())
  | .remove l n => do
    onIndex l fun v ix => (ix.remove v ch.fuel n).map (·, ())
    retire_node n

/-- The state, the index calls each thread has still to make, and those that have returned. -/
structure Phased (K V : Type) (m : Nat) where
  sys : Sys K V m
  todo : ThreadId → List (IndexCall m)
  returned : List (IndexCall m)

namespace Phased

def init (minKey : K) (dflt : V) : Phased K V m := ⟨Sys.init minKey dflt, fun _ => [], []⟩

/-- The state after the list phase of a call of thread `t`. -/
def afterList (s : Phased K V m) (t : ThreadId) (op : Op K V m) (ch : Choice) : Option (Phased K V m) :=
  match listPhase ch op (s.sys.ctx t) with
  | .ok (_, xs) c => some { s with sys := s.sys.put t c, todo := Function.update s.todo t xs }
  | .error .txAbort c => some { s with sys := s.sys.put t c }
  | .error _ _ => none

/-- The state after thread `t`'s next index call. -/
def afterIndex (s : Phased K V m) (t : ThreadId) (ch : Choice) : Option (Phased K V m) :=
  match s.todo t with
  | [] => none
  | x :: xs =>
    match x.run ch (s.sys.ctx t) with
    | .ok _ c => some ⟨s.sys.put t c, Function.update s.todo t xs, x :: s.returned⟩
    | .error _ _ => none

/-- What thread `t` does: with an operation, its list phase, and else its next index call. -/
inductive Step (s : Phased K V m) (t : ThreadId) : Option (Op K V m) → Phased K V m → Prop
  | list {op : Op K V m} {ch : Choice} {s' : Phased K V m} : s.todo t = [] →
      (op = .txEnd → ch.Orders (s.sys.threads t).storage) → s.afterList t op ch = some s' →
      Step s t (some op) s'
  | index {ch : Choice} {s' : Phased K V m} : s.afterIndex t ch = some s' → Step s t none s'

/-- A property of a step: the state before it, the thread, the operation if any. -/
abbrev Guard (K V : Type) (m : Nat) := Phased K V m → ThreadId → Option (Op K V m) → Prop

inductive Reach (minKey : K) (dflt : V) (G : Guard K V m) : Phased K V m → Prop
  | init : Reach minKey dflt G (init minKey dflt)
  | step {s s' : Phased K V m} {t : ThreadId} {o : Option (Op K V m)} :
      Reach minKey dflt G s → G s t o → s.Step t o s' → Reach minKey dflt G s'

/-- Once both the `add` of a node and its `remove` have returned, no level of the index holds it. -/
def Forgets (s : Phased K V m) : Prop :=
  ∀ l n, .add l n ∈ s.returned → .remove l n ∈ s.returned → ¬ (s.sys.shared.index l).Holds n

end Phased

/-- A node's `add` comes before its `remove`, and `remove` is called when the node can be taken out. -/
def Phased.InTurn : Phased.Guard K V m := fun s t o =>
  o = none → ∀ xs,
    (∀ l n, s.todo t = .add l n :: xs → .remove l n ∉ s.returned) ∧
    ∀ l n, s.todo t = .remove l n :: xs → ¬ (s.sys.shared.index l).Keeps s.sys.shared.view n

end TxList
