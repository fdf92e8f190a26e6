import TxList.System
import TxList.Lib.Ends

/-!
# putIfAbsent as a singleton, and where a get reads its value

`putIfAbsentSingleton` inserts as `putSingleton` does, but leaves a node that it links at the end of
the list without a stamp. It reads the `key` and `val` of an `LNodeWrapper`, which has neither, for
the node's `m_key` and `m_val`.

A `get` in a transaction is told here with the node in whose memory it finds its value.
-/

namespace TxList

variable {K V : Type} [LinearOrder K] {m : Nat}

section PutIfAbsent

variable (fuel : Nat) (level : NodeId → Nat) (l : ListId m) (key : K) (val : V)

/-- Insert a new node after the locked `pred`, the last one, and add it to the index. -/
def appendSingleton (pred : NodeId) : Call K V m Unit := do
  let n ← get_new_node key val
  modifyNode pred ({ · with next := some n })
  unlock pred
  onIndex l fun v ix => (ix.add v fuel (level n) n).map (·, ())

/-- The loop of `putIfAbsentSingleton`. -/
def putIfAbsentSingletonLoop : Nat → Call K V m (Option V)
  | 0 => throw .diverged
  | n + 1 => do
    match ← find_node_singelton fuel l key fuel with
    | (true, pred, next) =>
      match next with
      | some next =>
        if (← node next).key ≠ key ∨ (← node pred).next ≠ some next ∨
            (← node next).isLockedOrDeleted then
          putIfAbsentSingletonLoop n
        else return (← node next).val
      | none => throw .nullDereference
    | (false, pred, some next) =>
      if ← tryLock pred then
        let p ← node pred
        if p.isDeleted || some next != p.next then
          unlock pred
          putIfAbsentSingletonLoop n
        else
          insertSingleton fuel level l key val pred p.next
          return none
      else putIfAbsentSingletonLoop n
    | (false, pred, none) =>
      if ← tryLock pred then
        let p ← node pred
        if p.isDeleted || p.next.isSome then
          unlock pred
          putIfAbsentSingletonLoop n
        else
          appendSingleton fuel level l key val pred
          return none
      else putIfAbsentSingletonLoop n

def putIfAbsentSingleton : Call K V m (Option V) := putIfAbsentSingletonLoop fuel level l key val fuel

end PutIfAbsent

section GetFrom

/-- `getVal`, with the node read. -/
def getValFrom (n : NodeId) : Call K V m (Option V × Option NodeId) := do
  match (← get).storage.writeSet.lookup n with
  | some we => return (we.val, none)
  | none => return ((← node n).val, some n)

/-- `get` inside a transaction, with the node whose `m_val` it returns. -/
def getTXFrom (fuel : Nat) (l : ListId m) (key : K) : Call K V m (Option V × Option NodeId) := do
  let (found, pred, next) ← find_node fuel l key
  modifyStorage (·.addToReadSet pred)
  match found, next with
  | true, some next => getValFrom next
  | _, _ => return (none, none)

end GetFrom

/-- The singletons that insert. -/
inductive Inserter where
  | putSingleton
  | putIfAbsentSingleton
  deriving DecidableEq, Repr

def Inserter.program (ins : Inserter) (fuel : Nat) (level : NodeId → Nat) (l : ListId m) (key : K)
    (val : V) : Call K V m (Option V) :=
  match ins with
  | .putSingleton => TxList.putSingleton fuel level l key val
  | .putIfAbsentSingleton => TxList.putIfAbsentSingleton fuel level l key val

namespace Sys

/-- Thread `t` inserts as a singleton; the call returns. -/
def insert (σ : Sys K V m) (t : ThreadId) (ins : Inserter) (l : ListId m) (key : K) (val : V)
    (ch : Choice) : Option (Sys K V m × Option V) :=
  match ins.program ch.fuel ch.level l key val (σ.ctx t) with
  | .ok ret c => some (σ.put t c, ret)
  | .error _ _ => none

/-- The states that calls of any threads lead to, `putIfAbsent` among those made outside a
transaction. -/
inductive Reach (minKey : K) (dflt : V) : Sys K V m → Prop
  | init : Reach minKey dflt (Sys.init minKey dflt)
  | call {σ σ' : Sys K V m} {t : ThreadId} {op : Op K V m} {ch : Choice} {ret : Ret V} :
      Reach minKey dflt σ → (op = .txEnd → ch.Orders (σ.threads t).storage) →
      σ.step t op ch = some (σ', ret) → Reach minKey dflt σ'
  | putIfAbsent {σ σ' : Sys K V m} {t : ThreadId} {l : ListId m} {key : K} {val : V} {ch : Choice}
      {ret : Option V} : Reach minKey dflt σ → (σ.threads t).transaction.TX = false →
      σ.insert t .putIfAbsentSingleton l key val ch = some (σ', ret) → Reach minKey dflt σ'

/-- A `get` of thread `t`'s transaction ends, with `TxAbortException` or with a value that it has not
read from node `n`. -/
def Avoids (σ : Sys K V m) (t : ThreadId) (l : ListId m) (key : K) (n : NodeId) : Prop :=
  ∃ N, ∀ fuel, N ≤ fuel → Prog.Ends (getTXFrom fuel l key) (σ.ctx t) (fun r _ => r.2 ≠ some n)
    fun e _ => e = .txAbort

/-- The `get` throws, or the transaction has written the link of `p` that its search follows. -/
def Overrides (σ : Sys K V m) (t : ThreadId) (l : ListId m) (key : K) (p : NodeId) : Prop :=
  ∀ fuel r c, getTXFrom fuel l key (σ.ctx t) = .ok r c → p ∈ (σ.threads t).storage.writeSet

/-- What tells thread `t`'s transaction of a node put in after `p`: the new node's stamp, a mark that
`p` has anyway, or that the transaction goes by its own write of `p`. -/
def Tells (σ : Sys K V m) (t : ThreadId) (ins : Inserter) (p : NodeId) : Prop :=
  ins = .putSingleton ∨ (σ.shared.mem p).next ≠ none ∨ p ∈ (σ.threads t).storage.writeSet ∨
    tooNew (σ.shared.mem p) (σ.threads t).transaction = true ∨
    (σ.shared.mem p).isSameVersionAndSingleton (σ.threads t).transaction.readVersion = true

end Sys

end TxList
