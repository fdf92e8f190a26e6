import TxList.System
import TxList.Contents
import Mathlib.Data.Fintype.Basic
import Mathlib.Data.Finset.Union

/-!
# Freeing retired nodes

In the DEBRA build `retire_node` hands a node to the record manager, which frees it some time after
the guards that were open then have been closed. `put`, `remove`, `get` and `TXend` hold a guard each;
none is held from one call of a transaction to the next, while the local storage keeps its pointers.
-/

namespace TxList

variable {K V : Type} {m : Nat}

/-- `recordMgr`: the threads with a guard open; the nodes retired but not freed, each with the guards
still open of those that were at its `retire`; and the nodes freed. -/
structure RecordMgr where
  guards : Finset ThreadId := ∅
  limbo : List (NodeId × Finset ThreadId) := []
  freed : Finset NodeId := ∅

/-- The call opens a guard. -/
def Op.guarded : Op K V m → Bool
  | .put _ _ _ | .remove _ _ | .get _ _ | .containsKey _ _ | .txEnd => true
  | .txBegin | .handleAbort => false

namespace RecordMgr

def getGuard (r : RecordMgr) (t : ThreadId) : RecordMgr := { r with guards := insert t r.guards }

/-- The guard's destructor. -/
def closeGuard (r : RecordMgr) (t : ThreadId) : RecordMgr :=
  { r with guards := r.guards.erase t, limbo := r.limbo.map fun p => (p.1, p.2.erase t) }

def retire (n : NodeId) (r : RecordMgr) : RecordMgr := { r with limbo := (n, r.guards) :: r.limbo }

/-- A call of thread `t` that retires the nodes `ns`, the last of them first. -/
def call (r : RecordMgr) (t : ThreadId) (op : Op K V m) (ns : List NodeId) : RecordMgr :=
  if op.guarded then (ns.foldr retire (r.getGuard t)).closeGuard t else ns.foldr retire r

def free (r : RecordMgr) (n : NodeId) : RecordMgr :=
  { r with limbo := r.limbo.erase (n, ∅), freed := insert n r.freed }

end RecordMgr

/-- A configuration with the record manager's state. -/
structure Managed (K V : Type) (m : Nat) where
  conf : Conf K V m
  mgr : RecordMgr

/-- Calls that meet the guard, one step each; in between the record manager frees nodes. -/
inductive Managed.Reach [LinearOrder K] (minKey : K) (dflt : V) (G : Conf.Guard K V m) :
    Managed K V m → Prop
  | init : Reach minKey dflt G ⟨.init minKey dflt, {}⟩
  | call {M : Managed K V m} {t : ThreadId} {op : Op K V m} {ret : Ret V} {C : Conf K V m}
      {ns : List NodeId} : Reach minKey dflt G M → G M.conf t op → M.conf.Step t op ret C →
      C.sys.shared.retired = ns ++ M.conf.sys.shared.retired →
      Reach minKey dflt G ⟨C, M.mgr.call t op ns⟩
  | free {M : Managed K V m} {n : NodeId} : Reach minKey dflt G M → (n, ∅) ∈ M.mgr.limbo →
      Reach minKey dflt G ⟨M.conf, M.mgr.free n⟩

/-! ## Accesses -/

/-- The same state, with other contents of the nodes `F`. -/
def Ctx.refill (c : Ctx K V m) (F : Finset NodeId) (y : NodeId → LNode K V) : Ctx K V m :=
  { c with shared := { c.shared with mem := fun n => if n ∈ F then y n else c.shared.mem n } }

/-- The call accesses none of the nodes: whatever they hold, it ends alike, and they still hold it. -/
def AccessesNone {α : Type} (x : Call K V m α) (c : Ctx K V m) (F : Finset NodeId) : Prop :=
  ∀ y : NodeId → LNode K V, x (c.refill F y) =
    match x c with
    | .ok a c' => .ok a (c'.refill F y)
    | .error e c' => .error e (c'.refill F y)

/-- The nodes the storage has pointers to. -/
def LocalStorage.pointers (s : LocalStorage V m) : Finset NodeId :=
  s.readSet ∪ s.writeSet.keys.toFinset ∪ (s.writeSet.entries.filterMap fun e => e.2.next).toFinset ∪
    Finset.univ.biUnion fun l => (s.indexAdd l ++ s.indexRemove l).toFinset

/-- The nodes that the thread's transaction keeps pointers to: in the storage, and in the nodes it has
allocated. -/
def Sys.kept (σ : Sys K V m) (t : ThreadId) : Finset NodeId :=
  (σ.threads t).storage.pointers ∪ Finset.univ.biUnion fun l =>
    (((σ.threads t).storage.indexAdd l).filterMap σ.shared.next).toFinset

/-- The nodes that pointers lead a call of the thread to. -/
inductive Sys.GetsTo (σ : Sys K V m) (t : ThreadId) : NodeId → Prop
  | head (l : ListId m) : GetsTo σ t (TxList.head l)
  | index {l : ListId m} {n : NodeId} : (σ.shared.index l).Holds n → GetsTo σ t n
  | storage {n : NodeId} : n ∈ (σ.threads t).storage.pointers → GetsTo σ t n
  | next {n y : NodeId} : GetsTo σ t n → σ.shared.next n = some y → GetsTo σ t y

/-- The thread makes the call while no node that its transaction keeps a pointer to has been retired. -/
def NoneRetired : Conf.Guard K V m := fun C t op =>
  op.guarded = true → ∀ n ∈ C.sys.shared.retired, n ∉ C.sys.kept t

instance (C : Conf K V m) (t : ThreadId) (op : Op K V m) : Decidable (NoneRetired C t op) :=
  inferInstanceAs (Decidable (_ → _))

end TxList
