import TxList.Index

/-!
# The state a call runs in

The shared memory holds the version clock, the nodes and the lists' indexes. The heads are the
nodes `0, ..., m - 1`, allocated by the `m` lists' constructors; a new node takes the next
number. Each thread has its local storage (the write set, the read set and the nodes to add to
and remove from each index) and its local transaction.

A call is a program over the shared memory and the calling thread's own storage. It ends with a
value, with `TxAbortException`, or not at all: the program stops, at an assertion or at a null
pointer, or a loop does not end within the fuel.
-/

namespace TxList

/-- The lists sharing one `TX`, of one key and value type. -/
abbrev ListId (m : Nat) := Fin m

/-- A list's head node. -/
def head {m : Nat} (l : ListId m) : NodeId := l.val

/-- What the threads share. `retired` is what was passed to `retire_node`, latest first. -/
structure Shared (K V : Type) (m : Nat) where
  gvc : Nat
  mem : NodeId → LNode K V
  fresh : Nat
  index : ListId m → Index
  retired : List NodeId

/-- `LocalStorage<key_t, val_t>`. A list missing from `indexAdd` or `indexRemove` maps to the
empty vector. -/
structure LocalStorage (V : Type) (m : Nat) where
  writeSet : AList (fun _ : NodeId => WriteElement V) := ∅
  readSet : Finset NodeId := ∅
  indexAdd : ListId m → List NodeId := fun _ => []
  indexRemove : ListId m → List NodeId := fun _ => []

/-- `LocalTransaction`. -/
structure LocalTransaction where
  readVersion : Nat := 0
  writeVersion : Nat := 0
  TX : Bool := false
  readOnly : Bool := true
  deriving DecidableEq, Repr

/-- A thread's own state. -/
structure Local (V : Type) (m : Nat) where
  storage : LocalStorage V m := {}
  transaction : LocalTransaction := {}

/-- What a call reads and writes. -/
structure Ctx (K V : Type) (m : Nat) where
  shared : Shared K V m
  storage : LocalStorage V m
  transaction : LocalTransaction

namespace LocalStorage

variable {V : Type} {m : Nat}

def putIntoWriteSet (s : LocalStorage V m) (node : NodeId) (next : Option NodeId) (val : Option V)
    (deleted : Bool) : LocalStorage V m :=
  { s with writeSet := s.writeSet.insert node { next, val, deleted } }

def addToReadSet (s : LocalStorage V m) (node : NodeId) : LocalStorage V m :=
  { s with readSet := insert node s.readSet }

def addToIndexAdd (s : LocalStorage V m) (l : ListId m) (node : NodeId) : LocalStorage V m :=
  { s with indexAdd := Function.update s.indexAdd l (s.indexAdd l ++ [node]) }

def addToIndexRemove (s : LocalStorage V m) (l : ListId m) (node : NodeId) : LocalStorage V m :=
  { s with indexRemove := Function.update s.indexRemove l (s.indexRemove l ++ [node]) }

/-- Nothing is in it. -/
def IsEmpty (s : LocalStorage V m) : Prop :=
  s.writeSet = ∅ ∧ s.readSet = ∅ ∧ (∀ l, s.indexAdd l = []) ∧ ∀ l, s.indexRemove l = []

end LocalStorage

/-- Why a call ends without a value. -/
inductive Err where
  | txAbort
  | assertFailed
  | nullDereference
  | diverged
  deriving DecidableEq, Repr

/-- A call by one thread, run alone. -/
abbrev Call (K V : Type) (m : Nat) := EStateM Err (Ctx K V m)

section Primitives

variable {K V : Type} {m : Nat}

def Shared.setNode (s : Shared K V m) (n : NodeId) (x : LNode K V) : Shared K V m :=
  { s with mem := Function.update s.mem n x }

/-- What the indexes read of the nodes. -/
def Shared.view (s : Shared K V m) : NodeView K where
  key n := (s.mem n).key
  live n := (s.mem n).val.isSome

/-- The node behind a pointer. -/
def node (n : NodeId) : Call K V m (LNode K V) := do
  return (← get).shared.mem n

def modifyNode (n : NodeId) (f : LNode K V → LNode K V) : Call K V m Unit :=
  modify fun c => { c with shared := c.shared.setNode n (f (c.shared.mem n)) }

def assert (b : Bool) : Call K V m Unit :=
  if b then pure () else throw .assertFailed

/-- `tryLock`, with no other thread between its load and its `compare_exchange_strong`. -/
def tryLock (n : NodeId) : Call K V m Bool := do
  if (← node n).isLocked then return false
  modifyNode n (·.setLock true)
  return true

def unlock (n : NodeId) : Call K V m Unit := do
  assert (← node n).isLocked
  modifyNode n (·.setLock false)

/-- A setter of the version word that asserts the lock. -/
def lockedUpdate (n : NodeId) (f : LNode K V → LNode K V) : Call K V m Unit := do
  assert (← node n).isLocked
  modifyNode n f

def getVersion : Call K V m Nat := do
  return (← get).shared.gvc

def incrementAndGetVersion : Call K V m Nat := do
  modify fun c => { c with shared := { c.shared with gvc := c.shared.gvc + 1 } }
  getVersion

def modifyStorage (f : LocalStorage V m → LocalStorage V m) : Call K V m Unit :=
  modify fun c => { c with storage := f c.storage }

def modifyTransaction (f : LocalTransaction → LocalTransaction) : Call K V m Unit :=
  modify fun c => { c with transaction := f c.transaction }

/-- Close the transaction and throw `TxAbortException`. -/
def abortTX {α : Type} : Call K V m α := do
  modifyTransaction ({ · with TX := false })
  throw .txAbort

/-- `recordMgr.get_new_node(key, val)`. -/
def get_new_node (key : K) (val : V) : Call K V m NodeId := do
  let n := (← get).shared.fresh
  modify fun c => { c with
    shared := { c.shared.setNode n { key := key, val := some val } with fresh := n + 1 } }
  return n

def retire_node (n : NodeId) : Call K V m Unit :=
  modify fun c => { c with shared := { c.shared with retired := n :: c.shared.retired } }

/-- Run an index operation on a list's index. -/
def onIndex {α : Type} (l : ListId m) (f : NodeView K → Index → Option (Index × α)) :
    Call K V m α := do
  let c ← get
  match f c.shared.view (c.shared.index l) with
  | none => throw .diverged
  | some (ix, a) =>
    set { c with shared := { c.shared with index := Function.update c.shared.index l ix } }
    return a

end Primitives

end TxList
