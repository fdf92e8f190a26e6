import TxList.LinkedList

/-!
# Transactions

`TXend` locks the nodes of the write set, checks that no node of the read set was changed since
`TXbegin`, draws a write version, writes the write set back, unlocks, and brings the indexes up to
date. The orders in which it goes through the two sets are those of unordered containers, so they
are parameters; the locked nodes are unlocked in the order opposite to the locking.
-/

namespace TxList

variable {K V : Type} [LinearOrder K] {m : Nat}

/-- What a call leaves open: the loops' fuel, the iteration orders of the write and the read set,
and the level drawn for each node added to an index. -/
structure Choice where
  fuel : Nat
  writeOrder : List NodeId := []
  readOrder : List NodeId := []
  level : NodeId → Nat := fun _ => 0

def TXbegin : Call K V m Unit := do
  let version ← getVersion
  modifyTransaction ({ · with TX := true, readVersion := version })

/-- Lock the nodes in turn: whether a lock failed, and the nodes locked. -/
def lockWriteSet : List NodeId → List NodeId → Call K V m (Bool × List NodeId)
  | [], locked => return (false, locked)
  | n :: ns, locked => do
    if ← tryLock n then lockWriteSet ns (n :: locked) else return (true, locked)

/-- Check the nodes in turn: whether one of them makes the transaction abort. -/
def validateReadSet (locked : List NodeId) : List NodeId → Call K V m Bool
  | [] => return false
  | n :: ns => do
    let x ← node n
    let readVersion := (← get).transaction.readVersion
    if n ∉ locked ∧ x.isLocked then return true
    else if readVersion < x.getVersion then return true
    else if x.getVersion = readVersion ∧ x.isSingleton then
      let _ ← incrementAndGetVersion
      lockedUpdate n (·.setSingleton false)
      return true
    else validateReadSet locked ns

/-- Write the nodes back in turn; `setDeleted`, `setVersion` and `setSingleton` assert the lock. -/
def writeBackSet (writeVersion : Nat) : List NodeId → Call K V m Unit
  | [] => return ()
  | n :: ns => do
    match (← get).storage.writeSet.lookup n with
    | none => return ()
    | some we => lockedUpdate n (·.writeBack we writeVersion)
    writeBackSet writeVersion ns

def unlockAll : List NodeId → Call K V m Unit
  | [] => return ()
  | n :: ns => do
    unlock n
    unlockAll ns

def addToIndex (fuel : Nat) (level : NodeId → Nat) (l : ListId m) :
    List NodeId → Call K V m Unit
  | [] => return ()
  | n :: ns => do
    onIndex l fun v ix => (ix.add v fuel (level n) n).map (·, ())
    addToIndex fuel level l ns

def removeFromIndex (fuel : Nat) (l : ListId m) : List NodeId → Call K V m Unit
  | [] => return ()
  | n :: ns => do
    onIndex l fun v ix => (ix.remove v fuel n).map (·, ())
    retire_node n
    removeFromIndex fuel l ns

/-- Do `f` for each list. The lists have an index each, so their order does not show. -/
def forLists (f : ListId m → Call K V m Unit) : List (ListId m) → Call K V m Unit
  | [] => return ()
  | l :: ls => do
    f l
    forLists f ls

/-- Add the new nodes to their lists' indexes, then take the removed ones out and retire them. -/
def updateIndex (ch : Choice) : Call K V m Unit := do
  let s := (← get).storage
  forLists (fun l => addToIndex ch.fuel ch.level l (s.indexAdd l)) (List.finRange m)
  forLists (fun l => removeFromIndex ch.fuel l (s.indexRemove l)) (List.finRange m)

/-- Empty the local storage and close the transaction. -/
def cleanup : Call K V m Unit := do
  modifyStorage fun _ => {}
  modifyTransaction ({ · with TX := false, readOnly := true })

/-- The increment of `gvc` and the write-back of a transaction that has passed validation. -/
def commitWrites (ch : Choice) : Call K V m Unit := do
  let writeVersion ← incrementAndGetVersion
  assert ((← get).transaction.readVersion < writeVersion)
  modifyTransaction ({ · with writeVersion := writeVersion })
  writeBackSet writeVersion ch.writeOrder

/-- `TXend`, told what to do about the indexes. -/
def TXendWith (update : Call K V m Unit) (ch : Choice) : Call K V m Bool := do
  let t := (← get).transaction
  let (abort, locked) ← if t.TX then lockWriteSet ch.writeOrder [] else pure (true, [])
  let abort ← if abort then pure true else validateReadSet locked ch.readOrder
  if !abort && !t.readOnly then commitWrites ch
  unlockAll locked
  if !abort && !t.readOnly then update
  cleanup
  if abort then throw .txAbort
  return true

def TXend (ch : Choice) : Call K V m Bool := TXendWith (updateIndex ch) ch

/-- Retire the nodes the transaction was to add. -/
def retireAll : List NodeId → Call K V m Unit
  | [] => return ()
  | n :: ns => do
    retire_node n
    retireAll ns

def handle_abort : Call K V m Unit := do
  let s := (← get).storage
  forLists (fun l => retireAll (s.indexAdd l)) (List.finRange m)
  cleanup

end TxList
