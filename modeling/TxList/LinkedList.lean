import TxList.State

/-!
# The list's operations

`put`, `remove` and `get` run in the transaction the thread has open, or as singletons when it
has none. In a transaction they read the shared nodes through the thread's write set and record
what they touch; nothing shared changes but the memory of a node `put` allocates. A singleton
locks the nodes it changes and writes to them at once.

Each loop of the source takes the call's fuel.
-/

namespace TxList

variable {K V : Type} [LinearOrder K] {m : Nat}

section Transaction

def indexGetPred (fuel : Nat) (l : ListId m) (key : K) : Call K V m NodeId :=
  onIndex l fun v ix => ix.getPred v key fuel

/-- The node's version shows a change after the transaction's `TXbegin`, or the node is locked. -/
def tooNew (x : LNode K V) (t : LocalTransaction) : Bool :=
  x.isLocked || t.readVersion < x.getVersion

/-- The checks `getPred` and `getNext` make on a node before they use it. -/
def checkNode (n : NodeId) : Call K V m Unit := do
  let x ← node n
  let t := (← get).transaction
  if tooNew x t then abortTX
  if x.isSameVersionAndSingleton t.readVersion then
    let _ ← incrementAndGetVersion
    abortTX

def getVal (n : NodeId) : Call K V m (Option V) := do
  match (← get).storage.writeSet.lookup n with
  | some we => return we.val
  | none => return (← node n).val

/-- The loop of `getPred`. -/
def getPredLoop (fuel : Nat) (l : ListId m) : Nat → NodeId → Call K V m NodeId
  | 0, _ => throw .diverged
  | n + 1, pred => do
    checkNode pred
    let x ← node pred
    let deletedEarlier := match (← get).storage.writeSet.lookup pred with
      | some we => we.deleted
      | none => false
    if deletedEarlier || x.isDeleted then
      assert (pred != head l)
      let pred ← indexGetPred fuel l x.key
      getPredLoop fuel l n pred
    else return pred

def getPred (fuel : Nat) (l : ListId m) (key : K) : Call K V m NodeId := do
  let pred ← indexGetPred fuel l key
  getPredLoop fuel l fuel pred

/-- `getNext`. The lock is read before and after `m_next`; in a call that runs alone both reads
agree. -/
def getNext (n : NodeId) : Call K V m (Option NodeId) := do
  match (← get).storage.writeSet.lookup n with
  | some we => return we.next
  | none =>
    if (← node n).isLocked then abortTX
    let next := (← node n).next
    checkNode n
    match next with
    | none => return none
    | some y =>
      checkNode y
      return some y

/-- The loop of `find_node`: `found`, the predecessor, and the node after it. -/
def findLoop (key : K) : Nat → NodeId → Option NodeId → Call K V m (Bool × NodeId × Option NodeId)
  | 0, _, _ => throw .diverged
  | _ + 1, pred, none => return (false, pred, none)
  | n + 1, pred, some next => do
    let x ← node next
    if x.key = key then return (true, pred, some next)
    else if key < x.key then return (false, pred, some next)
    else
      let y ← getNext next
      findLoop key n next y

def find_node (fuel : Nat) (l : ListId m) (key : K) :
    Call K V m (Bool × NodeId × Option NodeId) := do
  let pred ← getPred fuel l key
  let next ← getNext pred
  findLoop key fuel pred next

/-- `put` inside a transaction. -/
def putTX (fuel : Nat) (l : ListId m) (key : K) (val : V) : Call K V m (Option V) := do
  modifyTransaction ({ · with readOnly := false })
  match ← find_node fuel l key with
  | (true, _, some next) =>
    match (← get).storage.writeSet.lookup next with
    | some we => modifyStorage (·.putIntoWriteSet next we.next (some val) we.deleted)
    | none =>
      let x ← node next
      modifyStorage (·.putIntoWriteSet next x.next (some val) false)
    modifyStorage (·.addToReadSet next)
    return (← node next).val
  | (_, pred, next) =>
    let n ← get_new_node key val
    modifyNode n ({ · with next := next })
    let predVal ← getVal pred
    modifyStorage (·.putIntoWriteSet pred (some n) predVal false)
    modifyStorage (·.addToIndexAdd l n)
    modifyStorage (·.addToReadSet pred)
    return none

/-- `remove` inside a transaction. -/
def removeTX (fuel : Nat) (l : ListId m) (key : K) : Call K V m (Option V) := do
  modifyTransaction ({ · with readOnly := false })
  let (found, pred, next) ← find_node fuel l key
  modifyStorage (·.addToReadSet pred)
  match found, next with
  | true, some next =>
    let after ← getNext next
    let predVal ← getVal pred
    modifyStorage (·.putIntoWriteSet pred after predVal false)
    let nextVal ← getVal next
    modifyStorage (·.putIntoWriteSet next none nextVal true)
    modifyStorage (·.addToReadSet next)
    modifyStorage (·.addToIndexRemove l next)
    getVal next
  | _, _ => return none

/-- `get` inside a transaction. -/
def getTX (fuel : Nat) (l : ListId m) (key : K) : Call K V m (Option V) := do
  let (found, pred, next) ← find_node fuel l key
  modifyStorage (·.addToReadSet pred)
  match found, next with
  | true, some next => getVal next
  | _, _ => return none

end Transaction

section Singleton

/-- The loop of `getPredSingleton`. -/
def getPredSingletonLoop (fuel : Nat) (l : ListId m) : Nat → NodeId → Call K V m NodeId
  | 0, _ => throw .diverged
  | n + 1, pred => do
    let x ← node pred
    if x.isLockedOrDeleted then
      if pred = head l then return pred
      else
        let pred ← indexGetPred fuel l x.key
        getPredSingletonLoop fuel l n pred
    else return pred

def getPredSingleton (fuel : Nat) (l : ListId m) (key : K) : Call K V m NodeId := do
  let pred ← indexGetPred fuel l key
  getPredSingletonLoop fuel l fuel pred

/-- The inner loop of `find_node_singelton`; `none` starts over. With no other thread running,
its reads of `pred->m_next` after `next` was compared give `next` again. -/
def findSingletonLoop (key : K) :
    Nat → NodeId → Option NodeId → Call K V m (Option (Bool × NodeId × Option NodeId))
  | 0, _, _ => throw .diverged
  | _ + 1, pred, none => return some (false, pred, none)
  | n + 1, pred, some next => do
    let x ← node next
    if x.isLockedOrDeleted then return none
    else if x.key = key then
      return some (true, pred, (← node pred).next)
    else if key < x.key then return some (false, pred, some next)
    else if x.isLocked || (← node pred).next != some next then return none
    else
      match (← node pred).next with
      | none => return none
      | some pred =>
        let p ← node pred
        if p.isLockedOrDeleted then return none
        else findSingletonLoop key n pred p.next

/-- `find_node_singelton`. -/
def find_node_singelton (fuel : Nat) (l : ListId m) (key : K) :
    Nat → Call K V m (Bool × NodeId × Option NodeId)
  | 0 => throw .diverged
  | n + 1 => do
    let pred ← getPredSingleton fuel l key
    let x ← node pred
    if x.isLocked then find_node_singelton fuel l key n
    else if x.isLockedOrDeleted then find_node_singelton fuel l key n
    else
      match ← findSingletonLoop key fuel pred x.next with
      | none => find_node_singelton fuel l key n
      | some r => return r

section Update

variable {α : Type} (update : NodeId → Call K V m α)

/-- Insert a new node after the locked `pred`, stamp it, and do `update` about the index. -/
def insertSingletonWith (key : K) (val : V) (pred : NodeId) (next : Option NodeId) : Call K V m α := do
  let n ← get_new_node key val
  modifyNode n ({ · with next := next })
  modifyNode pred ({ · with next := some n })
  let version ← getVersion
  modifyNode n (·.setVersionAndSingleton version true)
  unlock pred
  update n

/-- The loop of `putSingleton`, told what to do about the index with a new node; it also returns what
that returned. -/
def putSingletonLoopWith (fuel : Nat) (l : ListId m) (key : K) (val : V) :
    Nat → Call K V m (Option V × Option α)
  | 0 => throw .diverged
  | n + 1 => do
    match ← find_node_singelton fuel l key fuel with
    | (true, pred, next) =>
      match (← node pred).next, next with
      | some node', some next =>
        if ← tryLock node' then
          if (← node next).key ≠ key ∨ node' ≠ next ∨ (← node node').isDeleted then
            unlock node'
            putSingletonLoopWith fuel l key val n
          else
            let ret := (← node node').val
            modifyNode node' ({ · with val := some val })
            lockedUpdate node' (·.setSingleton true)
            let version ← getVersion
            lockedUpdate node' (·.setVersion version)
            unlock node'
            return (ret, none)
        else putSingletonLoopWith fuel l key val n
      | _, _ => throw .nullDereference
    | (false, pred, some next) =>
      if ← tryLock pred then
        let p ← node pred
        if p.isDeleted || some next != p.next then
          unlock pred
          putSingletonLoopWith fuel l key val n
        else
          let a ← insertSingletonWith update key val pred p.next
          return (none, some a)
      else putSingletonLoopWith fuel l key val n
    | (false, pred, none) =>
      if ← tryLock pred then
        let p ← node pred
        if p.isDeleted || p.next.isSome then
          unlock pred
          putSingletonLoopWith fuel l key val n
        else
          let a ← insertSingletonWith update key val pred none
          return (none, some a)
      else putSingletonLoopWith fuel l key val n

/-- The loop of `removeSingleton`, told what to do about the index with the node unlinked. -/
def removeSingletonLoopWith (fuel : Nat) (l : ListId m) (key : K) :
    Nat → Call K V m (Option V × Option α)
  | 0 => throw .diverged
  | n + 1 => do
    match ← find_node_singelton fuel l key fuel with
    | (false, _, _) => return (none, none)
    | (true, pred, next) =>
      if ← tryLock pred then
        let p ← node pred
        if p.isDeleted || next != p.next then
          unlock pred
          removeSingletonLoopWith fuel l key n
        else
          match next with
          | none => throw .nullDereference
          | some next =>
            if ← tryLock next then
              let valToRet := (← node next).val
              modifyNode next ({ · with val := none })
              match (← node pred).next with
              | none => throw .nullDereference
              | some second =>
                let after := (← node second).next
                modifyNode pred ({ · with next := after })
                let ver ← getVersion
                lockedUpdate next (·.setVersionAndDeletedAndSingleton ver true true)
                lockedUpdate pred (·.setVersionAndSingleton ver true)
                unlock next
                unlock pred
                let a ← update next
                return (valToRet, some a)
            else
              unlock pred
              removeSingletonLoopWith fuel l key n
      else removeSingletonLoopWith fuel l key n

end Update

/-- Insert a new node after the locked `pred`, stamp it and add it to the index. -/
def insertSingleton (fuel : Nat) (level : NodeId → Nat) (l : ListId m) (key : K) (val : V)
    (pred : NodeId) (next : Option NodeId) : Call K V m Unit :=
  insertSingletonWith (fun n => onIndex l fun v ix => (ix.add v fuel (level n) n).map (·, ()))
    key val pred next

/-- The loop of `putSingleton`. -/
def putSingletonLoop (fuel : Nat) (level : NodeId → Nat) (l : ListId m) (key : K) (val : V) (n : Nat) :
    Call K V m (Option V) :=
  Prod.fst <$> putSingletonLoopWith
    (fun n => onIndex l fun v ix => (ix.add v fuel (level n) n).map (·, ())) fuel l key val n

def putSingleton (fuel : Nat) (level : NodeId → Nat) (l : ListId m) (key : K) (val : V) :
    Call K V m (Option V) :=
  putSingletonLoop fuel level l key val fuel

/-- The loop of `removeSingleton`. -/
def removeSingletonLoop (fuel : Nat) (l : ListId m) (key : K) (n : Nat) : Call K V m (Option V) :=
  Prod.fst <$> removeSingletonLoopWith
    (fun x => do onIndex l fun v ix => (ix.remove v fuel x).map (·, ()); retire_node x) fuel l key n

def removeSingleton (fuel : Nat) (l : ListId m) (key : K) : Call K V m (Option V) :=
  removeSingletonLoop fuel l key fuel

def getSingleton (fuel : Nat) (l : ListId m) (key : K) : Call K V m (Option V) := do
  match ← find_node_singelton fuel l key fuel with
  | (true, _, some next) => return (← node next).val
  | (true, _, none) => throw .nullDereference
  | (false, _, _) => return none

end Singleton

section Size

/-- The loop of `get_size`: `res` nodes counted, `cur` the next one. -/
def sizeLoop : Nat → Option NodeId → Nat → Call K V m Nat
  | 0, _, _ => throw .diverged
  | _ + 1, none, res => return res
  | n + 1, some cur, res => do
    sizeLoop n (← node cur).next (res + 1)

/-- `get_size`, which counts the head too and takes it off at the end. -/
def get_size (fuel : Nat) (l : ListId m) : Call K V m Nat := do
  let res ← sizeLoop fuel (some (head l)) 0
  return res - 1

end Size

section Stream

/-- The loop of `operator<<`: the key and the value of each node it streams, `cur` the next one. -/
def streamLoop : Nat → Option NodeId → Call K V m (List (K × Option V))
  | 0, _ => throw .diverged
  | _ + 1, none => return []
  | n + 1, some cur => do
    let x ← node cur
    let rest ← streamLoop n x.next
    return (x.key, x.val) :: rest

/-- `operator<<`, which streams the head too; a node without a value is streamed as `None`. -/
def stream (fuel : Nat) (l : ListId m) : Call K V m (List (K × Option V)) :=
  streamLoop fuel (some (head l))

variable [Zero K] [Add K]

/-- The loop of `get_sum_key`: `res` is the sum so far, `cur` the next node. -/
def sumLoop : Nat → Option NodeId → K → Call K V m K
  | 0, _, _ => throw .diverged
  | _ + 1, none, res => return res
  | n + 1, some cur, res => do
    let x ← node cur
    sumLoop n x.next (res + x.key)

/-- `get_sum_key`, which adds the head's key too. -/
def get_sum_key (fuel : Nat) (l : ListId m) : Call K V m K := sumLoop fuel (some (head l)) 0

end Stream

section Deinit

/-- The loop of `deinit_list`: `cur` is what `prev` leads to. -/
def deinitLoop : Nat → NodeId → Option NodeId → Call K V m Unit
  | 0, _, _ => throw .diverged
  | _ + 1, _, none => return ()
  | n + 1, prev, some cur => do
    retire_node prev
    deinitLoop n cur (← node cur).next

def deinit_list (fuel : Nat) (l : ListId m) : Call K V m Unit := do
  let prev := head l
  deinitLoop fuel prev (← node prev).next

end Deinit

section Dispatch

def put (fuel : Nat) (level : NodeId → Nat) (l : ListId m) (key : K) (val : V) :
    Call K V m (Option V) := do
  if (← get).transaction.TX then putTX fuel l key val else putSingleton fuel level l key val

def remove (fuel : Nat) (l : ListId m) (key : K) : Call K V m (Option V) := do
  if (← get).transaction.TX then removeTX fuel l key else removeSingleton fuel l key

-- `get` is the name of the state's reader, so the list's `get` is `getKey` here
def getKey (fuel : Nat) (l : ListId m) (key : K) : Call K V m (Option V) := do
  if (← get).transaction.TX then getTX fuel l key else getSingleton fuel l key

def containsKey (fuel : Nat) (l : ListId m) (key : K) : Call K V m Bool := do
  return (← getKey fuel l key).isSome

end Dispatch

end TxList
