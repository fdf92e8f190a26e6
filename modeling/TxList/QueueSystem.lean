import TxList.Queue

/-!
# Threads on the transactional queues

`TX` and the calls of `Queue` in pieces. What is one piece: a read of the unlocked fields, taking or
giving back a queue's lock, the change of the list that the lock protects, the setting of the version
word, each increment of the clock, and for each queue the three parts of its publication. Between two
pieces of a thread the other threads may run.

The transaction's part on the linked lists enters by what it does to the queues: it makes the
transaction a writing one, it may abort it, it may increment the clock, and in `TXend` it may fail
to lock the nodes or find a changed one.
-/

namespace TxQueue

open Chain
open Fifo (Op Ans)

/-- The parts of a queue's publication in `TXend`. -/
inductive Part where
  | dequeueNodes
  | enqueueNodes
  | setVersion
  deriving DecidableEq

/-- Where a thread is. In `TXend`, `order` is the order in which it meets the entries of `queueMap`. -/
inductive Pc (Q V : Type) where
  | idle
  /-- In a transaction's `dequeue` or `isEmpty`: the version was checked, `tryLock` is next. -/
  | tryLock (q : Q) (op : Op V)
  /-- Outside of a transaction: about to take the lock. `size` was read before, by `isEmpty`. -/
  | lock (q : Q) (op : Op V) (size : Int)
  | locked (q : Q) (op : Op V) (size : Int)
  | stamp (q : Q) (ans : Ans V)
  | unlock (q : Q) (ans : Ans V)
  | lockQueues (order rest : List Q)
  | validateReadSet (order : List Q)
  | validateQueues (order rest : List Q)
  | increment (order : List Q)
  | publish (part : Part) (writeVersion : Nat) (order rest : List Q)
  | unlockQueues (abort : Bool) (rest : List Q)
  deriving DecidableEq

/-- The answer that a call outside of a transaction has found. -/
def Pc.ans? {Q V : Type} : Pc Q V → Option (Ans V)
  | .stamp _ a | .unlock _ a => some a
  | _ => none

/-- What follows a part of the publication of `q`. -/
def Part.next {Q V : Type} (part : Part) (writeVersion : Nat) (order : List Q) (q : Q)
    (rest : List Q) : Pc Q V :=
  match part with
  | .dequeueNodes => .publish .enqueueNodes writeVersion order (q :: rest)
  | .enqueueNodes => .publish .setVersion writeVersion order (q :: rest)
  | .setVersion => .publish .dequeueNodes writeVersion order rest

/-- What a thread's step reads and writes. -/
structure Ctx (Q V : Type) where
  gvc : Nat
  heap : Heap V
  queues : Q → Queue
  storage : LocalStorage Q
  pc : Pc Q V

/-- What the validation of the read set finds: nothing, a changed node, or a node with the mark of a
singleton, for which it increments the clock. -/
inductive ReadSet where
  | valid
  | changed
  | marked

/-- What a thread does next: a call, or `go` on with the one it is in. -/
inductive Ev (Q V : Type) where
  | txBegin
  /-- A call on a linked list that makes the transaction a writing one. -/
  | listWrite
  /-- A call on a linked list that aborts the transaction. -/
  | listAbort (increment : Bool)
  | call (q : Q) (op : Op V)
  /-- `TXend`, with the order of `queueMap`'s entries and whether it could lock the write set. -/
  | txEnd (order : List Q) (locks : Bool)
  | go (readSet : ReadSet)

/-- What a call returned, or that it threw `AbortException`. -/
inductive Ret (V : Type) where
  | ans (a : Ans V)
  | aborted
  | void
  deriving DecidableEq

namespace Ctx

variable {Q V : Type} [DecidableEq Q]

def setQueue (c : Ctx Q V) (q : Q) (x : Queue) : Ctx Q V :=
  { c with queues := Function.update c.queues q x }

def lQueue (c : Ctx Q V) (q : Q) : LocalQueue := c.storage.lQueue q

def putQueue (c : Ctx Q V) (q : Q) (lq : LocalQueue) : Ctx Q V :=
  { c with storage := c.storage.putQueue q lq }

/-- A call ends its thread's transaction. -/
def abort (c : Ctx Q V) : Ctx Q V :=
  { c with storage := { c.storage with TX := false }, pc := .idle }

/-- The checks at the start of a transaction's calls; `some` is the state in which they abort it. -/
def checkVersion (c : Ctx Q V) (q : Q) : Option (Ctx Q V) :=
  if c.storage.readVersion < (c.queues q).version then some c.abort
  else if c.storage.readVersion = (c.queues q).version ∧ (c.queues q).singleton then
    some { c with gvc := c.gvc + 1 }.abort
  else none

/-- A transaction's `enqueue` after the checks. -/
def enqueue (c : Ctx Q V) (q : Q) (val : V) : Ctx Q V :=
  let lq := c.lQueue q
  let (heap, links) := lq.enqueue c.heap val
  { c with heap }.putQueue q (lq.setLinks links)

/-- A transaction's `dequeue` that has the lock. -/
def dequeue (c : Ctx Q V) (q : Q) : Ctx Q V × Ans V :=
  let lq := (c.lQueue q).advance c.heap (c.queues q).head
  match lq.nodeToDeq with
  | some node => (c.putQueue q lq, .val (c.heap.val node))
  | none =>
    match lq.dequeue c.heap with
    | none => (c.putQueue q lq, .empty)
    | some (ret, links) => (c.putQueue q (lq.setLinks links), .val ret)

/-- A transaction's `isEmpty` that has the lock. -/
def isEmpty (c : Ctx Q V) (q : Q) : Ctx Q V × Ans V :=
  if 0 < (c.queues q).size then (c, .bool false)
  else (c.putQueue q (c.lQueue q), .bool (c.lQueue q).isEmpty)

def access (c : Ctx Q V) (q : Q) : Op V → Ctx Q V × Ans V
  | .enqueue v => (c.enqueue q v, .done)
  | .dequeue => c.dequeue q
  | .isEmpty => c.isEmpty q

/-- A call outside of a transaction, from the taking of the lock to the setting of the version. -/
def single (c : Ctx Q V) (q : Q) (size : Int) : Op V → Ctx Q V
  | .enqueue v =>
    let (heap, links) := (c.queues q).enqueue c.heap v
    { c with heap, pc := .stamp q .done }.setQueue q ((c.queues q).setLinks links)
  | .dequeue =>
    match (c.queues q).dequeue c.heap with
    | none => { c with pc := .unlock q .empty }
    | some (ret, links) =>
      { c with pc := .stamp q (.val ret) }.setQueue q ((c.queues q).setLinks links)
  | .isEmpty => { c with pc := .stamp q (.bool (size ≤ 0)) }

/-- A part of the publication of `q`. -/
def publish (c : Ctx Q V) (q : Q) (writeVersion : Nat) : Part → Option (Ctx Q V)
  | .dequeueNodes => do
    let links ← (c.queues q).dequeueNodes c.heap (c.lQueue q).nodeToDeq
    return c.setQueue q ((c.queues q).setLinks links)
  | .enqueueNodes => do
    let (heap, links, llinks) ← (c.queues q).enqueueNodes c.heap (c.lQueue q).toLinks
    return ({ c with heap }.setQueue q ((c.queues q).setLinks links)).putQueue q
      ((c.lQueue q).setLinks llinks)
  | .setVersion => some (c.setQueue q ((c.queues q).stamp writeVersion false))

/-- The end of `TXend`. -/
def cleanup (c : Ctx Q V) : Ctx Q V :=
  { c with storage := { c.storage with queueMap := ∅, TX := false, readOnly := true }, pc := .idle }

/-- A piece of the call that the thread is in. `none`: it waits, or an assertion fails. -/
def go (c : Ctx Q V) (t : ThreadId) (readSet : ReadSet) : Option (Ctx Q V × Option (Ret V)) :=
  match c.pc with
  | .idle => none
  | .tryLock q op =>
    match (c.queues q).tryLock t with
    | none => some (c.abort, some .aborted)
    | some x =>
      let (c, a) := (c.setQueue q x).access q op
      some ({ c with pc := .idle }, some (.ans a))
  | .lock q op size => do
    let x ← (c.queues q).tryLock t
    return ({ c with pc := .locked q op size }.setQueue q x, none)
  | .locked q op size => some (c.single q size op, none)
  | .stamp q a =>
    some ({ c with pc := .unlock q a }.setQueue q ((c.queues q).stamp c.gvc true), none)
  | .unlock q a => do
    let x ← (c.queues q).unlock t
    return ({ c with pc := .idle }.setQueue q x, some (.ans a))
  | .lockQueues order [] => some ({ c with pc := .validateReadSet order }, none)
  | .lockQueues order (q :: rest) =>
    match (c.queues q).tryLock t with
    | none => some ({ c with pc := .unlockQueues true order }, none)
    | some x =>
      some (({ c with pc := .lockQueues order rest }.setQueue q x).putQueue q
        ((c.lQueue q).setLocked true), none)
  | .validateReadSet order =>
    match readSet with
    | .valid => some ({ c with pc := .validateQueues order order }, none)
    | .changed => some ({ c with pc := .unlockQueues true order }, none)
    | .marked => some ({ c with gvc := c.gvc + 1, pc := .unlockQueues true order }, none)
  | .validateQueues order [] => some ({ c with pc := .increment order }, none)
  | .validateQueues order (q :: rest) =>
    if c.storage.readVersion < (c.queues q).version then
      some ({ c with pc := .unlockQueues true order }, none)
    else if (c.queues q).version = c.storage.readVersion ∧ (c.queues q).singleton then
      some ({ c with gvc := c.gvc + 1, pc := .unlockQueues true order }, none)
    else some ({ c with pc := .validateQueues order rest }, none)
  | .increment order =>
    if c.storage.readOnly then
      some ({ c with pc := .publish .dequeueNodes 0 order order }, none)
    else if c.storage.readVersion < c.gvc + 1 then
      some ({ c with
        gvc := c.gvc + 1, pc := .publish .dequeueNodes (c.gvc + 1) order order }, none)
    else none
  | .publish _ _ order [] => some ({ c with pc := .unlockQueues false order }, none)
  | .publish part writeVersion order (q :: rest) => do
    let c' ← c.publish q writeVersion part
    return ({ c' with pc := part.next writeVersion order q rest }, none)
  | .unlockQueues abort [] => some (c.cleanup, some (if abort then .aborted else .void))
  | .unlockQueues abort (q :: rest) =>
    if (c.lQueue q).isLockedByMe then do
      let x ← (c.queues q).unlock t
      return (({ c with pc := .unlockQueues abort rest }.setQueue q x).putQueue q
        ((c.lQueue q).setLocked false), none)
    else some ({ c with pc := .unlockQueues abort rest }, none)

/-- The first piece of a call. -/
def start (c : Ctx Q V) : Ev Q V → Option (Ctx Q V × Option (Ret V))
  | .txBegin =>
    some ({ c with storage := { c.storage with TX := true, readVersion := c.gvc } }, some .void)
  | .listWrite =>
    if c.storage.TX then
      some ({ c with storage := { c.storage with readOnly := false } }, some .void)
    else none
  | .listAbort increment =>
    if c.storage.TX then
      some ((if increment then { c with gvc := c.gvc + 1 } else c).abort, some .aborted)
    else none
  | .call q op =>
    if c.storage.TX then
      match c.checkVersion q with
      | some c' => some (c', some .aborted)
      | none =>
        match op with
        | .enqueue v => some (c.enqueue q v, some (.ans .done))
        | .dequeue | .isEmpty => some ({ c with pc := .tryLock q op }, none)
    else some ({ c with pc := .lock q op (c.queues q).size }, none)
  | .txEnd order locks =>
    if order.Perm c.storage.queueMap.keys then
      if c.storage.TX && locks then some ({ c with pc := .lockQueues order order }, none)
      else some ({ c with pc := .unlockQueues true order }, none)
    else none
  | .go _ => none

/-- The thread is where it takes such a step. -/
def Fits (c : Ctx Q V) (e : Ev Q V) : Prop :=
  match c.pc, e with
  | .idle, .txBegin | .idle, .call _ _ => True
  | .idle, .listWrite | .idle, .listAbort _ => c.storage.TX = true
  | .idle, .txEnd order _ => order.Perm c.storage.queueMap.keys
  | .idle, .go _ => False
  | _, .go _ => True
  | _, _ => False

/-- The thread is about to take a lock that another thread holds. -/
def Waits (c : Ctx Q V) (t : ThreadId) : Prop :=
  ∃ q op size u, c.pc = .lock q op size ∧ (c.queues q).owner = some u ∧ u ≠ t

/-- A step of thread `t`: where it leads, and what the thread's call returned if it did. -/
def step (c : Ctx Q V) (t : ThreadId) (e : Ev Q V) : Option (Ctx Q V × Option (Ret V)) :=
  match e, c.pc with
  | .go readSet, _ => c.go t readSet
  | e, .idle => c.start e
  | _, _ => none

end Ctx

/-- A thread's own state. -/
structure Local (Q V : Type) where
  storage : LocalStorage Q := {}
  pc : Pc Q V := .idle

structure Sys (Q V : Type) where
  gvc : Nat
  heap : Heap V
  queues : Q → Queue
  threads : ThreadId → Local Q V

namespace Sys

variable {Q V : Type} [DecidableEq Q]

def ctx (s : Sys Q V) (t : ThreadId) : Ctx Q V :=
  ⟨s.gvc, s.heap, s.queues, (s.threads t).storage, (s.threads t).pc⟩

def put (s : Sys Q V) (t : ThreadId) (c : Ctx Q V) : Sys Q V :=
  ⟨c.gvc, c.heap, c.queues, Function.update s.threads t ⟨c.storage, c.pc⟩⟩

/-- No thread has made a call, and the queues are new. -/
def init [Inhabited V] : Sys Q V := ⟨0, .init, fun _ => {}, fun _ => {}⟩

/-- The lists: the queues' and the threads' local queues'. -/
def links (s : Sys Q V) : Q ⊕ (ThreadId × Q) → Links :=
  Sum.elim (fun q => (s.queues q).toLinks) fun p => ((s.threads p.1).storage.lQueue p.2).toLinks

/-- The nodes of a list, from its head on. -/
def nodes (s : Sys Q V) (i : Q ⊕ (ThreadId × Q)) : List NodeId :=
  walk s.heap.next s.heap.fresh (s.links i).head

/-- What is in a queue. -/
def contents (s : Sys Q V) (q : Q) : List V := (s.nodes (.inl q)).map s.heap.val

/-- The thread publishes its transaction, and not yet all of what it does to `q`. -/
def Publishes (s : Sys Q V) (t : ThreadId) (q : Q) : Prop :=
  ∃ part wv order rest, (s.threads t).pc = .publish part wv order rest ∧ q ∈ rest

end Sys

/-- A call on a queue and its answer. -/
structure Rec (Q V : Type) where
  queue : Q
  op : Op V
  ans : Ans V
  deriving DecidableEq

/-- What takes effect at once: a committed transaction's calls, or a call outside of a transaction. -/
inductive Block (Q V : Type) where
  | tx (recs : List (Rec Q V))
  | single (rec : Rec Q V)
  deriving DecidableEq

/-- What happened: the blocks in the order in which they took effect, and each thread's calls since
its last `TXbegin`. -/
structure Hist (Q V : Type) where
  log : List (Block Q V) := []
  recs : ThreadId → List (Rec Q V) := fun _ => []

namespace Hist

variable {Q V : Type}

def record (h : Hist Q V) (t : ThreadId) (r : Rec Q V) : Hist Q V :=
  { h with recs := Function.update h.recs t (h.recs t ++ [r]) }

def append (h : Hist Q V) (b : Block Q V) : Hist Q V := { h with log := h.log ++ [b] }

/-- A step of thread `t` from `c` to `c'`. A transaction takes effect when `TXend` has locked and
validated everything, a call outside of one when it has the lock; but its `isEmpty` reads the size
before. -/
def step (h : Hist Q V) (t : ThreadId) (e : Ev Q V) (c c' : Ctx Q V) (r : Option (Ret V)) :
    Hist Q V :=
  match c.pc, e, r with
  | .idle, .txBegin, _ => { h with recs := Function.update h.recs t [] }
  | .idle, .call q op, some (.ans a) => h.record t ⟨q, op, a⟩
  | .idle, .call q .isEmpty, none =>
    if c.storage.TX then h
    else h.append (.single ⟨q, .isEmpty, .bool (c.queues q).isEmpty⟩)
  | .tryLock q op, _, some (.ans a) => h.record t ⟨q, op, a⟩
  | .locked q op _, _, _ =>
    match op, c'.pc.ans? with
    | .enqueue _, some a | .dequeue, some a => h.append (.single ⟨q, op, a⟩)
    | _, _ => h
  | .increment _, _, _ => h.append (.tx (h.recs t))
  | _, _, _ => h

end Hist

/-- A state of the system, and what happened up to it. -/
structure Conf (Q V : Type) where
  sys : Sys Q V
  hist : Hist Q V

namespace Conf

variable {Q V : Type} [DecidableEq Q]

def init [Inhabited V] : Conf Q V := ⟨.init, {}⟩

def next (C : Conf Q V) (t : ThreadId) (e : Ev Q V) (c : Ctx Q V) (r : Option (Ret V)) : Conf Q V :=
  ⟨C.sys.put t c, C.hist.step t e (C.sys.ctx t) c r⟩

/-- Steps that `G` allows lead from the first configuration to the second. -/
inductive Run (G : Conf Q V → ThreadId → Ev Q V → Prop) (C : Conf Q V) : Conf Q V → Prop
  | refl : Run G C C
  | step {C' : Conf Q V} {t : ThreadId} {e : Ev Q V} {c : Ctx Q V} {r : Option (Ret V)} :
    Run G C C' → G C' t e → (C'.sys.ctx t).step t e = some (c, r) → Run G C (C'.next t e c r)

/-- The steps in turn, if `G` allows them and each can be taken. -/
def run (G : Conf Q V → ThreadId → Ev Q V → Prop) [∀ C t e, Decidable (G C t e)] (C : Conf Q V) :
    List (ThreadId × Ev Q V) → Option (Conf Q V)
  | [] => some C
  | (t, e) :: es =>
    if G C t e then
      match (C.sys.ctx t).step t e with
      | some (c, r) => (C.next t e c r).run G es
      | none => none
    else none

/-- Steps that `G` allows lead from new queues to the configuration. -/
def Reach [Inhabited V] (G : Conf Q V → ThreadId → Ev Q V → Prop) (C : Conf Q V) : Prop :=
  Run G .init C

end Conf

end TxQueue
