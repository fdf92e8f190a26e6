import Mathlib.Data.List.AList
import Mathlib.Logic.Function.Basic
import TxList.Lib.Linked
import TxList.Lib.Plays

/-!
# The transactional queue

`Queue`, `LocalQueue` and `LockQueue` of the Java library: linked lists of `QNode`s. A queue has its
lock and its version besides, a transaction's local queue has its place in the queue. The nodes of all
of them are in one memory.

A `QNode`'s `prev` is written and never read, and is left out. `default` is Java's `null`.
-/

namespace TxQueue

open Chain

abbrev NodeId := Nat

abbrev ThreadId := Nat

structure QNode (V : Type) where
  next : Option NodeId
  val : V

/-- The memory of the nodes; the numbers from `fresh` on are not allocated. -/
structure Heap (V : Type) where
  mem : NodeId → QNode V
  fresh : Nat

namespace Heap

variable {V : Type}

def next (h : Heap V) (n : NodeId) : Option NodeId := (h.mem n).next

def val (h : Heap V) (n : NodeId) : V := (h.mem n).val

/-- `new QNode()`, and the fields assigned after it. -/
def alloc (h : Heap V) (x : QNode V) : Heap V where
  mem := Function.update h.mem h.fresh x
  fresh := h.fresh + 1

def setNext (h : Heap V) (n : NodeId) (o : Option NodeId) : Heap V :=
  { h with mem := Function.update h.mem n { h.mem n with next := o } }

/-- No node is allocated. -/
def init [Inhabited V] : Heap V := ⟨fun _ => ⟨none, default⟩, 0⟩

end Heap

/-- The list fields of `Queue` and of `LocalQueue`. -/
structure Links where
  head : Option NodeId := none
  tail : Option NodeId := none
  /-- Java's `int` has 32 bits: the two are the same for fewer than `2 ^ 31` elements. -/
  size : Int := 0
  deriving DecidableEq, Repr

namespace Links

variable {V : Type}

/-- `enqueue`, and what a round of `enqueueNodes` does. -/
def enqueue (l : Links) (h : Heap V) (val : V) : Heap V × Links :=
  let node := h.fresh
  let h := h.alloc { next := none, val }
  let l := { l with size := l.size + 1 }
  match l.tail with
  | none => (h, { l with tail := some node, head := some node })
  | some tail => (h.setNext tail (some node), { l with tail := some node })

/-- `dequeue`; `none` is `QueueIsEmptyException`. -/
def dequeue (l : Links) (h : Heap V) : Option (V × Links) :=
  match l.head with
  | none => none
  | some temp =>
    let head := h.next temp
    some (h.val temp, { head, tail := if head = none then none else l.tail, size := l.size - 1 })

def isEmpty (l : Links) : Bool := l.size ≤ 0

/-- The loop of `dequeueNodes`, which counts `size` down for each node passed. The nodes allocated are
fuel enough. `none`: the loop does not end, or the assertion fails. -/
def dequeueNodes (l : Links) (h : Heap V) (upToNode : Option NodeId) : Option Links :=
  match upToNode with
  | none => some l
  | some upToNode => do
    let (curr, passed) ← skip h.next (h.next upToNode) (h.fresh + 1) l.head
    let size := l.size - passed
    match curr with
    | none => if size = 0 then some { head := none, tail := none, size } else none
    | some _ => some { l with head := curr, size }

/-- The loop of `enqueueNodes`, which empties the local queue `lq`. -/
def enqueueNodesLoop : Nat → Links → Heap V → Links → Option (Heap V × Links × Links)
  | 0, _, _, _ => none
  | n + 1, l, h, lq =>
    if lq.isEmpty then some (h, l, lq)
    else
      match lq.dequeue h with
      | none => some (h, l, lq)
      | some (val, lq) =>
        let (h, l) := l.enqueue h val
        enqueueNodesLoop n l h lq

def enqueueNodes (l : Links) (h : Heap V) (lq : Links) : Option (Heap V × Links × Links) :=
  enqueueNodesLoop (h.fresh + 1) l h lq

end Links

/-- `Queue`. `owner` is the thread that holds `qLock`; `version` and `singleton` are the two parts of
`versionAndFlags`, which keeps a version below `2 ^ 62`. -/
structure Queue extends Links where
  owner : Option ThreadId := none
  version : Nat := 0
  singleton : Bool := false
  deriving DecidableEq, Repr

namespace Queue

def setLinks (q : Queue) (l : Links) : Queue := { q with toLinks := l }

def setOwner (q : Queue) (owner : Option ThreadId) : Queue := { q with owner }

/-- `LockQueue.tryLock`: the queue locked by `t`, unless another thread holds the lock. `lock` waits
until this is one. -/
def tryLock (q : Queue) (t : ThreadId) : Option Queue :=
  if q.owner = some t ∨ q.owner = none then some (q.setOwner (some t)) else none

/-- `LockQueue.unlock`; `none` is the assertion that the thread holds the lock. -/
def unlock (q : Queue) (t : ThreadId) : Option Queue :=
  if q.owner = some t then some (q.setOwner none) else none

/-- `setVersion` and `setSingleton`. -/
def stamp (q : Queue) (version : Nat) (singleton : Bool) : Queue := { q with version, singleton }

end Queue

/-- `LocalQueue`. -/
structure LocalQueue extends Links where
  firstDeq : Bool := true
  nodeToDeq : Option NodeId := none
  isLockedByMe : Bool := false
  deriving DecidableEq, Repr

namespace LocalQueue

variable {V : Type}

def setLinks (lq : LocalQueue) (l : Links) : LocalQueue := { lq with toLinks := l }

def setLocked (lq : LocalQueue) (isLockedByMe : Bool) : LocalQueue := { lq with isLockedByMe }

/-- The first dequeue of a transaction takes the head of the queue, each other the node after the one
before. -/
def advance (lq : LocalQueue) (h : Heap V) (head : Option NodeId) : LocalQueue :=
  if lq.firstDeq then { lq with firstDeq := false, nodeToDeq := head }
  else
    match lq.nodeToDeq with
    | some node => { lq with nodeToDeq := h.next node }
    | none => lq

end LocalQueue

/-- The fields of `LocalStorage` that the queues use. -/
structure LocalStorage (Q : Type) where
  readVersion : Nat := 0
  TX : Bool := false
  readOnly : Bool := true
  queueMap : AList (fun _ : Q => LocalQueue) := ∅

namespace LocalStorage

variable {Q : Type} [DecidableEq Q]

/-- `queueMap.get`, and a new `LocalQueue` where it finds none. -/
def lQueue (s : LocalStorage Q) (q : Q) : LocalQueue := (s.queueMap.lookup q).getD {}

/-- `queueMap.put`. -/
def putQueue (s : LocalStorage Q) (q : Q) (lq : LocalQueue) : LocalStorage Q :=
  { s with queueMap := s.queueMap.insert q lq }

end LocalStorage

end TxQueue
