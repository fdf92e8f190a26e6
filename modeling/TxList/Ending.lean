import TxList.Machine

/-!
# `TXend` in steps

`TXend` once more, in the steps that a transaction's threads can be interleaved at: a `tryLock`, the
check of a node of the read set, the increment of the clock, each write of the write-back, an `unlock`,
and each update of an index. A step is a function of the shared memory alone; what it does to it is an
effect.
-/

namespace TxList

/-- One write of the write-back. -/
inductive Write (V : Type) where
  | next (n : NodeId) (next : Option NodeId)
  | val (n : NodeId) (val : Option V)
  | set (n : NodeId) (f : Setter)
  deriving DecidableEq, Repr

/-- The node written to. -/
def Write.node {V : Type} : Write V → NodeId
  | .next n _ | .val n _ | .set n _ => n

/-- The writes to one node of the write set, in order. -/
def WriteElement.writes {V : Type} (we : WriteElement V) (n : NodeId) (writeVersion : Nat) :
    List (Write V) :=
  .next n we.next :: .val n we.val ::
    ((if we.deleted then [.set n (.setDeleted true), .val n none] else []) ++
      [.set n (.setVersion writeVersion), .set n (.setSingleton false)])

/-- One update of a list's index. -/
inductive IndexUpdate (m : Nat) where
  | add (l : ListId m) (n : NodeId)
  | remove (l : ListId m) (n : NodeId)
  | retire (n : NodeId)
  deriving DecidableEq, Repr

/-- The index updates of a commit: the new nodes are added, then each removed one is taken out and
retired. -/
def Job.updates {V : Type} {m : Nat} (job : Job V m) : List (IndexUpdate m) :=
  job.indexAdd.map (fun x => .add x.1 x.2) ++ job.indexRemove.flatMap fun x => [.remove x.1 x.2, .retire x.2]

def Job.writes {V : Type} {m : Nat} (job : Job V m) (writeVersion : Nat) : List (Write V) :=
  job.writeSet.flatMap fun x => x.2.writes x.1 writeVersion

/-- What is left of a `TXend`: the step it is at, what comes after it in the same loop, and the nodes
it has locked. -/
inductive Ending (V : Type) (m : Nat) where
  | lock (job : Job V m) (n : NodeId) (todo locked : List NodeId)
  | check (job : Job V m) (n : NodeId) (todo locked : List NodeId)
  /-- it has found a singleton's mark, and aborts -/
  | moveOn (n : NodeId) (locked : List NodeId)
  | clearMark (n : NodeId) (locked : List NodeId)
  | increment (job : Job V m) (locked : List NodeId)
  | write (job : Job V m) (writeVersion : Nat) (w : Write V) (todo : List (Write V))
      (locked : List NodeId)
  | unlock (locked : List NodeId) (updates : List (IndexUpdate m)) (committed : Bool)
  | index (u : IndexUpdate m) (todo : List (IndexUpdate m))
  | done (committed : Bool)
  | stopped (fault : Fault)

/-- What a step leaves open: the locked node that is next in the order they are unlocked in, the fuel of
an index call, and the level drawn for a node added to the index. -/
structure Pick where
  node : NodeId := 0
  fuel : Nat := 0
  level : Nat := 0
  deriving DecidableEq, Repr

namespace Ending

variable {K V : Type} {m : Nat}

/-- The nodes locked and not unlocked yet. -/
def held : Ending V m → List NodeId
  | .lock _ _ _ locked | .check _ _ _ locked | .moveOn _ locked | .clearMark _ locked
  | .increment _ locked | .write _ _ _ _ locked | .unlock locked _ _ => locked
  | .index _ _ | .done _ | .stopped _ => []

def indexing : List (IndexUpdate m) → Ending V m
  | [] => .done true
  | u :: us => .index u us

/-- Unlock, then bring the indexes up to date if there is anything to do. -/
def unlocking (locked : List NodeId) (updates : List (IndexUpdate m)) (committed : Bool) : Ending V m :=
  if locked = [] then (if committed then indexing updates else .done false)
  else .unlock locked updates committed

def aborting (locked : List NodeId) : Ending V m := unlocking locked [] false

def writing (job : Job V m) (writeVersion : Nat) (locked : List NodeId) : List (Write V) → Ending V m
  | [] => unlocking locked job.updates true
  | w :: ws => .write job writeVersion w ws locked

def checking (job : Job V m) (locked : List NodeId) : List NodeId → Ending V m
  | [] => if job.readOnly then unlocking locked [] true else .increment job locked
  | n :: ns => .check job n ns locked

def locking (job : Job V m) (locked : List NodeId) : List NodeId → Ending V m
  | [] => checking job locked job.readSet
  | n :: ns => .lock job n ns locked

/-- `TXend` at its start. -/
def start (job : Job V m) : Ending V m :=
  if job.TX then locking job [] (job.writeSet.map Prod.fst) else aborting []

variable [LinearOrder K]

/-- One step: what it does to the shared memory and what is left to do. -/
def step (s : Shared K V m) (p : Pick) : Ending V m → Option (Effect K V m × Ending V m)
  | .lock job n ns locked =>
    let w := (s.mem n).word
    some (if w.lock then (.none, aborting locked)
      else (.lock n { w with lock := true }, locking job (n :: locked) ns))
  | .check job n ns locked =>
    let w := (s.mem n).word
    some (.none, if n ∉ locked ∧ w.lock then aborting locked
      else if job.readVersion < w.version then aborting locked
      else if w.version = job.readVersion ∧ w.singleton then .moveOn n locked
      else checking job locked ns)
  | .moveOn n locked => some (.increment, .clearMark n locked)
  | .clearMark n locked =>
    let w := (s.mem n).word
    some (if w.lock then (.store n ((Setter.setSingleton false).apply w), aborting locked)
      else (.none, .stopped .setterNotLocked))
  | .increment job locked =>
    some (.increment, if job.readVersion < s.gvc + 1 then
        writing job (s.gvc + 1) locked (job.writes (s.gvc + 1))
      else .stopped .writeVersion)
  | .write job writeVersion (.next n o) ws locked =>
    some (.next n o, writing job writeVersion locked ws)
  | .write job writeVersion (.val n v) ws locked =>
    some (.val n v, writing job writeVersion locked ws)
  | .write job writeVersion (.set n f) ws locked =>
    let w := (s.mem n).word
    some (if w.lock then (.store n (f.apply w), writing job writeVersion locked ws)
      else (.none, .stopped .setterNotLocked))
  | .unlock locked updates committed =>
    if p.node ∈ locked then
      let w := (s.mem p.node).word
      some (if w.lock then
          (.unlock p.node { w with lock := false }, unlocking (locked.erase p.node) updates committed)
        else (.none, .stopped .unlockNotLocked))
    else none
  | .index (.add l n) us =>
    ((s.index l).add s.view p.fuel p.level n).map fun ix => (.index l ix, indexing us)
  | .index (.remove l n) us =>
    ((s.index l).remove s.view p.fuel n).map fun ix => (.index l ix, indexing us)
  | .index (.retire n) us => some (.retire n, indexing us)
  | .done _ | .stopped _ => none

end Ending

end TxList
