import TxList.System
import Mathlib.Data.Finset.Basic

/-!
# Runs of single accesses

The singleton operations and `TXend` once more, now with every access to shared memory a step of its
own: each read and write of `m_next` and `m_val`, each load, store and `compare_exchange_strong` of a
version word, each access to the clock, and each call of an index. `m_key` is never written after a
node is allocated, so its reads take no step.

What a thread has still to do is its `Pc`. The steps that use nothing of what they read but a bit
carry the rest of the program with them; where the program goes on with what it has read there is a
`Pc` of its own, which holds the variables in use there.
-/

namespace TxList

/-- The tests on one load of a version word. -/
inductive Test where
  | isLocked
  | isDeleted
  | isLockedOrDeleted
  | isSingleton
  /-- `getVersion() > version` -/
  | newer (version : Nat)
  /-- `getVersion() == version` -/
  | sameVersion (version : Nat)
  deriving DecidableEq, Repr

def Test.holds : Test → Word → Bool
  | .isLocked, w => w.lock
  | .isDeleted, w => w.deleted
  | .isLockedOrDeleted, w => w.isLockedOrDeleted
  | .isSingleton, w => w.singleton
  | .newer version, w => decide (version < w.version)
  | .sameVersion version, w => w.version == version

/-- The setters of a version word: each loads it and stores it changed. -/
inductive Setter where
  | setDeleted (value : Bool)
  | setSingleton (value : Bool)
  | setVersion (version : Nat)
  | setVersionAndSingleton (version : Nat) (value : Bool)
  | setVersionAndSingletonNoLockAssert (version : Nat) (value : Bool)
  | setVersionAndDeletedAndSingleton (version : Nat) (deleted singleton : Bool)
  deriving DecidableEq, Repr

/-- The setter asserts that the word it has loaded has the lock bit. -/
def Setter.asserts : Setter → Bool
  | .setVersionAndSingletonNoLockAssert _ _ => false
  | _ => true

def Setter.apply : Setter → Word → Word
  | .setDeleted value, w => { w with deleted := value }
  | .setSingleton value, w => { w with singleton := value }
  | .setVersion version, w => { w with version }
  | .setVersionAndSingleton version value, w => { w with version, singleton := value }
  | .setVersionAndSingletonNoLockAssert version value, w => { w with version, singleton := value }
  | .setVersionAndDeletedAndSingleton version deleted singleton, w =>
    { w with version, deleted, singleton }

/-- What stops the program. -/
inductive Fault where
  | nullDereference
  /-- `unlock` has loaded a word without the lock bit -/
  | unlockNotLocked
  /-- the `compare_exchange_strong` of `unlock` has failed -/
  | unlockFailed
  /-- a setter has loaded a word without the lock bit -/
  | setterNotLocked
  /-- `TXend` has drawn a version that is not greater than the one read at `TXbegin` -/
  | writeVersion
  deriving DecidableEq, Repr

/-- A call outside of transactions. -/
inductive Access (K V : Type) (m : Nat) where
  | put (l : ListId m) (key : K) (val : V)
  | remove (l : ListId m) (key : K)
  | get (l : ListId m) (key : K)
  deriving DecidableEq, Repr

namespace Access

variable {K V : Type} {m : Nat}

def list : Access K V m → ListId m
  | .put l _ _ | .remove l _ | .get l _ => l

def key : Access K V m → K
  | .put _ key _ | .remove _ key | .get _ key => key

end Access

/-- What `TXend` works on: the thread's storage, each set in the order it is gone through, and what it
reads of the transaction. -/
structure Job (V : Type) (m : Nat) where
  TX : Bool
  readOnly : Bool
  readVersion : Nat
  writeSet : List (NodeId × WriteElement V)
  readSet : List NodeId
  indexAdd : List (ListId m × NodeId)
  indexRemove : List (ListId m × NodeId)

/-- The nodes the storage has pointers to. -/
def Job.nodes {V : Type} {m : Nat} (job : Job V m) : List NodeId :=
  job.writeSet.map Prod.fst ++ job.writeSet.filterMap (fun x => x.2.next) ++ job.readSet ++
    job.indexAdd.map Prod.snd ++ job.indexRemove.map Prod.snd

/-- What a thread has still to do. -/
inductive Pc (K V : Type) (m : Nat) where
  | idle
  | returned (op : Access K V m) (ret : Option V)
  | ended (committed : Bool)
  | stopped (fault : Fault)
  -- accesses that the program goes on from in one or in two ways
  | test (n : NodeId) (p : Test) (yes no : Pc K V m)
  | tryLock (n : NodeId) (yes no : Pc K V m)
  | tryLockCas (n : NodeId) (l : Word) (yes no : Pc K V m)
  | unlock (n : NodeId) (k : Pc K V m)
  | unlockCas (n : NodeId) (l : Word) (k : Pc K V m)
  | set (n : NodeId) (f : Setter) (k : Pc K V m)
  | store (n : NodeId) (w : Word) (k : Pc K V m)
  | setNext (n : NodeId) (next : Option NodeId) (k : Pc K V m)
  | setVal (n : NodeId) (val : Option V) (k : Pc K V m)
  | increment (k : Pc K V m)
  | indexAdd (l : ListId m) (n : NodeId) (k : Pc K V m)
  | indexRemove (l : ListId m) (n : NodeId) (k : Pc K V m)
  | retire (n : NodeId) (k : Pc K V m)
  -- `getPredSingleton`
  | getPred (op : Access K V m) (key : K)
  | predTest (op : Access K V m) (pred : NodeId)
  -- `find_node_singelton`
  | firstTest (op : Access K V m) (pred : NodeId)
  | firstNext (op : Access K V m) (pred : NodeId)
  | firstRetest (op : Access K V m) (pred : NodeId) (next : Option NodeId)
  | nextTest (op : Access K V m) (pred next : NodeId)
  | reread (op : Access K V m) (pred next : NodeId)
  | nextLocked (op : Access K V m) (pred next : NodeId)
  | nextSame (op : Access K V m) (pred next : NodeId)
  | advance (op : Access K V m) (pred next : NodeId)
  | advanceNext (op : Access K V m) (pred : NodeId)
  | advanceTest (op : Access K V m) (pred : NodeId) (next : Option NodeId)
  | found (op : Access K V m) (found : Bool) (pred : NodeId) (next : Option NodeId)
  -- `putSingleton`, the key found
  | putNode (l : ListId m) (key : K) (val : V) (pred : NodeId) (next : Option NodeId)
  | putCheck (l : ListId m) (key : K) (val : V) (node : NodeId) (next : Option NodeId)
  | putRead (l : ListId m) (key : K) (val : V) (node : NodeId)
  | putVersion (l : ListId m) (key : K) (val : V) (node : NodeId) (ret : Option V)
  -- `putSingleton`, a new node
  | insertSame (l : ListId m) (key : K) (val : V) (pred : NodeId) (next : Option NodeId)
  | insertNew (l : ListId m) (key : K) (val : V) (pred : NodeId) (next : Option NodeId)
  | insertNext (l : ListId m) (key : K) (val : V) (pred n : NodeId)
  | insertLink (l : ListId m) (key : K) (val : V) (pred n : NodeId) (after : Option NodeId)
  | insertPublish (l : ListId m) (key : K) (val : V) (pred n : NodeId)
  | insertVersion (l : ListId m) (key : K) (val : V) (pred n : NodeId)
  -- `removeSingleton`
  | removeSame (l : ListId m) (key : K) (pred : NodeId) (next : Option NodeId)
  | removeRead (l : ListId m) (key : K) (pred next : NodeId)
  | removeSecond (l : ListId m) (key : K) (pred next : NodeId) (ret : Option V)
  | removeAfter (l : ListId m) (key : K) (pred next second : NodeId) (ret : Option V)
  | removeUnlink (l : ListId m) (key : K) (pred next second : NodeId) (after : Option NodeId)
      (ret : Option V)
  | removeVersion (l : ListId m) (key : K) (pred next : NodeId) (ret : Option V)
  -- `getSingleton`
  | getVal (l : ListId m) (key : K) (next : NodeId)
  -- `TXend`
  | commit (job : Job V m) (locked : List NodeId)
  | release (locked : List NodeId) (k : Pc K V m)

/-- What a step does to the shared memory. -/
inductive Effect (K V : Type) (m : Nat) where
  | none
  | store (n : NodeId) (w : Word)
  | lock (n : NodeId) (w : Word)
  | unlock (n : NodeId) (w : Word)
  | next (n : NodeId) (next : Option NodeId)
  | val (n : NodeId) (val : Option V)
  | alloc (key : K) (val : V)
  | increment
  | index (l : ListId m) (ix : Index)
  | retire (n : NodeId)

/-- What a step leaves open: the fuel of an index call, the level drawn for a node added to the index,
and the order the locked nodes are gone through in. -/
structure Draw where
  fuel : Nat
  level : Nat := 0
  order : List NodeId := []

variable {K V : Type} {m : Nat}

def Effect.apply : Effect K V m → Shared K V m → Shared K V m
  | .none, s => s
  | .store n w, s | .lock n w, s | .unlock n w, s => s.setNode n { s.mem n with word := w }
  | .next n o, s => s.setNode n { s.mem n with next := o }
  | .val n o, s => s.setNode n { s.mem n with val := o }
  | .alloc key v, s =>
    { s.setNode s.fresh { key := key, val := some v } with fresh := s.fresh + 1 }
  | .increment, s => { s with gvc := s.gvc + 1 }
  | .index l ix, s => { s with index := Function.update s.index l ix }
  | .retire n, s => { s with retired := n :: s.retired }

namespace Pc

/-- The call starts, or `find_node_singelton` starts over. -/
def start (op : Access K V m) : Pc K V m := .getPred op op.key

/-- The head of the inner loop of `find_node_singelton`. -/
def loop (op : Access K V m) (pred : NodeId) : Option NodeId → Pc K V m
  | none => .found op false pred none
  | some next => .nextTest op pred next

/-- Check the read set in turn. -/
def validate (readVersion : Nat) (locked : List NodeId) (abort ok : Pc K V m) : List NodeId → Pc K V m
  | [] => ok
  | n :: ns =>
    let version := .test n (.newer readVersion) abort
      (.test n (.sameVersion readVersion)
        (.test n .isSingleton (.increment (.set n (.setSingleton false) abort))
          (validate readVersion locked abort ok ns))
        (validate readVersion locked abort ok ns))
    if n ∈ locked then version else .test n .isLocked abort version

/-- Write the write set back in turn. -/
def writeBack (writeVersion : Nat) (k : Pc K V m) : List (NodeId × WriteElement V) → Pc K V m
  | [] => k
  | (n, we) :: ws =>
    let stamp := .set n (.setVersion writeVersion)
      (.set n (.setSingleton false) (writeBack writeVersion k ws))
    .setNext n we.next (.setVal n we.val
      (if we.deleted then .set n (.setDeleted true) (.setVal n none stamp) else stamp))

/-- Bring the indexes up to date. -/
def updateIndex (job : Job V m) : Pc K V m :=
  job.indexAdd.foldr (fun x => .indexAdd x.1 x.2)
    (job.indexRemove.foldr (fun x k => .indexRemove x.1 x.2 (.retire x.2 k)) (.ended true))

/-- Lock the write set in turn, then check the read set. -/
def lockWriteSet (job : Job V m) : List NodeId → List NodeId → Pc K V m
  | [], locked =>
    validate job.readVersion locked (.release locked (.ended false))
      (if job.readOnly then .release locked (.ended true) else .commit job locked) job.readSet
  | n :: ns, locked =>
    .tryLock n (lockWriteSet job ns (n :: locked)) (.release locked (.ended false))

def TXend (job : Job V m) : Pc K V m :=
  if job.TX then lockWriteSet job (job.writeSet.map Prod.fst) [] else .release [] (.ended false)

/-- Go on from `find_node_singelton`. -/
def find (op : Access K V m) (b : Bool) (pred : NodeId) (next : Option NodeId) : Pc K V m :=
  match op, b with
  | .put l key val, true => .putNode l key val pred next
  | .put l key val, false =>
    .tryLock pred
      (.test pred .isDeleted (.unlock pred (start op)) (.insertSame l key val pred next))
      (start op)
  | .remove l key, true =>
    .tryLock pred
      (.test pred .isDeleted (.unlock pred (start op)) (.removeSame l key pred next))
      (start op)
  | .remove _ _, false => .returned op none
  | .get l key, true =>
    match next with
    | none => .stopped .nullDereference
    | some next => .getVal l key next
  | .get _ _, false => .returned op none

variable [LinearOrder K]

/-- One step: what it does to the shared memory and what is left to do. -/
def step (s : Shared K V m) (d : Draw) : Pc K V m → Option (Effect K V m × Pc K V m)
  | .idle | .returned _ _ | .ended _ | .stopped _ => none
  | .test n p yes no => some (.none, if p.holds (s.mem n).word then yes else no)
  | .tryLock n yes no =>
    let l := (s.mem n).word
    some (.none, if l.lock then no else .tryLockCas n l yes no)
  | .tryLockCas n l yes no =>
    if (s.mem n).word = l then some (.lock n { l with lock := true }, yes) else some (.none, no)
  | .unlock n k =>
    let l := (s.mem n).word
    some (.none, if l.lock then .unlockCas n l k else .stopped .unlockNotLocked)
  | .unlockCas n l k =>
    if (s.mem n).word = l then some (.unlock n { l with lock := false }, k)
    else some (.none, .stopped .unlockFailed)
  | .set n f k =>
    let l := (s.mem n).word
    some (.none, if f.asserts && !l.lock then .stopped .setterNotLocked else .store n (f.apply l) k)
  | .store n w k => some (.store n w, k)
  | .setNext n next k => some (.next n next, k)
  | .setVal n val k => some (.val n val, k)
  | .increment k => some (.increment, k)
  | .indexAdd l n k => ((s.index l).add s.view d.fuel d.level n).map fun ix => (.index l ix, k)
  | .indexRemove l n k => ((s.index l).remove s.view d.fuel n).map fun ix => (.index l ix, k)
  | .retire n k => some (.retire n, k)
  | .getPred op key =>
    ((s.index op.list).getPred s.view key d.fuel).map fun x => (.index op.list x.1, .predTest op x.2)
  | .predTest op pred =>
    some (.none, if (s.mem pred).isLockedOrDeleted then
        if pred = head op.list then .firstTest op pred else .getPred op (s.mem pred).key
      else .firstTest op pred)
  | .firstTest op pred => some (.none, if (s.mem pred).isLocked then start op else .firstNext op pred)
  | .firstNext op pred => some (.none, .firstRetest op pred (s.mem pred).next)
  | .firstRetest op pred next =>
    some (.none, if (s.mem pred).isLockedOrDeleted then start op else loop op pred next)
  | .nextTest op pred next =>
    some (.none, if (s.mem next).isLockedOrDeleted then start op
      else if (s.mem next).key = op.key then .reread op pred next
      else if op.key < (s.mem next).key then .found op false pred (some next)
      else .nextLocked op pred next)
  | .reread op pred _ => some (.none, .found op true pred (s.mem pred).next)
  | .nextLocked op pred next =>
    some (.none, if (s.mem next).isLocked then start op else .nextSame op pred next)
  | .nextSame op pred next =>
    some (.none, if (s.mem pred).next ≠ some next then start op else .advance op pred next)
  | .advance op pred _ =>
    match (s.mem pred).next with
    | none => some (.none, start op)
    | some pred => some (.none, .advanceNext op pred)
  | .advanceNext op pred => some (.none, .advanceTest op pred (s.mem pred).next)
  | .advanceTest op pred next =>
    some (.none, if (s.mem pred).isLockedOrDeleted then start op else loop op pred next)
  | .found op b pred next => some (.none, find op b pred next)
  | .putNode l key val pred next =>
    match (s.mem pred).next with
    | none => some (.none, .stopped .nullDereference)
    | some node => some (.none, .tryLock node (.putCheck l key val node next) (start (.put l key val)))
  | .putCheck l key val node next =>
    match next with
    | none => some (.none, .stopped .nullDereference)
    | some next =>
      some (.none, if (s.mem next).key ≠ key ∨ node ≠ next then .unlock node (start (.put l key val))
        else .test node .isDeleted (.unlock node (start (.put l key val))) (.putRead l key val node))
  | .putRead l key val node =>
    some (.none, .setVal node (some val)
      (.set node (.setSingleton true) (.putVersion l key val node (s.mem node).val)))
  | .putVersion l key val node ret =>
    some (.none, .set node (.setVersion s.gvc) (.unlock node (.returned (.put l key val) ret)))
  | .insertSame l key val pred next =>
    some (.none, if next ≠ (s.mem pred).next then .unlock pred (start (.put l key val))
      else .insertNew l key val pred next)
  | .insertNew l key val pred next =>
    -- at the end of the list the new node's `m_next` is left null
    some (.alloc key val, if next.isSome then .insertNext l key val pred s.fresh
      else .insertPublish l key val pred s.fresh)
  | .insertNext l key val pred n => some (.none, .insertLink l key val pred n (s.mem pred).next)
  | .insertLink l key val pred n after => some (.next n after, .insertPublish l key val pred n)
  | .insertPublish l key val pred n => some (.next pred (some n), .insertVersion l key val pred n)
  | .insertVersion l key val pred n =>
    some (.none, .set n (.setVersionAndSingletonNoLockAssert s.gvc true)
      (.unlock pred (.indexAdd l n (.returned (.put l key val) none))))
  | .removeSame l key pred next =>
    some (.none, if next ≠ (s.mem pred).next then .unlock pred (start (.remove l key))
      else match next with
        | none => .stopped .nullDereference
        | some next =>
          .tryLock next (.removeRead l key pred next) (.unlock pred (start (.remove l key))))
  | .removeRead l key pred next =>
    some (.none, .setVal next none (.removeSecond l key pred next (s.mem next).val))
  | .removeSecond l key pred next ret =>
    match (s.mem pred).next with
    | none => some (.none, .stopped .nullDereference)
    | some second => some (.none, .removeAfter l key pred next second ret)
  | .removeAfter l key pred next second ret =>
    some (.none, .removeUnlink l key pred next second (s.mem second).next ret)
  | .removeUnlink l key pred next _ after ret =>
    some (.next pred after, .removeVersion l key pred next ret)
  | .removeVersion l key pred next ret =>
    some (.none, .set next (.setVersionAndDeletedAndSingleton s.gvc true true)
      (.set pred (.setVersionAndSingleton s.gvc true) (.unlock next (.unlock pred
        (.indexRemove l next (.retire next (.returned (.remove l key) ret)))))))
  | .getVal l key next => some (.none, .returned (.get l key) (s.mem next).val)
  | .commit job locked =>
    some (.increment, if job.readVersion < s.gvc + 1 then
        writeBack (s.gvc + 1) (.release locked (updateIndex job)) job.writeSet
      else .stopped .writeVersion)
  | .release locked k => if d.order.Perm locked then some (.none, d.order.foldr .unlock k) else none

/-- The thread is in no call. -/
def resting : Pc K V m → Bool
  | .idle | .returned _ _ | .ended _ => true
  | _ => false

end Pc

/-! ## Runs -/

/-- The shared memory, what each thread has still to do, and for each thread the nodes whose lock it
has taken and not given back. -/
structure Machine (K V : Type) (m : Nat) where
  shared : Shared K V m
  pc : ThreadId → Pc K V m
  held : ThreadId → Finset NodeId

/-- What a thread does next: start a call, or take a step of the one it is in. -/
inductive Move (K V : Type) (m : Nat) where
  | access (op : Access K V m)
  /-- A transaction's `put` that has not found its key: `get_new_node`, and the write of the new
  node's `m_next`. No other thread has a pointer to the node before a `TXend` publishes it. -/
  | newNode (key : K) (val : V) (next : Option NodeId)
  /-- A read of a transaction has found the mark of a singleton, and increments the clock. -/
  | increment
  | txEnd (job : Job V m)
  | go (d : Draw)

/-- The locks held after a step. -/
def Effect.held : Effect K V m → Finset NodeId → Finset NodeId
  | .lock n _, H => insert n H
  | .unlock n _, H => H.erase n
  | _, H => H

namespace Machine

variable [LinearOrder K]

/-- The lists as constructed, with every thread idle. -/
def init (minKey : K) (dflt : V) : Machine K V m where
  shared := (Sys.init minKey dflt).shared
  pc := fun _ => .idle
  held := fun _ => ∅

/-- What the move of thread `t` does to the shared memory, and what the thread then has to do. The
storage `TXend` finds may be any, with pointers to nodes that are allocated, by this transaction's
`put`s or before. -/
def effect (M : Machine K V m) (t : ThreadId) : Move K V m → Option (Effect K V m × Pc K V m)
  | .access op => if (M.pc t).resting then some (.none, .start op) else none
  | .newNode key val next =>
    if (M.pc t).resting ∧ ∀ n ∈ next, n < M.shared.fresh then
      some (.alloc key val, .setNext M.shared.fresh next .idle)
    else none
  | .increment => if (M.pc t).resting then some (.increment, .idle) else none
  | .txEnd job =>
    if (M.pc t).resting ∧ ∀ n ∈ job.nodes, n < M.shared.fresh then some (.none, .TXend job) else none
  | .go d => (M.pc t).step M.shared d

/-- The state after an effect of thread `t`. -/
def put (M : Machine K V m) (t : ThreadId) (e : Effect K V m) (k : Pc K V m) : Machine K V m where
  shared := e.apply M.shared
  pc := Function.update M.pc t k
  held := Function.update M.held t (e.held (M.held t))

def next (M : Machine K V m) (t : ThreadId) (mv : Move K V m) : Option (Machine K V m) :=
  (M.effect t mv).map fun x => M.put t x.1 x.2

/-- A property of a step: the state before it, the thread, the move. -/
abbrev Guard (K V : Type) (m : Nat) := Machine K V m → ThreadId → Move K V m → Prop

/-- The states that runs reach from the lists as constructed whose steps all meet the guard. -/
inductive Reach (minKey : K) (dflt : V) (G : Guard K V m) : Machine K V m → Prop
  | init : Reach minKey dflt G (init minKey dflt)
  | step {M M' : Machine K V m} {t : ThreadId} {mv : Move K V m} :
      Reach minKey dflt G M → G M t mv → M.next t mv = some M' → Reach minKey dflt G M'

end Machine

end TxList
