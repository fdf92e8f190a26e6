import TxList.LNode
import Mathlib.Algebra.Group.Nat.Defs

/-!
# The version word

`m_version_mask` is one 64-bit word. The operations on it are written out with their masks here, for
one thread: nothing comes between a load and the `compare_exchange_strong` or the store after it.
Beside each stands what the nodes of this development do, whose word has a field for each part.
-/

namespace TxList

/-- The value of `m_version_mask`. -/
abbrev VersionMask := BitVec 64

namespace VersionMask

def lockMask : VersionMask := 0x1000000000000000#64

def deleteMask : VersionMask := 0x2000000000000000#64

def singletonMask : VersionMask := 0x4000000000000000#64

def versionNegMask : VersionMask := lockMask ||| deleteMask ||| singletonMask

def isLocked (l : VersionMask) : Bool := l &&& lockMask != 0

def isDeleted (l : VersionMask) : Bool := l &&& deleteMask != 0

def isLockedOrDeleted (l : VersionMask) : Bool := l &&& deleteMask != 0 || l &&& lockMask != 0

def isSingleton (l : VersionMask) : Bool := l &&& singletonMask != 0

def getVersion (l : VersionMask) : BitVec 64 := l &&& ~~~versionNegMask

def isSameVersionAndSingleton (l : VersionMask) (version : BitVec 64) : Bool :=
  if l &&& singletonMask != 0 then l &&& ~~~versionNegMask == version else false

/-- `compare_exchange_strong`: whether it found the expected word, and the word after it. -/
def compareExchange (w expected desired : VersionMask) : Bool × VersionMask :=
  if w = expected then (true, desired) else (false, w)

def tryLock (l : VersionMask) : Bool × VersionMask :=
  if l &&& lockMask != 0 then (false, l) else compareExchange l l (l ||| lockMask)

/-- The word that a flag's setter stores. -/
def setFlag (mask : VersionMask) (value : Bool) (l : VersionMask) : VersionMask :=
  if value then l ||| mask else l &&& ~~~mask

/-- The word with another version, before it is stored. -/
def withVersion (version : BitVec 64) (l : VersionMask) : VersionMask :=
  (l &&& versionNegMask) ||| (version &&& ~~~versionNegMask)

end VersionMask

/-- The operations that change a node's version word. -/
inductive WordOp where
  | tryLock
  | unlock
  | setDeleted (value : Bool)
  | setSingleton (value : Bool)
  | setSingletonNoLockAssert (value : Bool)
  | setVersion (version : BitVec 64)
  | setVersionAndSingleton (version : BitVec 64) (value : Bool)
  | setVersionAndSingletonNoLockAssert (version : BitVec 64) (value : Bool)
  | setVersionAndDeletedAndSingleton (version : BitVec 64) (deleted singleton : Bool)
  deriving DecidableEq, Repr

namespace WordOp

open VersionMask

/-- The operation has no version argument, or one of at most 60 bits. -/
def InRange : WordOp → Prop
  | .setVersion version | .setVersionAndSingleton version _
  | .setVersionAndSingletonNoLockAssert version _
  | .setVersionAndDeletedAndSingleton version _ _ => version.toNat < 2 ^ 60
  | _ => True

instance : DecidablePred InRange := fun op => by
  cases op <;> unfold InRange <;> infer_instance

/-- The operation on the 64-bit word: what `tryLock` returns, and the word stored. `none` is an
assertion that does not hold. -/
def onMask : WordOp → VersionMask → Option (Option Bool × VersionMask)
  | .tryLock, l => some ((VersionMask.tryLock l).map some id)
  | .unlock, l =>
    if l &&& lockMask != 0 then
      let (ret, w) := compareExchange l l (l &&& ~~~lockMask)
      if ret then some (none, w) else none
    else none
  | .setDeleted value, l =>
    if l &&& lockMask != 0 then some (none, setFlag deleteMask value l) else none
  | .setSingleton value, l =>
    if l &&& lockMask != 0 then some (none, setFlag singletonMask value l) else none
  | .setSingletonNoLockAssert value, l => some (none, setFlag singletonMask value l)
  | .setVersion version, l =>
    if l &&& lockMask != 0 then some (none, withVersion version l) else none
  | .setVersionAndSingleton version value, l =>
    if l &&& lockMask != 0 then some (none, setFlag singletonMask value (withVersion version l))
    else none
  | .setVersionAndSingletonNoLockAssert version value, l =>
    some (none, setFlag singletonMask value (withVersion version l))
  | .setVersionAndDeletedAndSingleton version deleted singleton, l =>
    if l &&& lockMask != 0 then
      some (none, setFlag deleteMask deleted (setFlag singletonMask singleton (withVersion version l)))
    else none

variable {K V : Type}

/-- The changed node, if the assertion that it is locked holds. -/
def whenLocked (n n' : LNode K V) : Option (Option Bool × LNode K V) :=
  if n.isLocked then some (none, n') else none

/-- The operation on a node whose word is a record. -/
def onNode : WordOp → LNode K V → Option (Option Bool × LNode K V)
  | .tryLock, n => some (if n.isLocked then (some false, n) else (some true, n.setLock true))
  | .unlock, n => whenLocked n (n.setLock false)
  | .setDeleted value, n => whenLocked n (n.setDeleted value)
  | .setSingleton value, n => whenLocked n (n.setSingleton value)
  | .setSingletonNoLockAssert value, n => some (none, n.setSingleton value)
  | .setVersion version, n => whenLocked n (n.setVersion version.toNat)
  | .setVersionAndSingleton version value, n =>
    whenLocked n (n.setVersionAndSingleton version.toNat value)
  | .setVersionAndSingletonNoLockAssert version value, n =>
    some (none, n.setVersionAndSingleton version.toNat value)
  | .setVersionAndDeletedAndSingleton version deleted singleton, n =>
    whenLocked n (n.setVersionAndDeletedAndSingleton version.toNat deleted singleton)

/-- The operations in turn: what they returned, and the state they end in. -/
def run {S : Type} (f : WordOp → S → Option (Option Bool × S)) :
    List WordOp → S → Option (List (Option Bool) × S)
  | [], s => some ([], s)
  | op :: ops, s => do
    let (r, s₁) ← f op s
    let (rs, s₂) ← run f ops s₁
    return (r :: rs, s₂)

end WordOp

/-- The getters answer from the 64-bit word as they do from the node's record, and comparing versions
there is comparing the record's version. -/
structure VersionMask.Answers {K V : Type} (l : VersionMask) (n : LNode K V) : Prop where
  isLocked : VersionMask.isLocked l = n.isLocked
  isDeleted : VersionMask.isDeleted l = n.isDeleted
  isLockedOrDeleted : VersionMask.isLockedOrDeleted l = n.isLockedOrDeleted
  isSingleton : VersionMask.isSingleton l = n.isSingleton
  getVersion : (VersionMask.getVersion l).toNat = n.getVersion
  isSameVersionAndSingleton : ∀ version : BitVec 64,
    VersionMask.isSameVersionAndSingleton l version = n.isSameVersionAndSingleton version.toNat
  newer : ∀ version : BitVec 64, version < VersionMask.getVersion l ↔ version.toNat < n.getVersion
  same : ∀ version : BitVec 64, VersionMask.getVersion l = version ↔ n.getVersion = version.toNat

end TxList
