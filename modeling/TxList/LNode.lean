import Mathlib.Data.List.AList
import Mathlib.Data.Finset.Insert
import Mathlib.Order.WithBot

/-!
# The list's nodes

A node holds its key, its value (absent once the node is removed), the pointer to the next node
and the version word: the lock, deleted and singleton bits and the version the node was last
stamped with. Pointers are node numbers; the null `LNodeWrapper` is `none`. The wrapper's own
`deleted` flag is never set in any build, so `is_deleted()` is `false` throughout and is left out.

The version counter is a natural number: the word keeps 60 bits of it.
-/

namespace TxList

/-- A pointer to a list node. -/
abbrev NodeId := Nat

/-- `m_version_mask`, with its bits as fields. -/
structure Word where
  lock : Bool := false
  deleted : Bool := false
  singleton : Bool := false
  version : Nat := 0
  deriving DecidableEq, Repr

namespace Word

def isLockedOrDeleted (w : Word) : Bool := w.deleted || w.lock

def isSameVersionAndSingleton (w : Word) (version : Nat) : Bool :=
  w.singleton && w.version == version

end Word

/-- `LNode<key_t, val_t>`. -/
structure LNode (K V : Type) where
  key : K
  val : Option V := none
  next : Option NodeId := none
  word : Word := {}
  deriving DecidableEq, Repr

namespace LNode

variable {K V : Type}

def isLocked (n : LNode K V) : Bool := n.word.lock

def isDeleted (n : LNode K V) : Bool := n.word.deleted

def isLockedOrDeleted (n : LNode K V) : Bool := n.word.isLockedOrDeleted

def isSingleton (n : LNode K V) : Bool := n.word.singleton

def getVersion (n : LNode K V) : Nat := n.word.version

def isSameVersionAndSingleton (n : LNode K V) (version : Nat) : Bool :=
  n.word.isSameVersionAndSingleton version

def setLock (n : LNode K V) (b : Bool) : LNode K V := { n with word := { n.word with lock := b } }

def setDeleted (n : LNode K V) (b : Bool) : LNode K V :=
  { n with word := { n.word with deleted := b } }

def setSingleton (n : LNode K V) (b : Bool) : LNode K V :=
  { n with word := { n.word with singleton := b } }

def setVersion (n : LNode K V) (version : Nat) : LNode K V :=
  { n with word := { n.word with version := version } }

def setVersionAndSingleton (n : LNode K V) (version : Nat) (b : Bool) : LNode K V :=
  { n with word := { n.word with version := version, singleton := b } }

def setVersionAndDeletedAndSingleton (n : LNode K V) (version : Nat) (deleted singleton : Bool) :
    LNode K V :=
  { n with word := { n.word with version, deleted, singleton } }

end LNode

/-- `WriteElement<key_t, val_t>`: what a commit is to write to a node. -/
structure WriteElement (V : Type) where
  next : Option NodeId
  val : Option V
  deleted : Bool := false
  deriving DecidableEq, Repr

/-- What `TXend`'s write-back leaves in a node it holds locked. -/
def LNode.writeBack {K V : Type} (n : LNode K V) (we : WriteElement V) (writeVersion : Nat) :
    LNode K V :=
  let n := { n with next := we.next, val := we.val }
  let n := if we.deleted then { n.setDeleted true with val := none } else n
  (n.setVersion writeVersion).setSingleton false

end TxList
