import TxList.State
import TxList.Lib.Path

/-!
# What a list holds

A list's chain is what is met from its head by `m_next`; the key-to-value map is read off it. A
chain without a cycle has no more nodes than were allocated, which bounds the walk.
-/

namespace TxList

variable {K V : Type} {m : Nat}

/-- The list nodes on the index's bottom level, after the head. -/
def Index.bottomLevel (ix : Index) : List NodeId :=
  (Chain.walk (fun i => (ix.nodes i).right) ix.fresh (ix.nodes ix.headBottom).right).map
    fun i => (ix.nodes i).node

/-- The bottom level has the node, and it has a value or comes after a node of its key that has one. -/
def Index.Keeps (v : NodeView K) (ix : Index) (n : NodeId) : Prop :=
  n ∈ ix.bottomLevel ∧
    (v.live n = true ∨ ∃ r, [r, n].Sublist ix.bottomLevel ∧ v.live r = true ∧ v.key r = v.key n)

/-- The levels' heads, from the top one down. -/
inductive Index.IsHead (ix : Index) : IdxId → Prop
  | top : IsHead ix ix.headTop
  | down {i j : IdxId} : IsHead ix i → (ix.nodes i).down = some j → IsHead ix j

/-- The index nodes that `m_right` leads to from a level's head. -/
inductive Index.OnLevel (ix : Index) : IdxId → Prop
  | head {i : IdxId} : ix.IsHead i → OnLevel ix i
  | right {i j : IdxId} : OnLevel ix i → (ix.nodes i).right = some j → OnLevel ix j

/-- Some level holds an index node of the list node. -/
def Index.Holds (ix : Index) (n : NodeId) : Prop := ∃ i, ix.OnLevel i ∧ (ix.nodes i).node = n

namespace Shared

/-- The node `m_next` leads to. -/
def next (s : Shared K V m) (n : NodeId) : Option NodeId := (s.mem n).next

/-- The chain's nodes after the head. -/
def chain (s : Shared K V m) (l : ListId m) : List NodeId :=
  Chain.walk s.next s.fresh (s.next (head l))

/-- The nodes that `m_next` leads to from a head. -/
inductive Reaches (s : Shared K V m) : NodeId → Prop
  | head (l : ListId m) : Reaches s (TxList.head l)
  | next {n y : NodeId} : Reaches s n → s.next n = some y → Reaches s y

/-- The value of a key in the map read off the chain. -/
def lookup [DecidableEq K] (s : Shared K V m) (l : ListId m) (key : K) : Option V :=
  ((s.chain l).find? fun n => (s.mem n).key = key).bind fun n => (s.mem n).val

/-- The node of the head and the chain after which a node with the key belongs. -/
def below [LinearOrder K] (s : Shared K V m) (l : ListId m) (key : K) : NodeId :=
  (((s.chain l).filter fun n => (s.mem n).key < key).getLast?).getD (head l)

end Shared

end TxList
