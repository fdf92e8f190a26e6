import TxList.LNode

/-!
# The index

A skip list over the list's nodes. Each level is a chain of index nodes by `m_right` from the
level's head; `m_down` leads to the index node of the same list node one level down. Heads are
index nodes too, with their level and a pointer up to the next head.

Searches unlink the index nodes of list nodes that hold no value. A search's loops take fuel:
`none` stands for a call that does not return, because it loops or because an assertion stops the
program. Each call here runs alone; the level drawn by `createNewIndexNode` is a parameter.
-/

namespace TxList

/-- A pointer to an index node. -/
abbrev IdxId := Nat

/-- `IndexNode`; `level` and `up` are the fields `HeadIndex` adds. -/
structure IndexNode where
  node : NodeId
  right : Option IdxId := none
  down : Option IdxId := none
  level : Nat := 0
  up : Option IdxId := none
  deriving DecidableEq, Repr

/-- What the index reads of a list node: its key, and whether it still holds a value. -/
structure NodeView (K : Type) where
  key : NodeId → K
  live : NodeId → Bool

/-- `Index<key_t, val_t>`: the index nodes, the next unused one, and the two head pointers. -/
structure Index where
  nodes : IdxId → IndexNode
  fresh : Nat
  headTop : IdxId
  headBottom : IdxId

namespace Index

variable {K : Type} [LinearOrder K] (v : NodeView K)

/-- The constructor: one head, for level `0`. -/
def new (headNode : NodeId) : Index where
  nodes := fun _ => { node := headNode }
  fresh := 1
  headTop := 0
  headBottom := 0

def setNode (ix : Index) (i : IdxId) (n : IndexNode) : Index :=
  { ix with nodes := Function.update ix.nodes i n }

def setRight (ix : Index) (i : IdxId) (r : Option IdxId) : Index :=
  ix.setNode i { ix.nodes i with right := r }

def setUp (ix : Index) (i : IdxId) (u : Option IdxId) : Index :=
  ix.setNode i { ix.nodes i with up := u }

/-- The list node an index node stands for holds a value. -/
def live (ix : Index) (i : IdxId) : Bool := v.live (ix.nodes i).node

def casRight (ix : Index) (i : IdxId) (cmp val : Option IdxId) : Index × Bool :=
  if (ix.nodes i).right = cmp then (ix.setRight i val, true) else (ix, false)

def link (ix : Index) (i : IdxId) (succ : Option IdxId) (newSucc : IdxId) : Index × Bool :=
  let ix := ix.setRight newSucc succ
  if ix.live v i then ix.casRight i succ (some newSucc) else (ix, false)

def unlink (ix : Index) (i succ : IdxId) : Index × Bool :=
  if ix.live v i then ix.casRight i (some succ) (ix.nodes succ).right else (ix, false)

/-- `walkLevel`: the inner `none` is the walk that has to restart. -/
def walkLevel (key : K) : Nat → Index → IdxId → Option (Index × Option (IdxId × Option IdxId))
  | 0, _, _ => none
  | fuel + 1, ix, q =>
    match (ix.nodes q).right with
    | none => some (ix, some (q, none))
    | some r =>
      if !ix.live v r then
        match ix.unlink v q r with
        | (ix, true) => walkLevel key fuel ix q
        | (ix, false) => some (ix, none)
      else if v.key (ix.nodes r).node < key then walkLevel key fuel ix r
      else some (ix, some (q, some r))

/-- Walk a level from `curr`, again from the level's head as long as the walk has to restart. -/
def walkUntil (key : K) (fuel : Nat) (levelHead : IdxId) :
    Nat → Index → IdxId → Option (Index × IdxId × IdxId × Option IdxId)
  | 0, _, _ => none
  | n + 1, ix, curr =>
    match walkLevel v key fuel ix curr with
    | none => none
    | some (ix, some (prev, next)) => some (ix, curr, prev, next)
    | some (ix, none) => walkUntil key fuel levelHead n ix levelHead

/-- The loops of `findInsertionPoints`, at `level` with `curr` to start from. The points found
so far are those of the levels above. -/
def descend (key : K) (fuel : Nat) : Nat → Index → IdxId → IdxId → Nat →
    List (IdxId × Option IdxId) → Option (Index × List (IdxId × Option IdxId))
  | 0, _, _, _, _, _ => none
  | n + 1, ix, levelHead, curr, level, points =>
    if !ix.live v curr then
      descend key fuel n ix ix.headTop ix.headTop (ix.nodes ix.headTop).level []
    else
      match walkUntil v key fuel levelHead fuel ix curr with
      | none => none
      | some (ix, curr, prev, next) =>
        if !ix.live v prev then descend key fuel n ix levelHead curr level points
        else
          match (ix.nodes prev).down, level with
          | none, 0 => some (ix, (prev, next) :: points)
          | none, _ + 1 => none
          | some _, 0 => descend key fuel n ix ix.headTop ix.headTop (ix.nodes ix.headTop).level []
          | some d, level + 1 =>
            descend key fuel n ix ((ix.nodes levelHead).down.getD levelHead) d level
              ((prev, next) :: points)

/-- `findInsertionPoints`: `prevs` and `nexts`, from level `0` up. -/
def findInsertionPoints (key : K) (fuel : Nat) (ix : Index) :
    Option (Index × List (IdxId × Option IdxId)) :=
  descend v key fuel fuel ix ix.headTop ix.headTop (ix.nodes ix.headTop).level []

def findPredecessor (key : K) (fuel : Nat) (ix : Index) : Option (Index × NodeId) :=
  match findInsertionPoints v key fuel ix with
  | some (ix, (prev, _) :: _) => some (ix, (ix.nodes prev).node)
  | _ => none

/-- `getPred`, looking again as long as the node found has lost its value. -/
def getPredLoop (key : K) (fuel : Nat) : Nat → Index → Option (Index × NodeId)
  | 0, _ => none
  | n + 1, ix =>
    match findPredecessor v key fuel ix with
    | none => none
    | some (ix, b) => if v.live b then some (ix, b) else getPredLoop key fuel n ix

def getPred (key : K) (fuel : Nat) (ix : Index) : Option (Index × NodeId) :=
  getPredLoop v key fuel fuel ix

/-- `createNewIndexNode`, once the level is drawn: `count` new index nodes for `n`, each above
the last. -/
def createNewIndexNodes (n : NodeId) : Nat → Option IdxId → Index → Index × List IdxId
  | 0, _, ix => (ix, [])
  | count + 1, down, ix =>
    let i := ix.fresh
    let ix := { ix.setNode i { node := n, down := down } with fresh := i + 1 }
    let (ix, idxs) := createNewIndexNodes n count (some i) ix
    (ix, i :: idxs)

/-- `insert_in_level`, which gives up on a new node whose list node holds a value. -/
def insertInLevel (fuel : Nat) (newNode head : IdxId) :
    Nat → Index → IdxId → Option IdxId → Option (Index × Bool)
  | 0, _, _, _ => none
  | n + 1, ix, prev, next =>
    match ix.link v prev next newNode with
    | (ix, true) => some (ix, true)
    | (ix, false) =>
      if ix.live v newNode then some (ix, false)
      else
        match walkUntil v (v.key (ix.nodes newNode).node) fuel head fuel ix head with
        | none => none
        | some (ix, _, prev, next) => insertInLevel fuel newNode head n ix prev next

/-- The loop of `add` that links the new index nodes from the bottom up: the number of levels
linked, or `none` inside when `insert_in_level` gave up. -/
def insertLevels (fuel : Nat) (idxs : List IdxId) (points : List (IdxId × Option IdxId))
    (level : Nat) : Nat → Index → Option IdxId → Nat → Option (Index × Option Nat)
  | 0, _, _, _ => none
  | _ + 1, ix, none, linked => some (ix, some linked)
  | n + 1, ix, some head, linked =>
    let curr := (ix.nodes head).level
    if curr < level + 1 ∧ curr < points.length then
      match idxs[curr]?, points[curr]? with
      | some i, some (prev, next) =>
        match insertInLevel v fuel i head fuel ix prev next with
        | none => none
        | some (ix, false) => some (ix, none)
        | some (ix, true) => insertLevels fuel idxs points level n ix (ix.nodes head).up (linked + 1)
      | _, _ => none
    else some (ix, some linked)

/-- `casHead`, up to a new top head over `cmp` or down to the head below it. -/
def casHead (ix : Index) (cmp val : IdxId) (up : Bool) : Option (Index × Bool) :=
  if ix.headTop = cmp then
    if up then
      if (ix.nodes val).down = some cmp ∧ (ix.nodes val).up = none then
        some ({ ix.setUp cmp (some val) with headTop := val }, true)
      else none
    else some ({ ix.setUp val none with headTop := val }, true)
  else some (ix, false)

/-- `add`, with `drawn` the level drawn before it is capped. -/
def add (fuel drawn : Nat) (n : NodeId) (ix : Index) : Option Index :=
  match findInsertionPoints v (v.key n) fuel ix with
  | none => none
  | some (ix, points) =>
    let level := min drawn (points.length + 1)
    let (ix, idxs) := ix.createNewIndexNodes n (level + 1) none
    match insertLevels v fuel idxs points level fuel ix (some ix.headBottom) 0 with
    | none => none
    | some (ix, none) => some ix
    | some (ix, some insertionLevel) =>
      if insertionLevel = level + 1 then some ix
      else
        let head := ix.headTop
        let oldLevel := (ix.nodes head).level
        if oldLevel > insertionLevel then some ix
        else if oldLevel < level then
          let newh := ix.fresh
          let ix := { ix.setNode newh
            { node := (ix.nodes head).node, down := some head, right := idxs[oldLevel + 1]?,
              level := oldLevel + 1 } with fresh := newh + 1 }
          (ix.casHead head newh true).map Prod.fst
        else some ix

def tryReduceLevel (ix : Index) : Option Index :=
  let h := ix.headTop
  if (ix.nodes h).level < 3 then some ix
  else
    match (ix.nodes h).down with
    | none => none
    | some d =>
      match (ix.nodes d).down with
      | none => some ix
      | some e =>
        if (ix.nodes e).right = none ∧ (ix.nodes d).right = none ∧ (ix.nodes h).right = none then
          match ix.casHead h d false with
          | none => none
          | some (ix, false) => some ix
          | some (ix, true) =>
            if (ix.nodes h).right = none then some ix
            else (ix.casHead d h true).map Prod.fst
        else some ix

/-- `remove`: a search for the node's key, which unlinks what it crosses of dead nodes. -/
def remove (fuel : Nat) (n : NodeId) (ix : Index) : Option Index :=
  match findPredecessor v (v.key n) fuel ix with
  | none => none
  | some (ix, _) =>
    if (ix.nodes ix.headTop).right = none then ix.tryReduceLevel else some ix

end Index

end TxList
