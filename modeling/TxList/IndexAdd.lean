import TxList.Index

/-!
# `Index::add` among other threads

One call of `add`, with every access to an index node, to a value or to a head pointer a step of its
own, and between any two of its steps any steps of other threads: the compare-and-swap of a `link` or an
`unlink`, the change of a head, the nodes they prepare for it and the values they clear. The fields
`m_down`, `m_node`, `m_level` and `m_key` are constant, so reading them takes no step.
-/

namespace TxList

/-- The variables of `findInsertionPoints`. -/
structure Search where
  levelHead : IdxId
  curr : IdxId
  level : Nat
  points : List (IdxId × Option IdxId) := []
  deriving DecidableEq, Repr

/-- The variables of `add` once it has its new index nodes. `head` is the head of the level it is at, and
`linked` is `insertion_level`. -/
structure Insertion where
  points : List (IdxId × Option IdxId)
  level : Nat
  idxs : List IdxId
  head : IdxId
  linked : Nat := 0
  deriving DecidableEq, Repr

/-- Where `walkLevel` is called: in `findInsertionPoints`, or in `insert_in_level` for `newNode`. -/
inductive Walk where
  | search (s : Search)
  | insert (x : Insertion) (newNode : IdxId)
  deriving DecidableEq, Repr

/-- Where a walk that has to restart begins. -/
def Walk.start : Walk → IdxId
  | .search s => s.levelHead
  | .insert x _ => x.head

/-- The variables once the walk restarts. -/
def Walk.restarted : Walk → Walk
  | .search s => .search { s with curr := s.levelHead }
  | .insert x newNode => .insert x newNode

/-- What the call has still to do. -/
inductive AddPc where
  -- `findInsertionPoints`
  | search
  | enter (s : Search)
  -- `walkLevel`
  | walk (w : Walk) (q : IdxId)
  | look (w : Walk) (q r : IdxId)
  | unlinkTest (w : Walk) (q r : IdxId)
  | unlinkRead (w : Walk) (q r : IdxId)
  | unlinkCas (w : Walk) (q r : IdxId) (right : Option IdxId)
  | walked (w : Walk) (prev : IdxId) (next : Option IdxId)
  -- `createNewIndexNode`
  | create (points : List (IdxId × Option IdxId))
  -- `insert_in_level`
  | link (x : Insertion) (newNode prev : IdxId) (next : Option IdxId)
  | linkTest (x : Insertion) (newNode prev : IdxId) (next : Option IdxId)
  | linkCas (x : Insertion) (newNode prev : IdxId) (next : Option IdxId)
  | linkFailed (x : Insertion) (newNode : IdxId)
  | linked (x : Insertion)
  -- the end of `add`
  | grow (x : Insertion)
  | casHead (x : Insertion) (head : IdxId)
  /-- `insert_in_level` has returned false -/
  | gaveUp
  | returned
  deriving DecidableEq, Repr

namespace AddPc

variable {K : Type} [LinearOrder K] (v : NodeView K) (ix : Index) (n : NodeId)

/-- The head of the loop of `add`, with the level's head, and what comes after the loop. -/
def loop (x : Insertion) : Option IdxId → Option AddPc
  | none => some (if x.linked = x.level + 1 then .returned else .grow x)
  | some head =>
    let curr := (ix.nodes head).level
    if curr < x.level + 1 ∧ curr < x.points.length then
      match x.idxs[curr]?, x.points[curr]? with
      | some newNode, some (prev, next) => some (.link { x with head } newNode prev next)
      | _, _ => none
    else some (if x.linked = x.level + 1 then .returned else .grow x)

/-- One step: the index after it and what is left to do. -/
def step (drawn : Nat) : AddPc → Option (Index × AddPc)
  | .search =>
    let h := ix.headTop
    some (ix, .enter { levelHead := h, curr := h, level := (ix.nodes h).level })
  | .enter s => some (ix, if ix.live v s.curr then .walk (.search s) s.curr else .search)
  | .walk w q =>
    match (ix.nodes q).right with
    | none => some (ix, .walked w q none)
    | some r => some (ix, .look w q r)
  | .look w q r =>
    some (ix, if !ix.live v r then .unlinkTest w q r
      else if v.key (ix.nodes r).node < v.key n then .walk w r
      else .walked w q (some r))
  | .unlinkTest w q r =>
    some (ix, if ix.live v q then .unlinkRead w q r else .walk w.restarted w.start)
  | .unlinkRead w q r => some (ix, .unlinkCas w q r (ix.nodes r).right)
  | .unlinkCas w q r right =>
    match ix.casRight q (some r) right with
    | (ix, true) => some (ix, .walk w q)
    | (ix, false) => some (ix, .walk w.restarted w.start)
  | .walked (.search s) prev next =>
    if !ix.live v prev then some (ix, .enter s)
    else
      match (ix.nodes prev).down, s.level with
      | none, 0 => some (ix, .create ((prev, next) :: s.points))
      | none, _ + 1 => none
      | some _, 0 => some (ix, .search)
      | some d, level + 1 =>
        some (ix, .enter
          { levelHead := (ix.nodes s.levelHead).down.getD s.levelHead
            curr := d, level, points := (prev, next) :: s.points })
  | .walked (.insert x newNode) prev next => some (ix, .link x newNode prev next)
  | .create points =>
    let level := min drawn (points.length + 1)
    let (ix, idxs) := ix.createNewIndexNodes n (level + 1) none
    let head := ix.headBottom
    (loop ix { points, level, idxs, head } (some head)).map (ix, ·)
  | .link x newNode prev next => some (ix.setRight newNode next, .linkTest x newNode prev next)
  | .linkTest x newNode prev next =>
    some (ix, if ix.live v prev then .linkCas x newNode prev next else .linkFailed x newNode)
  | .linkCas x newNode prev next =>
    match ix.casRight prev next (some newNode) with
    | (ix, true) => some (ix, .linked x)
    | (ix, false) => some (ix, .linkFailed x newNode)
  | .linkFailed x newNode =>
    some (ix, if ix.live v newNode then .gaveUp else .walk (.insert x newNode) x.head)
  | .linked x =>
    (loop ix { x with linked := x.linked + 1 } (ix.nodes x.head).up).map (ix, ·)
  | .grow x =>
    let head := ix.headTop
    let oldLevel := (ix.nodes head).level
    some (ix, if oldLevel > x.linked then .returned
      else if oldLevel < x.level then .casHead x head
      else .returned)
  | .casHead x head =>
    let oldLevel := (ix.nodes head).level
    let newh := ix.fresh
    let ix := { ix.setNode newh
      { node := (ix.nodes head).node, down := some head, right := x.idxs[oldLevel + 1]?,
        level := oldLevel + 1 } with fresh := newh + 1 }
    (ix.casHead head newh true).map fun y => (y.1, .returned)
  | .gaveUp | .returned => none

omit [LinearOrder K] in
/-- A link at this point finds the index node before it alive, and with the one after it as it was when
the search found them. -/
def Linkable : AddPc → Prop
  | .linkTest _ _ prev _ => ix.live v prev = true
  | .linkCas _ _ prev next => (ix.nodes prev).right = next
  | _ => True

/-- The call has returned. -/
def isDone : AddPc → Bool
  | .gaveUp | .returned => true
  | _ => false

end AddPc

/-- A step of the call, with the level it draws, or of another thread. -/
inductive AddMove where
  | go (drawn : Nat)
  /-- another thread makes an index node -/
  | make (x : IndexNode)
  /-- another thread sets `m_right` of a node it is to link -/
  | prepare (i : IdxId) (right : Option IdxId)
  /-- another thread's link or unlink -/
  | cas (i : IdxId) (cmp val : Option IdxId)
  /-- another thread changes the top head -/
  | casHead (cmp val : IdxId) (up : Bool)
  /-- another thread clears the value of a node -/
  | clear (k : NodeId)
  deriving DecidableEq, Repr

/-- The index, the list nodes, what the call has still to do, and the levels it has linked its node
on. -/
structure Adding (K : Type) where
  view : NodeView K
  index : Index
  pc : AddPc
  links : List Nat

namespace Adding

variable {K : Type} [LinearOrder K] (n : NodeId)

/-- The index as constructed, before the call. -/
def init (hn : NodeId) (v : NodeView K) : Adding K := ⟨v, Index.new hn, .search, []⟩

/-- The levels the node has been linked on after a step that leaves `k` to do. -/
def linksAfter (s : Adding K) : AddPc → List Nat
  | .linked x => (s.index.nodes x.head).level :: s.links
  | _ => s.links

/-- A step. Other threads leave the value of the call's node alone. -/
def next (s : Adding K) : AddMove → Option (Adding K)
  | .go drawn => (s.pc.step s.view s.index n drawn).map fun x =>
      { s with index := x.1, pc := x.2, links := s.linksAfter x.2 }
  | .make x => some { s with
      index := { s.index.setNode s.index.fresh x with fresh := s.index.fresh + 1 } }
  | .prepare i right => some { s with index := s.index.setRight i right }
  | .cas i cmp val => some { s with index := (s.index.casRight i cmp val).1 }
  | .casHead cmp val up => (s.index.casHead cmp val up).map fun x => { s with index := x.1 }
  | .clear k =>
    if k = n then none
    else some { s with view := { s.view with live := Function.update s.view.live k false } }

/-- The states that steps meeting the guard lead to from the index as constructed. -/
inductive Reach (G : Adding K → AddMove → Prop) (hn : NodeId) (v : NodeView K) : Adding K → Prop
  | init : Reach G hn v (init hn v)
  | step {s s' : Adding K} {mv : AddMove} : Reach G hn v s → G s mv → s.next n mv = some s' →
      Reach G hn v s'

/-- The call's links find what they expect. -/
def LinksMeet (s : Adding K) : AddMove → Prop
  | .go _ => s.pc.Linkable s.view s.index
  | .make _ | .prepare _ _ | .cas _ _ _ | .casHead _ _ _ | .clear _ => True

/-- `insert_in_level` returns false only when the node has lost its value, and the node has been linked
on level `0` when the call returns. -/
structure Keeps (s : Adding K) : Prop where
  gaveUp : s.pc = .gaveUp → s.view.live n = false
  bottom : s.pc.isDone = true → 0 ∈ s.links

end Adding

end TxList
