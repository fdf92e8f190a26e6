import TxList.System

/-!
# Two `TX` objects

`get_local_storge` and `get_local_transaction` return thread-local variables, so a thread has one local
storage and one local transaction for all `TX` objects. Here a thread makes calls on two of them, each
with a clock and with lists of its own. The new nodes of `a`'s lists take the `N` numbers after the
heads, those of `b`'s the numbers after these.
-/

namespace TxList

/-- One of the two objects. -/
inductive Inst where
  | a
  | b
  deriving DecidableEq, Repr

/-- The memory the two objects' lists are in, their clocks, and the thread's own state. -/
structure TwoTX (K V : Type) (m : Nat) where
  gvc : Inst → Nat
  mem : NodeId → LNode K V
  fresh : Inst → Nat
  index : ListId m → Index
  retired : Inst → List NodeId
  thread : Local V m

section Calls

variable {K V : Type} {m : Nat}

/-- The list a call is on. -/
def Op.list? : Op K V m → Option (ListId m)
  | .put l _ _ | .remove l _ | .get l _ | .containsKey l _ => some l
  | .txBegin | .txEnd | .handleAbort => none

def Op.isEnd : Op K V m → Bool
  | .txEnd => true
  | .txBegin | .put _ _ _ | .remove _ _ | .get _ _ | .containsKey _ _ | .handleAbort => false

/-- The thread's state is as it was before its first call, but for the two versions. -/
def Local.Clean (x : Local V m) : Prop :=
  x.storage.IsEmpty ∧ x.transaction.TX = false ∧ x.transaction.readOnly = true

end Calls

namespace TwoTX

/-- A call on an object or on one of its lists. -/
structure Move (K V : Type) (m : Nat) where
  tx : Inst
  op : Op K V m
  ch : Choice

variable {K V : Type} {m : Nat}

/-- What an object's calls see. -/
def shared (T : TwoTX K V m) (i : Inst) : Shared K V m where
  gvc := T.gvc i
  mem := T.mem
  fresh := T.fresh i
  index := T.index
  retired := T.retired i

def ctx (T : TwoTX K V m) (i : Inst) : Ctx K V m :=
  ⟨T.shared i, T.thread.storage, T.thread.transaction⟩

/-- The state after a call on `i` that ended in `c`. -/
def put (T : TwoTX K V m) (i : Inst) (c : Ctx K V m) : TwoTX K V m where
  gvc := Function.update T.gvc i c.shared.gvc
  mem := c.shared.mem
  fresh := Function.update T.fresh i c.shared.fresh
  index := c.shared.index
  retired := Function.update T.retired i c.shared.retired
  thread := ⟨c.storage, c.transaction⟩

/-- The `m` lists as constructed. -/
def init (minKey : K) (dflt : V) (N : Nat) : TwoTX K V m where
  gvc := fun _ => 0
  mem := fun _ => { key := minKey, val := some dflt }
  fresh := fun
    | .a => m
    | .b => m + N
  index := fun l => Index.new (head l)
  retired := fun _ => []
  thread := {}

/-- The list is one of the object's, its numbers have not run out, and the orders are of the sets that
`TXend` finds. -/
def Allows (owner : ListId m → Inst) (N : Nat) (T : TwoTX K V m) (mv : Move K V m) : Prop :=
  (∀ l ∈ mv.op.list?, owner l = mv.tx) ∧ (mv.tx = .a → T.fresh .a < m + N) ∧
    (mv.op.isEnd = true → mv.ch.Orders T.thread.storage)

instance (owner : ListId m → Inst) (N : Nat) (T : TwoTX K V m) (mv : Move K V m) :
    Decidable (T.Allows owner N mv) :=
  inferInstanceAs (Decidable (_ ∧ _ ∧ _))

variable [LinearOrder K]

/-- A call that returns or throws `TxAbortException`. -/
def call (owner : ListId m → Inst) (N : Nat) (T : TwoTX K V m) (mv : Move K V m) :
    Option (TwoTX K V m × Ret V) :=
  if T.Allows owner N mv then
    match TxList.call mv.ch mv.op (T.ctx mv.tx) with
    | .ok r c => some (T.put mv.tx c, r)
    | .error .txAbort c => some (T.put mv.tx c, .aborted)
    | .error _ _ => none
  else none

/-- The calls in turn: where they end, and what each returned. -/
def run (owner : ListId m → Inst) (N : Nat) :
    TwoTX K V m → List (Move K V m) → Option (TwoTX K V m × List (Inst × Ret V))
  | T, [] => some (T, [])
  | T, mv :: mvs => do
    let (T₁, r) ← T.call owner N mv
    let (T₂, rs) ← run owner N T₁ mvs
    return (T₂, (mv.tx, r) :: rs)

/-- A call on the other object than the call before finds the thread's state clean; the call before the
first was on `last`. -/
def Separate (owner : ListId m → Inst) (N : Nat) :
    Inst → TwoTX K V m → List (Move K V m) → Prop
  | _, _, [] => True
  | last, T, mv :: mvs => (mv.tx ≠ last → T.thread.Clean) ∧
    ∀ x ∈ T.call owner N mv, Separate owner N mv.tx x.1 mvs

/-- The object's clock and lists are as in the other state. -/
structure SameFor (owner : ListId m → Inst) (i : Inst) (T T' : TwoTX K V m) : Prop where
  gvc : T'.gvc i = T.gvc i
  chain : ∀ l, owner l = i → (T'.shared i).chain l = (T.shared i).chain l
  nodes : ∀ l, owner l = i → ∀ n ∈ head l :: (T.shared i).chain l, T'.mem n = T.mem n
  index : ∀ l, owner l = i → T'.index l = T.index l

end TwoTX

end TxList
