import TxList.Ending

/-!
# The commit protocol

`TXend` for any transactions over shared nodes. A transaction begins, reads nodes that it finds unlocked
and no newer than its read version, and ends with any write set within its read set. The reads and the
steps of all the transactions' `TXend` interleave.

The transactions whose lock phase has finished are kept in the order in which it did. To replay them is
to make their writes one after another, each first comparing what it has read.
-/

namespace TxList

/-- What a commit can change of a node but for its version word's lock, version and singleton bits. -/
structure Content (V : Type) where
  next : Option NodeId
  val : Option V
  deleted : Bool
  deriving DecidableEq, Repr

def LNode.content {K V : Type} (n : LNode K V) : Content V := ⟨n.next, n.val, n.isDeleted⟩

/-- What the write-back of an element of the write set leaves. -/
def Content.writeBack {V : Type} (c : Content V) (we : WriteElement V) : Content V where
  next := we.next
  val := if we.deleted then none else we.val
  deleted := c.deleted || we.deleted

abbrev TxId := Nat

/-- How far a transaction has come. -/
inductive Stage (V : Type) (m : Nat) where
  | waiting
  | running (readVersion : Nat)
  | ending (e : Ending V m)

/-- What a transaction does next: it begins, reads a node, starts `TXend`, or takes a step of it. -/
inductive TxStep (V : Type) (m : Nat) where
  | txBegin
  | read (n : NodeId)
  | txEnd (job : Job V m)
  | go (p : Pick)

/-- The shared memory and the transactions, with what each has read and what its `TXend` works on. -/
structure Protocol (K V : Type) (m : Nat) where
  shared : Shared K V m
  stage : TxId → Stage V m
  reads : TxId → List (NodeId × Content V)
  job : TxId → Job V m
  order : List TxId

variable {K V : Type} {m : Nat}

/-- A `TXend` with this read version can work on the job. -/
def Job.Suits (job : Job V m) (readVersion : Nat) : Prop :=
  job.TX = true ∧ job.readVersion = readVersion ∧ (job.writeSet.map Prod.fst).Nodup ∧
    (∀ n ∈ job.writeSet.map Prod.fst, n ∈ job.readSet) ∧ (job.readOnly = true → job.writeSet.isEmpty = true)

instance (job : Job V m) (readVersion : Nat) : Decidable (job.Suits readVersion) :=
  inferInstanceAs (Decidable (_ ∧ _ ∧ _ ∧ _ ∧ _))

/-- The step takes the last lock. -/
def Ending.locksLast (s : Shared K V m) : Ending V m → Bool
  | .lock _ n [] _ => !(s.mem n).isLocked
  | _ => false

/-- `TXend` has checked the whole read set. -/
def Ending.committed : Ending V m → Bool
  | .increment _ _ | .write _ _ _ _ _ | .unlock _ _ true | .index _ _ | .done true => true
  | _ => false

/-- The contents after a commit. -/
def Job.replay (job : Job V m) (C : NodeId → Content V) : NodeId → Content V := fun n =>
  job.writeSet.foldl (fun c x => if x.1 = n then c.writeBack x.2 else c) (C n)

namespace Protocol

/-- No transaction has begun. -/
def start (s : Shared K V m) : Protocol K V m where
  shared := s
  stage := fun _ => .waiting
  reads := fun _ => []
  job := fun _ => ⟨false, true, 0, [], [], [], []⟩
  order := []

/-- The transaction commits, or has. -/
def committed (P : Protocol K V m) (t : TxId) : Bool :=
  match P.stage t with
  | .ending e => e.committed
  | _ => false

/-- Replayed from the contents `C` in this order, every transaction finds in its read set what it has
read. -/
def Replays (P : Protocol K V m) : (NodeId → Content V) → List TxId → Prop
  | _, [] => True
  | C, t :: ts =>
    (∀ x ∈ P.reads t, x.1 ∈ (P.job t).readSet → C x.1 = x.2) ∧ Replays P ((P.job t).replay C) ts

variable [LinearOrder K]

/-- A step of transaction `t`. -/
def next (P : Protocol K V m) (t : TxId) : TxStep V m → Option (Protocol K V m)
  | .txBegin =>
    match P.stage t with
    | .waiting =>
      some { P with
        stage := Function.update P.stage t (.running P.shared.gvc)
        reads := Function.update P.reads t [] }
    | _ => none
  | .read n =>
    match P.stage t with
    | .running readVersion =>
      let x := P.shared.mem n
      if x.isLocked = false ∧ x.getVersion ≤ readVersion then
        some { P with reads := Function.update P.reads t ((n, x.content) :: P.reads t) }
      else none
    | _ => none
  | .txEnd job =>
    match P.stage t with
    | .running readVersion =>
      if job.Suits readVersion then
        some { P with
          stage := Function.update P.stage t (.ending (.start job))
          job := Function.update P.job t job
          order := if job.writeSet.isEmpty then P.order ++ [t] else P.order }
      else none
    | _ => none
  | .go p =>
    match P.stage t with
    | .ending e =>
      (e.step P.shared p).map fun x =>
        { P with
          shared := x.1.apply P.shared
          stage := Function.update P.stage t (.ending x.2)
          order := if e.locksLast P.shared then P.order ++ [t] else P.order }
    | _ => none

/-- The states that runs reach from memory `s`. -/
inductive Reach (s : Shared K V m) : Protocol K V m → Prop
  | start : Reach s (start s)
  | step {P P' : Protocol K V m} {t : TxId} {a : TxStep V m} :
      Reach s P → P.next t a = some P' → Reach s P'

end Protocol

end TxList
