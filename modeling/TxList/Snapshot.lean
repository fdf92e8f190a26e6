import TxList.Ending

/-!
# Transactions in pieces

Any number of threads run transactions, and nothing else. The calls are atomic but for two: `TXend` goes
step by step, and a thread with an open transaction can call `getNext` on any node it has not in its
write set, where each load of the version word and the read of `m_next` is a step of its own.

Beside the state a run keeps, for each node, the `m_next` it got when it was allocated and the ones that
commits have written since, each with the commit's write version.
-/

namespace TxList

/-- What is left of a `getNext` of node `n`. -/
inductive Reading where
  | lockBit (n : NodeId)
  | next (n : NodeId)
  | lockAgain (n : NodeId) (next : Option NodeId)
  | version (n : NodeId) (next : Option NodeId)
  | singleton (n : NodeId) (next : Option NodeId)
  | nextLock (n next : NodeId)
  | nextVersion (n next : NodeId)
  | nextSingleton (n next : NodeId)
  /-- it has found a singleton's mark, and moves the clock on before it throws -/
  | moveOn (n : NodeId)
  | returned (n : NodeId) (next : Option NodeId)
  | thrown
  deriving DecidableEq, Repr

/-- What a thread is in the middle of. -/
inductive Doing (V : Type) (m : Nat) where
  | nothing
  | ending (e : Ending V m)
  | reading (r : Reading)

/-- A state, with the history of every node's `m_next`: the first one, and those that commits have
written, latest first. -/
structure Pieces (K V : Type) (m : Nat) where
  sys : Sys K V m
  doing : ThreadId → Doing V m
  first : NodeId → Option NodeId
  wrote : NodeId → List (Nat × Option NodeId)

/-- What a thread does next: a call, the start of a `TXend` or of a `getNext`, or a step of the one it
is in. -/
inductive Piece (K V : Type) (m : Nat) where
  | call (op : Op K V m) (ch : Choice)
  | txEnd (ch : Choice)
  | getNext (n : NodeId)
  | go (p : Pick)

variable {K V : Type} {m : Nat}

/-- The thread is in no call. -/
def Doing.resting : Doing V m → Bool
  | .nothing | .ending (.done _) | .reading (.returned _ _) | .reading .thrown => true
  | .ending _ | .reading _ => false

/-- One step of `getNext`. -/
def Reading.step (s : Shared K V m) (readVersion : Nat) : Reading → Option (Effect K V m × Reading)
  | .lockBit n => some (.none, if (s.mem n).isLocked then .thrown else .next n)
  | .next n => some (.none, .lockAgain n (s.mem n).next)
  | .lockAgain n o => some (.none, if (s.mem n).isLocked then .thrown else .version n o)
  | .version n o =>
    some (.none, if readVersion < (s.mem n).getVersion then .thrown else .singleton n o)
  | .singleton n o =>
    some (.none, if (s.mem n).isSameVersionAndSingleton readVersion then .moveOn n
      else match o with
        | none => .returned n none
        | some y => .nextLock n y)
  | .nextLock n y => some (.none, if (s.mem y).isLocked then .thrown else .nextVersion n y)
  | .nextVersion n y =>
    some (.none, if readVersion < (s.mem y).getVersion then .thrown else .nextSingleton n y)
  | .nextSingleton n y =>
    some (.none, if (s.mem y).isSameVersionAndSingleton readVersion then .moveOn n
      else .returned n (some y))
  | .moveOn _ => some (.increment, .thrown)
  | .returned _ _ | .thrown => none

/-- The calls that are not taken apart. -/
def Op.isWhole : Op K V m → Bool
  | .txEnd => false
  | .txBegin | .put _ _ _ | .remove _ _ | .get _ _ | .containsKey _ _ | .handleAbort => true

/-- What `TXend` finds in the thread's state. -/
def Local.job (x : Local V m) (ch : Choice) : Job V m where
  TX := x.transaction.TX
  readOnly := x.transaction.readOnly
  readVersion := x.transaction.readVersion
  writeSet := ch.writeOrder.filterMap fun n => (x.storage.writeSet.lookup n).map fun we => (n, we)
  readSet := ch.readOrder
  indexAdd := (List.finRange m).flatMap fun l => (x.storage.indexAdd l).map fun n => (l, n)
  indexRemove := (List.finRange m).flatMap fun l => (x.storage.indexRemove l).map fun n => (l, n)

/-- The thread's state after a step of `TXend`: emptied when it has ended. -/
def Local.after (x : Local V m) : Ending V m → Local V m
  | .done _ => ⟨{}, { x.transaction with TX := false, readOnly := true }⟩
  | _ => x

/-- The thread's state after a step of `getNext`. -/
def Local.afterReading (x : Local V m) : Reading → Local V m
  | .thrown => { x with transaction := { x.transaction with TX := false } }
  | _ => x

/-- The `m_next` that a step writes, with the commit's version. -/
def Ending.wrote (n : NodeId) : Ending V m → List (Nat × Option NodeId)
  | .write _ writeVersion (.next k o) _ _ => if k = n then [(writeVersion, o)] else []
  | _ => []

namespace Pieces

/-- The lists as constructed, every thread at rest. -/
def init (minKey : K) (dflt : V) : Pieces K V m where
  sys := Sys.init minKey dflt
  doing := fun _ => .nothing
  first := fun _ => none
  wrote := fun _ => []

/-- The thread is at rest, and has a transaction open if the call is on a list. -/
def Allows (P : Pieces K V m) (t : ThreadId) (op : Op K V m) : Prop :=
  (P.doing t).resting = true ∧ op.isWhole = true ∧
    (op.isAccess = true → (P.sys.threads t).transaction.TX = true)

/-- The state after a call of thread `t`. A node allocated by it has got its first `m_next`. -/
def called (P : Pieces K V m) (t : ThreadId) (σ : Sys K V m) : Pieces K V m :=
  { P with
    sys := σ
    doing := Function.update P.doing t .nothing
    first := fun n => if n < P.sys.shared.fresh then P.first n else (σ.shared.mem n).next }

/-- The state when thread `t` has `e` left of its `TXend`, after an effect. -/
def ended (P : Pieces K V m) (t : ThreadId) (eff : Effect K V m) (e : Ending V m) : Pieces K V m :=
  { P with
    sys := ⟨eff.apply P.sys.shared, Function.update P.sys.threads t ((P.sys.threads t).after e)⟩
    doing := Function.update P.doing t (.ending e)
    wrote := fun n =>
      (match P.doing t with
        | .ending e₀ => e₀.wrote n
        | _ => []) ++ P.wrote n }

/-- The state when thread `t` has `r` left of its `getNext`, after an effect. -/
def read (P : Pieces K V m) (t : ThreadId) (eff : Effect K V m) (r : Reading) : Pieces K V m :=
  { P with
    sys := ⟨eff.apply P.sys.shared, Function.update P.sys.threads t ((P.sys.threads t).afterReading r)⟩
    doing := Function.update P.doing t (.reading r) }

variable [LinearOrder K]

instance (P : Pieces K V m) (t : ThreadId) (op : Op K V m) : Decidable (P.Allows t op) :=
  inferInstanceAs (Decidable (_ ∧ _ ∧ _))

/-- A piece of thread `t`. -/
def next (P : Pieces K V m) (t : ThreadId) : Piece K V m → Option (Pieces K V m)
  | .call op ch => if P.Allows t op then (P.sys.step t op ch).map fun x => P.called t x.1 else none
  | .txEnd ch =>
    if (P.doing t).resting ∧ ch.Orders (P.sys.threads t).storage then
      some (P.ended t .none (.start ((P.sys.threads t).job ch)))
    else none
  | .getNext n =>
    if (P.doing t).resting ∧ (P.sys.threads t).transaction.TX ∧ n < P.sys.shared.fresh ∧
        n ∉ (P.sys.threads t).storage.writeSet then
      some (P.read t .none (.lockBit n))
    else none
  | .go p =>
    match P.doing t with
    | .nothing => none
    | .ending e => (e.step P.sys.shared p).map fun x => P.ended t x.1 x.2
    | .reading r =>
      (r.step P.sys.shared (P.sys.threads t).transaction.readVersion).map fun x => P.read t x.1 x.2

/-- The states that runs get to from `P`. -/
inductive Run (P : Pieces K V m) : Pieces K V m → Prop
  | refl : Run P P
  | step {P₁ P₂ : Pieces K V m} {t : ThreadId} {p : Piece K V m} :
      Run P P₁ → P₁.next t p = some P₂ → Run P P₂

/-- The states that runs reach from the lists as constructed. -/
def Reach (minKey : K) (dflt : V) : Pieces K V m → Prop := Run (init minKey dflt)

omit [LinearOrder K] in
/-- A write of the commit with this version to node `n` is thread `u`'s next step. -/
def Writes (P : Pieces K V m) (u : ThreadId) (n : NodeId) (writeVersion : Nat) : Prop :=
  ∃ job w ws locked, P.doing u = .ending (.write job writeVersion w ws locked) ∧ w.node = n

omit [LinearOrder K] in
/-- The `m_next` of `n` as the last commit with a version up to `readVersion` has left it. -/
def asOf (P : Pieces K V m) (n : NodeId) (readVersion : Nat) : Option NodeId :=
  (((P.wrote n).find? fun x => x.1 ≤ readVersion).map Prod.snd).getD (P.first n)

end Pieces

end TxList
