import TxList.System

/-!
# Scripts

A script is a list of calls to make in turn, each with the fuel and the orders taken from the state
it starts in. Playing it gives one run.
-/

namespace TxList

variable {K V : Type} [LinearOrder K] {m : Nat}

/-- The exception a call ended with. -/
def thrown {σ α : Type} : EStateM.Result Err σ α → Option Err
  | .ok _ _ => none
  | .error e _ => some e

namespace Conf

/-- The sets in the order of the nodes' numbers, and every node on the bottom level only. -/
def choice (C : Conf K V m) (t : ThreadId) : Choice where
  fuel := 20
  writeOrder := (C.sys.threads t).storage.writeSet.keys
  readOrder := (List.range C.sys.shared.fresh).filter (· ∈ (C.sys.threads t).storage.readSet)

/-- Thread `t`'s call `op`, with its result. -/
def play (C : Conf K V m) (t : ThreadId) (op : Op K V m) : Option (Conf K V m × Ret V) :=
  if (C.choice t).Orders (C.sys.threads t).storage then
    match C.sys.step t op (C.choice t) with
    | some (σ, ret) => some (⟨σ, C.hist.step t (C.inTX t) op ret⟩, ret)
    | none => none
  else none

/-- Play calls of threads below `B` in turn, as long as `G` allows them. -/
def script (G : Conf K V m → ThreadId → Op K V m → Bool) (B : Nat) :
    Conf K V m → List (ThreadId × Op K V m) → Option (Conf K V m)
  | C, [] => some C
  | C, (t, op) :: moves =>
    if t < B && G C t op then
      match C.play t op with
      | some (C', _) => script G B C' moves
      | none => none
    else none

/-- The call ends in `ret`. -/
def returns [DecidableEq V] (C : Conf K V m) (t : ThreadId) (op : Op K V m) (ret : Ret V) : Bool :=
  (C.play t op).any fun x => x.2 = ret

/-- No other thread below `B` has a transaction open. -/
def alone (B : Nat) (C : Conf K V m) (t : ThreadId) : Bool :=
  (List.range B).all fun u => u == t || !C.inTX u

/-- No thread from `B` on has done anything. -/
def Idle (B : Nat) (C : Conf K V m) : Prop :=
  ∀ u, B ≤ u → C.sys.threads u = {} ∧ C.hist.current u = []

end Conf

end TxList
