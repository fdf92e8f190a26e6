import TxList.Snapshot

/-!
# Commits and those who watch them

Any number of threads run transactions, whose `TXend` goes step by step, and look up keys with singleton
`get`s. Every call but `TXend` is one step, and no singleton changes a list.

Beside the state a run keeps the associations that each thread's open transaction has set, and the same
of the commits, in the order in which they have moved the clock on.
-/

namespace TxList

/-- A key's new association. -/
structure Update (K V : Type) (m : Nat) where
  list : ListId m
  key : K
  val : Option V
  deriving DecidableEq, Repr

/-- A state with its commits. `thrown` is whether the thread's last call threw `TxAbortException`. -/
structure Watched (K V : Type) (m : Nat) where
  sys : Sys K V m
  ending : ThreadId → Ending V m
  thrown : ThreadId → Bool
  updates : ThreadId → List (Update K V m)
  commits : List (List (Update K V m))

/-- What a thread does next: a call, the start of a `TXend`, or a step of the one it is in. -/
inductive Turn (K V : Type) (m : Nat) where
  | call (op : Op K V m) (ch : Choice)
  | txEnd (ch : Choice)
  | go (p : Pick)

variable {K V : Type} {m : Nat}

namespace Ending

/-- The thread is in no `TXend`. -/
def resting : Ending V m → Bool
  | .done _ => true
  | _ => false

/-- The next step moves the clock on for the commit. -/
def commits : Ending V m → Bool
  | .increment _ _ => true
  | _ => false

/-- `TXend` has thrown. -/
def threw : Ending V m → Bool
  | .done committed => !committed
  | _ => false

end Ending

/-- A `put` sets an association, and a `remove` that has found its key. -/
def Op.updates : Op K V m → Ret V → List (Update K V m)
  | .put l key val, .val _ => [⟨l, key, some val⟩]
  | .remove l key, .val (some _) => [⟨l, key, none⟩]
  | _, _ => []

/-- Set the associations in turn. -/
def Maps.update [LinearOrder K] (M : Maps K V m) (us : List (Update K V m)) : Maps K V m :=
  us.foldl (fun M u => M.set u.list u.key u.val) M

namespace Watched

/-- The lists as constructed, every thread at rest. -/
def init (minKey : K) (dflt : V) : Watched K V m where
  sys := Sys.init minKey dflt
  ending := fun _ => .done true
  thrown := fun _ => false
  updates := fun _ => []
  commits := []

/-- The thread is at rest, answers a `TxAbortException` with `handle_abort`, and changes the lists in
transactions only, which it opens one at a time. -/
def Allows (P : Watched K V m) (t : ThreadId) (op : Op K V m) : Prop :=
  (P.ending t).resting = true ∧
    match op with
    | .txBegin => P.thrown t = false ∧ (P.sys.threads t).transaction.TX = false
    | .put _ _ _ | .remove _ _ => P.thrown t = false ∧ (P.sys.threads t).transaction.TX = true
    | .get _ _ | .containsKey _ _ => P.thrown t = false
    | .handleAbort => True
    | .txEnd => False

/-- The state after a call of thread `t`. -/
def called (P : Watched K V m) (t : ThreadId) (op : Op K V m) (ret : Ret V) (σ : Sys K V m) :
    Watched K V m :=
  { P with
    sys := σ
    thrown := Function.update P.thrown t ret.isAborted
    updates := Function.update P.updates t (match op with
      | .txBegin | .handleAbort => []
      | _ => P.updates t ++ op.updates ret) }

/-- The state when thread `t` has `e` left of its `TXend`, after an effect. -/
def ended (P : Watched K V m) (t : ThreadId) (eff : Effect K V m) (e : Ending V m) : Watched K V m where
  sys := ⟨eff.apply P.sys.shared, Function.update P.sys.threads t ((P.sys.threads t).after e)⟩
  ending := Function.update P.ending t e
  thrown := Function.update P.thrown t e.threw
  updates := if (P.ending t).commits then Function.update P.updates t [] else P.updates
  commits := P.commits ++ if (P.ending t).commits then [P.updates t] else []

variable [LinearOrder K]

instance (P : Watched K V m) (t : ThreadId) (op : Op K V m) : Decidable (P.Allows t op) :=
  match op with
  | .txBegin | .put _ _ _ | .remove _ _ => inferInstanceAs (Decidable (_ ∧ _ ∧ _))
  | .get _ _ | .containsKey _ _ => inferInstanceAs (Decidable (_ ∧ _))
  | .handleAbort => inferInstanceAs (Decidable (_ ∧ True))
  | .txEnd => inferInstanceAs (Decidable (_ ∧ False))

/-- A step of thread `t`. -/
def next (P : Watched K V m) (t : ThreadId) : Turn K V m → Option (Watched K V m)
  | .call op ch =>
    if P.Allows t op then (P.sys.step t op ch).map fun x => P.called t op x.2 x.1 else none
  | .txEnd ch =>
    if (P.ending t).resting ∧ P.thrown t = false ∧ ch.Orders (P.sys.threads t).storage then
      some (P.ended t .none (.start ((P.sys.threads t).job ch)))
    else none
  | .go p => ((P.ending t).step P.sys.shared p).map fun x => P.ended t x.1 x.2

/-- A property of a step: the state before it, the thread, what it does. -/
abbrev Guard (K V : Type) (m : Nat) := Watched K V m → ThreadId → Turn K V m → Prop

/-- The states that runs get to from `P` whose steps all meet the guard. -/
inductive Run (G : Guard K V m) (P : Watched K V m) : Watched K V m → Prop
  | refl : Run G P P
  | step {P₁ P₂ : Watched K V m} {t : ThreadId} {x : Turn K V m} :
      Run G P P₁ → G P₁ t x → P₁.next t x = some P₂ → Run G P P₂

/-- The states that such runs reach from the lists as constructed. -/
def Reach (minKey : K) (dflt : V) (G : Guard K V m) : Watched K V m → Prop := Run G (init minKey dflt)

/-- The association of a key after the first `i` commits. -/
def assoc (P : Watched K V m) (i : Nat) (l : ListId m) (key : K) : Option V :=
  Maps.empty.update (P.commits.take i).flatten l key

/-- A singleton `get` of thread `t` returns `v`. -/
def Gets (P : Watched K V m) (t : ThreadId) (l : ListId m) (key : K) (v : Option V)
    (P' : Watched K V m) : Prop :=
  P.Allows t (.get l key) ∧ (P.sys.threads t).transaction.TX = false ∧ ∃ ch σ,
    P.sys.step t (.get l key) ch = some (σ, .val v) ∧ P' = P.called t (.get l key) (.val v) σ

/-- What it returns is what commit number `i` has left there. -/
structure GetsFrom (P : Watched K V m) (i : Nat) (t : ThreadId) (l : ListId m) (key : K) (v : Option V)
    (P' : Watched K V m) : Prop where
  gets : P.Gets t l key v P'
  committed : i < P.commits.length
  updated : ∃ u ∈ P.commits[i], u.list = l ∧ u.key = key
  left : v = P.assoc (i + 1) l key

/-- The node on which a `put` in the open transaction finds its key. -/
def putFinds (c : Ctx K V m) (fuel : Nat) (l : ListId m) (key : K) : Option NodeId :=
  match find_node fuel l key { c with transaction := { c.transaction with readOnly := false } } with
  | .ok (true, _, some x) _ => some x
  | _ => none

/-- A `put` finds its key on a node of its own write set or on one that is not locked. -/
def PutsUnlocked : Guard K V m := fun P t x =>
  match x with
  | .call (.put l key _) ch => ∀ n ∈ putFinds (P.sys.ctx t) ch.fuel l key,
      n ∉ (P.sys.threads t).storage.writeSet → (P.sys.shared.mem n).isLocked = false
  | _ => True

end Watched

end TxList
