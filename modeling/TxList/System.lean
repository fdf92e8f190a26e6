import TxList.TX
import TxList.Contents

/-!
# Runs of whole calls

Any number of threads call the operations, each call one atomic step, in any order. A step is a
call that returns or throws `TxAbortException`; a call that stops the program or does not return
takes no step.

Beside the state a run keeps its history: for each thread the calls of its current transaction
attempt with what they returned, the attempts committed so far in the order of their `TXend`
calls, and the maps that result from the committed attempts and the singleton operations.
-/

namespace TxList

abbrev ThreadId := Nat

/-- The calls a thread can make. `put`, `remove`, `get` and `containsKey` run in the thread's
open transaction or as singletons. -/
inductive Op (K V : Type) (m : Nat) where
  | txBegin
  | put (l : ListId m) (key : K) (val : V)
  | remove (l : ListId m) (key : K)
  | get (l : ListId m) (key : K)
  | containsKey (l : ListId m) (key : K)
  | txEnd
  | handleAbort
  deriving DecidableEq, Repr

/-- A call on a list. -/
def Op.isAccess {K V : Type} {m : Nat} : Op K V m → Bool
  | .put _ _ _ | .remove _ _ | .get _ _ | .containsKey _ _ => true
  | .txBegin | .txEnd | .handleAbort => false

/-- What a call ends in. -/
inductive Ret (V : Type) where
  | unit
  | val (v : Option V)
  | bool (b : Bool)
  | aborted
  deriving DecidableEq, Repr

/-- The call threw `TxAbortException`. -/
def Ret.isAborted {V : Type} : Ret V → Bool
  | .aborted => true
  | _ => false

/-- The shared memory and every thread's own state. -/
structure Sys (K V : Type) (m : Nat) where
  shared : Shared K V m
  threads : ThreadId → Local V m

variable {K V : Type} [LinearOrder K] {m : Nat}

/-- What thread `t`'s calls run in. -/
def Sys.ctx (σ : Sys K V m) (t : ThreadId) : Ctx K V m :=
  ⟨σ.shared, (σ.threads t).storage, (σ.threads t).transaction⟩

/-- The state after a call of thread `t` that ended in `c`. -/
def Sys.put (σ : Sys K V m) (t : ThreadId) (c : Ctx K V m) : Sys K V m :=
  ⟨c.shared, Function.update σ.threads t ⟨c.storage, c.transaction⟩⟩

/-- The `m` lists as constructed: each a head with the key `minKey` and a default value. -/
def Sys.init (minKey : K) (dflt : V) : Sys K V m where
  shared :=
    { gvc := 0
      mem := fun _ => { key := minKey, val := some dflt }
      fresh := m
      index := fun l => Index.new (head l)
      retired := [] }
  threads := fun _ => {}

/-- The program of a call. -/
def call (ch : Choice) : Op K V m → Call K V m (Ret V)
  | .txBegin => do TXbegin; return .unit
  | .put l key val => return .val (← put ch.fuel ch.level l key val)
  | .remove l key => return .val (← remove ch.fuel l key)
  | .get l key => return .val (← getKey ch.fuel l key)
  | .containsKey l key => return .bool (← containsKey ch.fuel l key)
  | .txEnd => return .bool (← TXend ch)
  | .handleAbort => do handle_abort; return .unit

/-- The orders `TXend` goes through the sets in are orders of these sets. -/
def Choice.Orders (ch : Choice) (s : LocalStorage V m) : Prop :=
  ch.writeOrder.Perm s.writeSet.keys ∧ ch.readOrder.Nodup ∧ ch.readOrder.toFinset = s.readSet

instance (ch : Choice) (s : LocalStorage V m) : Decidable (ch.Orders s) :=
  inferInstanceAs (Decidable (_ ∧ _ ∧ _))

/-- One call of thread `t`, if it ends. -/
def Sys.step (σ : Sys K V m) (t : ThreadId) (op : Op K V m) (ch : Choice) :
    Option (Sys K V m × Ret V) :=
  match call ch op (σ.ctx t) with
  | .ok r c => some (σ.put t c, r)
  | .error .txAbort c => some (σ.put t c, .aborted)
  | .error _ _ => none

/-! ## The history -/

/-- The committed maps, one for each list. -/
abbrev Maps (K V : Type) (m : Nat) := ListId m → K → Option V

def Maps.empty : Maps K V m := fun _ _ => none

/-- A list operation together with what it returned. -/
inductive Rec (K V : Type) (m : Nat) where
  | put (l : ListId m) (key : K) (val : V) (ret : Option V)
  | remove (l : ListId m) (key : K) (ret : Option V)
  | get (l : ListId m) (key : K) (ret : Option V)
  | containsKey (l : ListId m) (key : K) (ret : Bool)
  deriving DecidableEq, Repr

namespace Rec

def list : Rec K V m → ListId m
  | .put l _ _ _ | .remove l _ _ | .get l _ _ | .containsKey l _ _ => l

def key : Rec K V m → K
  | .put _ key _ _ | .remove _ key _ | .get _ key _ | .containsKey _ key _ => key

/-- The operation was a `put` or a `remove`. -/
def isUpdate : Rec K V m → Bool
  | .put _ _ _ _ | .remove _ _ _ => true
  | .get _ _ _ | .containsKey _ _ _ => false

/-- The operation was a `put` or a `remove` of this key. -/
def Updates (l : ListId m) (key : K) (r : Rec K V m) : Prop :=
  r.isUpdate = true ∧ r.list = l ∧ r.key = key

instance (l : ListId m) (key : K) (r : Rec K V m) : Decidable (r.Updates l key) :=
  inferInstanceAs (Decidable (_ ∧ _ ∧ _))

end Rec

/-- The record of a call and its result, for the operations on lists. -/
def Rec.of? : Op K V m → Ret V → Option (Rec K V m)
  | .put l key val, .val ret => some (.put l key val ret)
  | .remove l key, .val ret => some (.remove l key ret)
  | .get l key, .val ret => some (.get l key ret)
  | .containsKey l key, .bool ret => some (.containsKey l key ret)
  | _, _ => none

/-- One list's map with a key's association set. -/
def Maps.set (M : Maps K V m) (l : ListId m) (key : K) (v : Option V) : Maps K V m :=
  Function.update M l (Function.update (M l) key v)

/-- Replay one operation on the maps. -/
def Maps.apply (M : Maps K V m) : Rec K V m → Maps K V m
  | .put l key val _ => M.set l key (some val)
  | .remove l key _ => M.set l key none
  | .get _ _ _ => M
  | .containsKey _ _ _ => M

/-- Replay operations in order. -/
def Maps.replay (M : Maps K V m) (rs : List (Rec K V m)) : Maps K V m := rs.foldl Maps.apply M

/-- Every operation, replayed in order, looks up a value that `P` holds of. -/
def Maps.All (P : Option V → Rec K V m → Prop) : Maps K V m → List (Rec K V m) → Prop
  | _, [] => True
  | M, r :: rs => P (M r.list r.key) r ∧ All P (M.apply r) rs

/-- What a run has done so far. `snapshot` is the committed maps at the thread's last `TXbegin`,
and `thrown` whether the thread's last call threw `TxAbortException`. -/
structure Hist (K V : Type) (m : Nat) where
  maps : Maps K V m
  committed : List (List (Rec K V m))
  current : ThreadId → List (Rec K V m)
  snapshot : ThreadId → Maps K V m
  thrown : ThreadId → Bool

def Hist.init : Hist K V m where
  maps := .empty
  committed := []
  current := fun _ => []
  snapshot := fun _ => .empty
  thrown := fun _ => false

/-- The history after thread `t`'s call `op` ended in `ret`; `inTX` is whether it had a
transaction open. -/
def Hist.step (h : Hist K V m) (t : ThreadId) (inTX : Bool) (op : Op K V m) (ret : Ret V) :
    Hist K V m :=
  let h := { h with thrown := Function.update h.thrown t ret.isAborted }
  match op, ret with
  | _, .aborted => h
  | .txBegin, _ =>
    { h with
      current := Function.update h.current t []
      snapshot := Function.update h.snapshot t h.maps }
  | .txEnd, _ =>
    { h with
      maps := h.maps.replay (h.current t)
      committed := h.committed ++ [h.current t]
      current := Function.update h.current t [] }
  | .handleAbort, _ => { h with current := Function.update h.current t [] }
  | op, ret =>
    match Rec.of? op ret with
    | none => h
    | some r =>
      if inTX then { h with current := Function.update h.current t (h.current t ++ [r]) }
      else { h with maps := h.maps.apply r }

/-! ## Runs -/

/-- A state with its history. -/
structure Conf (K V : Type) (m : Nat) where
  sys : Sys K V m
  hist : Hist K V m

namespace Conf

/-- The thread has a transaction open. -/
def inTX (C : Conf K V m) (t : ThreadId) : Bool := (C.sys.threads t).transaction.TX

def init (minKey : K) (dflt : V) : Conf K V m := ⟨Sys.init minKey dflt, Hist.init⟩

/-- Thread `t`'s call `op`, ending in `ret` and the configuration `C'`. -/
def Step (C : Conf K V m) (t : ThreadId) (op : Op K V m) (ret : Ret V) (C' : Conf K V m) : Prop :=
  ∃ ch : Choice, (op = .txEnd → ch.Orders (C.sys.threads t).storage) ∧
    C.sys.step t op ch = some (C'.sys, ret) ∧ C'.hist = C.hist.step t (C.inTX t) op ret

/-- A property of a step: the configuration before it, the thread, the call. -/
abbrev Guard (K V : Type) (m : Nat) := Conf K V m → ThreadId → Op K V m → Prop

/-- The configurations that a run gets to from `C` whose steps all meet the guard. -/
inductive Run (G : Guard K V m) (C : Conf K V m) : Conf K V m → Prop
  | refl : Run G C C
  | step {C₁ C₂ : Conf K V m} {t : ThreadId} {op : Op K V m} {ret : Ret V} :
      Run G C C₁ → G C₁ t op → C₁.Step t op ret C₂ → Run G C C₂

/-- The configurations that such runs reach from the lists as constructed. -/
def Reach (minKey : K) (dflt : V) (G : Guard K V m) : Conf K V m → Prop := Run G (init minKey dflt)

/-- A `get` of the thread returns `v`: it ends, given the fuel, and ends in nothing else. -/
structure Gets (C : Conf K V m) (t : ThreadId) (l : ListId m) (key : K) (v : Option V) : Prop where
  ends : ∃ N, ∀ ch : Choice, N ≤ ch.fuel → ∃ σ, C.sys.step t (.get l key) ch = some (σ, .val v)
  only : ∀ {ret : Ret V} {C' : Conf K V m}, C.Step t (.get l key) ret C' → ret = .val v

/-- The call ends, given the fuel and whatever else it draws, and `P` holds of every end. -/
structure Yields (C : Conf K V m) (t : ThreadId) (op : Op K V m) (P : Ret V → Conf K V m → Prop) :
    Prop where
  ends : ∀ ch : Choice, (op = .txEnd → ch.Orders (C.sys.threads t).storage) → ∃ N, ∀ fuel,
    N ≤ fuel → (C.sys.step t op { ch with fuel }).isSome = true
  only : ∀ {ret : Ret V} {C' : Conf K V m}, C.Step t op ret C' → P ret C'

/-- Thread `t` makes the calls of its open transaction and ends it, while no other thread takes a step;
a `TxAbortException` is answered by `handle_abort`. All calls end, and `P` is what holds after the
attempt, told whether it committed. -/
def Attempt (t : ThreadId) (P : Bool → Conf K V m → Prop) : List (Op K V m) → Conf K V m → Prop
  | [], C => C.Yields t .txEnd fun ret C' =>
      if ret.isAborted then C'.Yields t .handleAbort fun _ C'' => P false C'' else P true C'
  | op :: ops, C => C.Yields t op fun ret C' =>
      if ret.isAborted then C'.Yields t .handleAbort fun _ C'' => P false C'' else Attempt t P ops C'

/-- Such an attempt from its `TXbegin` on. -/
def Transact (C : Conf K V m) (t : ThreadId) (ops : List (Op K V m)) (P : Bool → Conf K V m → Prop) :
    Prop :=
  C.Yields t .txBegin fun _ C' => C'.Attempt t P ops

/-- Any step at all. -/
def anyStep : Guard K V m := fun _ _ _ => True

end Conf

/-- The step is no singleton `put` or `remove` of the key, and no `TXend` that can commit a
transaction that has put or removed it. -/
def LeavesKey (l : ListId m) (key : K) : Conf.Guard K V m := fun C t op =>
  match op with
  | .put l' key' _ | .remove l' key' => C.inTX t = true ∨ l' ≠ l ∨ key' ≠ key
  | .txEnd => ∀ C', C.Step t .txEnd (.bool true) C' → ∀ r ∈ C.hist.current t, ¬ r.Updates l key
  | .get _ _ | .containsKey _ _ | .txBegin | .handleAbort => True

/-- A thread that only runs transactions: `TXbegin` opens one when none is open, the list
operations run inside it, and after a `TxAbortException` the next call is `handle_abort`. -/
def TxClient : Conf.Guard K V m := fun C t op =>
  (C.hist.thrown t = true → op = .handleAbort) ∧
    match op with
    | .txBegin => C.inTX t = false
    | .put _ _ _ | .remove _ _ | .get _ _ | .containsKey _ _ => C.inTX t = true
    | .txEnd | .handleAbort => True

/-- A thread that only runs singleton operations. -/
def SingletonClient : Conf.Guard K V m := fun C t op =>
  match op with
  | .put _ _ _ | .remove _ _ | .get _ _ | .containsKey _ _ => C.inTX t = false
  | .txBegin | .txEnd | .handleAbort => False

end TxList
