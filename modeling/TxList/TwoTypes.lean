import TxList.System

/-!
# Lists of two types

The lists sharing one `TX` may have two key and value types. The functions are templates: each type has
its own lists and its own `LocalStorage` in each thread, and `TXend` and `handle_abort` are called for
one type at a time. The clock and the `LocalTransaction` are shared by both.
-/

namespace TxList

/-- One of the two types. -/
inductive Ty where
  | one
  | two
  deriving DecidableEq, Repr

def Ty.other : Ty → Ty
  | .one => .two
  | .two => .one

/-- The lists of both types and the threads' states. The clock is `gvc`, not that of a type's `shared`. -/
structure TwoTypes (K V : Ty → Type) (m : Ty → Nat) where
  gvc : Nat
  shared : ∀ b, Shared (K b) (V b) (m b)
  storage : ThreadId → ∀ b, LocalStorage (V b) (m b)
  transaction : ThreadId → LocalTransaction

namespace TwoTypes

variable {K V : Ty → Type} {m : Ty → Nat}

/-- What thread `t`'s calls for a type run in. -/
def ctx (σ : TwoTypes K V m) (t : ThreadId) (b : Ty) : Ctx (K b) (V b) (m b) :=
  ⟨{ σ.shared b with gvc := σ.gvc }, σ.storage t b, σ.transaction t⟩

/-- The state after such a call that ended in `c`. -/
def put (σ : TwoTypes K V m) (t : ThreadId) (b : Ty) (c : Ctx (K b) (V b) (m b)) : TwoTypes K V m where
  gvc := c.shared.gvc
  shared := Function.update σ.shared b c.shared
  storage := Function.update σ.storage t (Function.update (σ.storage t) b c.storage)
  transaction := Function.update σ.transaction t c.transaction

/-- The lists as constructed. -/
def init (minKey : ∀ b, K b) (dflt : ∀ b, V b) : TwoTypes K V m where
  gvc := 0
  shared b := (Sys.init (minKey b) (dflt b)).shared
  storage := fun _ _ => {}
  transaction := fun _ => {}

variable [∀ b, LinearOrder (K b)]

/-- One call of thread `t`, if it ends. -/
def step (σ : TwoTypes K V m) (t : ThreadId) (b : Ty) (op : Op (K b) (V b) (m b)) (ch : Choice) :
    Option (TwoTypes K V m × Ret (V b)) :=
  match call ch op (σ.ctx t b) with
  | .ok r c => some (σ.put t b c, r)
  | .error .txAbort c => some (σ.put t b c, .aborted)
  | .error _ _ => none

/-- Thread `t`'s call `op` for the type `b`, ending in `ret` and the state `σ'`. -/
def Step (σ : TwoTypes K V m) (t : ThreadId) (b : Ty) (op : Op (K b) (V b) (m b)) (ret : Ret (V b))
    (σ' : TwoTypes K V m) : Prop :=
  ∃ ch : Choice, (op = .txEnd → ch.Orders (σ.storage t b)) ∧ σ.step t b op ch = some (σ', ret)

/-- The states that steps of the threads that `P` holds of get to. -/
inductive Run (P : ThreadId → Prop) (σ : TwoTypes K V m) : TwoTypes K V m → Prop
  | refl : Run P σ σ
  | step {σ₁ σ₂ : TwoTypes K V m} {t : ThreadId} {b : Ty} {op : Op (K b) (V b) (m b)}
      {ret : Ret (V b)} : Run P σ σ₁ → P t → σ₁.Step t b op ret σ₂ → Run P σ σ₂

/-- A transaction of thread `t` from its `TXbegin` in `σ₀` on: calls on lists of both types, none of
which throws, with the other threads' calls in between. `alone` says that there are none. -/
inductive Transaction (t : ThreadId) (σ₀ : TwoTypes K V m) : Bool → TwoTypes K V m → Prop
  | begin {b : Ty} {ret : Ret (V b)} {σ : TwoTypes K V m} :
      σ₀.Step t b .txBegin ret σ → Transaction t σ₀ true σ
  | access {alone : Bool} {b : Ty} {op : Op (K b) (V b) (m b)} {ret : Ret (V b)} {σ σ' : TwoTypes K V m} :
      Transaction t σ₀ alone σ → op.isAccess = true → ret ≠ .aborted → σ.Step t b op ret σ' →
      Transaction t σ₀ alone σ'
  | other {alone : Bool} {u : ThreadId} {b : Ty} {op : Op (K b) (V b) (m b)} {ret : Ret (V b)}
      {σ σ' : TwoTypes K V m} :
      Transaction t σ₀ alone σ → u ≠ t → σ.Step u b op ret σ' → Transaction t σ₀ false σ'

/-- The transaction is ended by a `TXend` for the type `b` in `σ₁` and one for the other in `σ₃`, with
other threads' calls in between. -/
structure Ended (t : ThreadId) (b : Ty) (σ₀ : TwoTypes K V m) (alone : Bool)
    (σ₁ σ₂ σ₃ σ₄ : TwoTypes K V m) : Prop where
  transaction : ∃ alone₁, Transaction t σ₀ alone₁ σ₁ ∧ (alone = true → alone₁ = true)
  first : ∃ ret, σ₁.Step t b .txEnd ret σ₂
  between : σ₂.Run (· ≠ t) σ₃
  second : ∃ ret, σ₃.Step t b.other .txEnd ret σ₄
  alone : alone = true → σ₃ = σ₂

/-- The step from `σ` to `σ'` writes back what the thread is to write to the type's lists. -/
def TakesEffect (t : ThreadId) (b : Ty) (σ σ' : TwoTypes K V m) : Prop :=
  ∀ n we, (σ.storage t b).writeSet.lookup n = some we →
    (σ'.shared b).mem n = ((σ.shared b).mem n).writeBack we (σ.gvc + 1)

/-- The step writes nothing to the type's lists; it may clear a singleton's mark. -/
def NoEffect (b : Ty) (σ σ' : TwoTypes K V m) : Prop :=
  ∀ n, (σ'.shared b).mem n = (σ.shared b).mem n ∨
    (σ'.shared b).mem n = ((σ.shared b).mem n).setSingleton false

end TwoTypes

end TxList
