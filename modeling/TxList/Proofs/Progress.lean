import TxList.Proofs.PutIfAbsent
import TxList.Proofs.Locks

/-!
# Calls come to an end

Whatever the threads have done, a call of a transaction ends: the searches go along pointers to
greater keys and back in the index to smaller ones, no pointer met is null where the code goes on, and
nothing is locked between calls. The only stop is `TXend`'s assertion on a mark of a node it has not
locked.
-/

namespace TxList

open Prog

variable {K V : Type} {m : Nat} [LinearOrder K]

/-- A node that is only read has a singleton's mark of the transaction's read version. -/
def Ctx.Trips (c : Ctx K V m) : Prop :=
  c.transaction.TX = true ∧ ∃ n ∈ c.storage.readSet, n ∉ c.storage.writeSet ∧
    (c.shared.mem n).word.version = c.transaction.readVersion ∧
    (c.shared.mem n).word.singleton = true

/-- The exceptions of a transaction's calls. -/
def Ctx.Stops (c : Ctx K V m) (op : Op K V m) : Err → Ctx K V m → Prop
  | .txAbort, _ => True
  | .assertFailed, _ => op = .txEnd ∧ c.Trips
  | _, _ => False

section Calls

variable {P : ListId m → NodeId → Prop} {c : Ctx K V m}

theorem TXend_stops (h : c.Sound P) (hs : Sane c) {ch : Choice} (ho : ch.Orders c.storage) :
    Settles (fun n => TXend (ch.withFuel n)) c (fun _ _ => True) (c.Stops .txEnd) := by
  obtain ⟨n, hn⟩ := TXend_settles h ho hs.readVersion
  have ho' : (ch.withFuel n).Orders c.storage := ho
  have htrips : Ends (TXend (ch.withFuel n)) c (fun _ _ => True) fun e _ =>
      e = .assertFailed → c.Trips := by
    refine TXend_ends ho' (fun _ _ _ => updateIndex_diverges fun _ he => by simp at he)
      (fun _ _ _ => trivial) (fun _ he => by simp at he) (fun _ _ _ _ _ _ he => by simp at he)
      (fun n hr hw hT hv hm c' _ => ⟨hT, n, hr, hw, hv, hm⟩)
      fun hlt => absurd hs.readVersion (Nat.not_le.2 hlt)
  refine ⟨n, (hn.and htrips).mono (fun _ _ _ => trivial) fun e c' he => ?_⟩
  obtain ⟨he, ht⟩ := he
  rcases e with _ | _ | _ | _
  · trivial
  · exact ⟨rfl, ht rfl⟩
  all_goals exact he

/-- A call that is no singleton's ends. -/
theorem call_stops (h : c.Sound P) (hs : Sane c) {op : Op K V m} {ch : Choice}
    (hT : op.isAccess = true → c.transaction.TX = true) (ho : op = .txEnd → ch.Orders c.storage) :
    Settles (fun n => call (ch.withFuel n) op) c (fun _ _ => True) (c.Stops op) := by
  have htx : ∀ {α : Type} {x y : Nat → Call K V m α} {f : α → Ret V}, op.isAccess = true →
      Settles x c (fun _ c' => c.Advances P c') (Throws (c.Quits P)) →
      Settles (fun n => do
        let a ← (do if (← get).transaction.TX then x n else y n)
        return f a) c (fun _ _ => True) (c.Stops op) := by
    intro α x y f hop hx
    obtain ⟨n, hn⟩ := hx
    refine ⟨n, ?_⟩
    simp only [Ends_bind, Ends_get, hT hop, if_true, Ends_pure]
    refine hn.mono (fun _ _ _ => trivial) fun e c' he => ?_
    rcases e with _ | _ | _ | _
    · trivial
    all_goals exact he.elim
  cases op with
  | txBegin => exact ⟨0, by simp [call, TXbegin]⟩
  | put l key val => exact htx rfl (putTX_settles h l key val)
  | remove l key => exact htx rfl (removeTX_settles h l key)
  | get l key => exact htx rfl (getTX_settles h l key)
  | containsKey l key =>
    obtain ⟨n, hn⟩ := htx (f := .val) rfl (getTX_settles h l key)
    refine ⟨n, ?_⟩
    simp only [call, containsKey, getKey, Ends_bind, Ends_pure] at hn ⊢
    exact hn
  | txEnd =>
    obtain ⟨n, hn⟩ := TXend_stops h hs (ho rfl)
    refine ⟨n, ?_⟩
    simp only [call, Ends_bind, Ends_pure]
    exact hn
  | handleAbort =>
    refine ⟨0, ?_⟩
    simp only [call, Ends_bind, Ends_pure]
    exact handle_abort_ends fun _ => trivial

end Calls

section Runs

variable {σ : Sys K V m} {minKey : K} {dflt : V}

/-- In every state that calls of any threads lead to, every call of a transaction comes to an end:
with a value, with `TxAbortException`, or, if it is `TXend`, at the assertion of a lock, and that only
if a node that is only read has a singleton's mark of the transaction's read version. -/
theorem Sys.Reach.progress (h : Sys.Reach minKey dflt σ) (t : ThreadId) (op : Op K V m) (ch : Choice)
    (hT : op.isAccess = true → (σ.threads t).transaction.TX = true)
    (ho : op = .txEnd → ch.Orders (σ.threads t).storage) :
    ∃ N, ∀ fuel, N ≤ fuel → Ends (TxList.call (ch.withFuel fuel) op) (σ.ctx t) (fun _ _ => True)
      ((σ.ctx t).Stops op) := by
  obtain ⟨hs, hsound⟩ := h.keeps
  exact (call_stops (hsound.ctx t) (hs t) hT ho).from (d := .diverged) (fun hn => call_below hn ch op)
    fun _ => id

/-- A transaction has got a value that a singleton has removed since. -/
theorem Sys.Reach.progress_stale : ∃ σ : Sys Nat Nat 1, Sys.Reach 0 0 σ ∧
    (σ.threads 0).transaction.TX = true ∧ 0 ∈ (σ.threads 0).storage.readSet ∧
    ∃ N, ∀ fuel, N ≤ fuel → Ends (TxList.call { fuel := fuel } (.get 0 5)) (σ.ctx 0) (fun _ _ => True)
      ((σ.ctx 0).Stops (.get 0 5)) := by
  obtain ⟨C, hr, -, hp⟩ := Conf.exists_reach_of_decidable (G := Conf.anyStep) 0 0 2
    [(1, .txBegin), (1, .put 0 5 3), (1, .txEnd), (0, .txBegin), (0, .get 0 5), (1, .remove 0 5)]
    (fun C : Conf Nat Nat 1 => C.inTX 0 && decide (0 ∈ (C.sys.threads 0).storage.readSet))
    (by decide +kernel)
  rw [Bool.and_eq_true, decide_eq_true_eq] at hp
  exact ⟨C.sys, .of_conf hr, hp.1, hp.2,
    Sys.Reach.progress (.of_conf hr) 0 (.get 0 5) { fuel := 0 } (fun _ => hp.1) (by simp)⟩

end Runs

end TxList
