import TxList.Watched
import TxList.Proofs.Ahead
import TxList.Proofs.Snapshot

/-!
# The run ahead

A run whose `TXend`s go step by step is followed by one of whole calls on the memory ahead. A thread does
there what it does, but for its `TXend`: it commits there when it moves the clock on, and until then has
its transaction open, whether or not it is going to abort.
-/

namespace TxList

open Prog Chain

variable {K V : Type} {m : Nat}

/-! ## A thread ahead -/

namespace Ending

/-- The commit has been made ahead. -/
def past : Ending V m → Bool
  | .write _ _ _ _ _ | .unlock _ _ true | .index _ _ => true
  | _ => false

/-- The index updates that are left. -/
def due : Ending V m → List (IndexUpdate m)
  | .write job _ _ _ _ => job.updates
  | .unlock _ us _ => us
  | .index u us => u :: us
  | _ => []

theorem eq_done_of_resting {e : Ending V m} (h : e.resting = true) : ∃ b, e = .done b := by
  cases e with
  | done b => exact ⟨b, rfl⟩
  | _ => simp [resting] at h

end Ending

/-- The job is what `TXend` has found in the state of a thread with a transaction open. -/
def Job.Of (x : Local V m) (job : Job V m) : Prop :=
  x.transaction.TX = true ∧ ∃ ch : Choice, ch.Orders x.storage ∧ job = x.job ch

/-- What is left of a `TXend` goes with the thread's state, and the versions of the locked nodes it has
checked are not after the read version. -/
def Ending.Fits (s : Shared K V m) (x : Local V m) : Ending V m → Prop
  | .lock job _ _ _ => job.Of x
  | .check job n todo locked =>
    job.Of x ∧ ∀ k ∈ locked, k ∉ n :: todo → (s.mem k).word.version ≤ job.readVersion
  | .increment job locked =>
    job.Of x ∧ job.readOnly = false ∧ ∀ k ∈ locked, (s.mem k).word.version ≤ job.readVersion
  | .moveOn _ _ | .clearMark _ _ | .stopped _ => False
  | .write _ _ _ _ _ | .unlock _ _ _ | .index _ _ | .done _ => True

/-- The thread with `e` left of its `TXend`, ahead. -/
def Local.ahead (x : Local V m) (e : Ending V m) : Local V m :=
  if e.past then ⟨{}, { x.transaction with TX := false, readOnly := true }⟩
  else ⟨x.storage.trimmed, x.transaction⟩

/-- The same state but for the write version, and the read version of a closed transaction. -/
structure Local.Like (x y : Local V m) : Prop where
  storage : y.storage = x.storage
  TX : y.transaction.TX = x.transaction.TX
  readOnly : y.transaction.readOnly = x.transaction.readOnly
  readVersion : x.transaction.TX = true → y.transaction.readVersion = x.transaction.readVersion

/-! ## The invariant -/

variable [LinearOrder K]

theorem Maps.update_append (M : Maps K V m) (us vs : List (Update K V m)) :
    M.update (us ++ vs) = (M.update us).update vs := List.foldl_append

/-- Thread `t` ahead. A `TxAbortException` leaves nothing to follow until `handle_abort`. -/
structure Twin (P : Watched K V m) (C : Conf K V m) (S : ListId m → Finset NodeId) (t : ThreadId) :
    Prop where
  like : P.thrown t = false → ((P.sys.threads t).ahead (P.ending t)).Like (C.sys.threads t)
  updates : (C.sys.ctx t).Live → ∀ M : Maps K V m, M.replay (C.hist.current t) = M.update (P.updates t)
  held : ∀ n ∈ (P.ending t).held, n < P.sys.shared.fresh
  tidy : P.thrown t = false → (P.sys.threads t).transaction.TX = false →
    (P.sys.threads t).storage.IsEmpty
  reads : P.thrown t = false → ∀ n ∈ (P.sys.threads t).storage.writeSet,
    n ∈ (P.sys.threads t).storage.readSet
  fits : (P.ending t).Fits P.sys.shared (P.sys.threads t)
  due : ∀ l n, .add l n ∈ (P.ending t).due → Placed C.sys.shared S l n
  rests : P.thrown t = true → (P.ending t).resting = true

/-- The configuration `C` of whole calls is the state `P` ahead, with the nodes `S` on the lists. -/
structure Tracks (P : Watched K V m) (C : Conf K V m) (S : ListId m → Finset NodeId) : Prop where
  serial : Serial C S
  unmarked : ∀ n, (C.sys.shared.mem n).word.singleton = false
  completes : Completes P.sys.shared P.ending C.sys.shared
  orderly : Orderly P.sys.shared P.ending
  rooted : ∀ l, (P.sys.shared.index l).Rooted (head l)
  placed : ∀ l i, Placed C.sys.shared S l ((P.sys.shared.index l).nodes i).node
  committed : Maps.empty.replay C.hist.committed.flatten = Maps.empty.update P.commits.flatten
  twin : ∀ t, Twin P C S t

section Tracks

variable {P P' : Watched K V m} {C C' : Conf K V m} {S S' : ListId m → Finset NodeId} {t : ThreadId}

theorem Tracks.behind (h : Tracks P C S) : Behind P.sys.shared C.sys.shared S where
  lists := h.serial.inv.lists
  heads := (h.serial.inv.sane 0).heads
  key n := (h.completes.key n).symm
  same _ hn := h.completes.same h.orderly hn
  unmarked := h.unmarked
  rooted := h.rooted
  placed := h.placed

/-- The other threads ahead, when thread `t` moves. -/
theorem Twin.others (h : Twin P C S u) (hs : Sane (C.sys.ctx u)) (hA : Acted C S t C' S') (hu : u ≠ t)
    (hP : P'.sys.threads u = P.sys.threads u ∧ P'.ending u = P.ending u ∧ P'.thrown u = P.thrown u ∧
      P'.updates u = P.updates u)
    (hfresh : P.sys.shared.fresh ≤ P'.sys.shared.fresh)
    (hver : ∀ n ∈ (P.ending u).held,
      (P'.sys.shared.mem n).word.version = (P.sys.shared.mem n).word.version) : Twin P' C' S' u := by
  obtain ⟨hth, hend, hthr, hup⟩ := hP
  have hC := hA.threads u hu
  refine ⟨fun hf => ?_, fun hl => ?_, fun n hn => ?_, fun hf hT => ?_, fun hf => ?_, ?_, fun l _ hn => ?_,
    fun ht => ?_⟩
  · rw [hth, hend, hC]
    exact h.like (hthr ▸ hf)
  · rw [hA.current u hu, hup]
    refine h.updates ⟨?_, fun n hn hm => hl.2 n ?_ ?_⟩
    · have hT : (C'.sys.threads u).transaction.TX = true := hl.1
      rwa [hC] at hT
    · show n ∈ (C'.sys.threads u).storage.readSet
      rwa [hC]
    · show Marked (C'.sys.shared.mem n) (C'.sys.threads u).transaction.readVersion
      rw [hC]
      exact hA.grows.marked n (hs.readSet n hn) _ hs.readVersion (fun h => h) hm
  · rw [hend] at hn
    exact (h.held n hn).trans_le hfresh
  · rw [hth] at hT ⊢
    exact h.tidy (hthr ▸ hf) hT
  · rw [hth]
    exact h.reads (hthr ▸ hf)
  · rw [hth, hend]
    have hfits := h.fits
    cases he : P.ending u with
    | check job n todo locked =>
      rw [he] at hfits hver
      exact ⟨hfits.1, fun k hk hno => (hver k hk).trans_le (hfits.2 k hk hno)⟩
    | increment job locked =>
      rw [he] at hfits hver
      exact ⟨hfits.1, hfits.2.1, fun k hk => (hver k hk).trans_le (hfits.2.2 k hk)⟩
    | lock | moveOn | clearMark | write | unlock | index | done | stopped => rwa [he] at hfits
  · rw [hend] at hn
    exact hA.placed (h.due l _ hn)
  · rw [hend]
    exact h.rests (hthr ▸ ht)

/-- Thread `t` moves, and follows ahead. -/
theorem Tracks.move (h : Tracks P C S) (hA : Acted C S t C' S')
    (hP : ∀ u, u ≠ t → P'.sys.threads u = P.sys.threads u ∧ P'.ending u = P.ending u ∧
      P'.thrown u = P.thrown u ∧ P'.updates u = P.updates u)
    (hfresh : P.sys.shared.fresh ≤ P'.sys.shared.fresh)
    (hver : ∀ u, u ≠ t → ∀ n ∈ (P.ending u).held,
      (P'.sys.shared.mem n).word.version = (P.sys.shared.mem n).word.version)
    (hc : Completes P'.sys.shared P'.ending C'.sys.shared) (ho : Orderly P'.sys.shared P'.ending)
    (hroot : ∀ l, (P'.sys.shared.index l).Rooted (head l))
    (hplaced : ∀ l i, Placed C'.sys.shared S' l ((P'.sys.shared.index l).nodes i).node)
    (hcom : Maps.empty.replay C'.hist.committed.flatten = Maps.empty.update P'.commits.flatten)
    (ht : Twin P' C' S' t) : Tracks P' C' S' := by
  refine ⟨hA.serial, hA.unmarked, hc, ho, hroot, hplaced, hcom, fun u => ?_⟩
  by_cases hu : u = t
  · exact hu ▸ ht
  · exact (h.twin u).others (h.serial.inv.sane u) hA hu (hP u hu) hfresh (hver u hu)

end Tracks

end TxList
