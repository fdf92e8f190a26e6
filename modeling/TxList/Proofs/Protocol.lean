import TxList.Protocol
import TxList.Proofs.Ending

/-!
# The commit protocol serializes

A transaction whose lock phase has finished holds its write set until it has stamped it. So one that
finishes its lock phase later, and reads a node of that write set, finds it locked when it checks it, or
stamped with a version drawn after the earlier one's lock phase. What a committed transaction writes is
therefore read by no committed one before it in the order, and written by the earlier ones before.
-/

namespace TxList

variable {K V : Type} {m : Nat}

/-! ## Contents -/

/-- What a write makes of the content of `n`. -/
def Write.replay (n : NodeId) (c : Content V) : Write V → Content V
  | .next k o => if k = n then { c with next := o } else c
  | .val k v => if k = n then { c with val := v } else c
  | .set k f => if k = n then { c with deleted := (f.apply { deleted := c.deleted }).deleted } else c

/-- What a list of writes makes of the content of `n`. -/
def replayWrites (n : NodeId) (c : Content V) (ws : List (Write V)) : Content V :=
  ws.foldl (Write.replay n) c

section Content

variable {n : NodeId} {c : Content V} {w : Write V} {ws : List (Write V)} {wv : Nat} {job : Job V m}

theorem Setter.deleted_apply (f : Setter) (w : Word) :
    (f.apply w).deleted = (f.apply { deleted := w.deleted }).deleted := by
  cases f <;> rfl

theorem Write.replay_of_ne (h : w.node ≠ n) : w.replay n c = c := by
  cases w <;> exact if_neg h

theorem Write.content_effect (w : Write V) (s : Shared K V m) (n : NodeId) :
    (((w.effect s).apply s).mem n).content = w.replay n (s.mem n).content := by
  by_cases h : w.node = n
  · subst h
    cases w with
    | next k o | val k v =>
      simp [effect, Effect.apply, replay, node, LNode.content, LNode.isDeleted, Shared.mem_setNode]
    | set k f =>
      simp only [effect, Effect.apply, replay, node, LNode.content, LNode.isDeleted, Shared.mem_setNode,
        if_pos]
      rw [f.deleted_apply]
  · rw [replay_of_ne h, mem_effect_of_ne (Ne.symm h)]

theorem replayWrites_of_ne (h : ∀ w ∈ ws, w.node ≠ n) : replayWrites n c ws = c := by
  induction ws with
  | nil => rfl
  | cons w ws ih =>
    show replayWrites n (w.replay n c) ws = c
    rw [Write.replay_of_ne (h w (by simp))]
    exact ih fun v hv => h v (by simp [hv])

theorem replayWrites_append (ws vs : List (Write V)) :
    replayWrites n c (ws ++ vs) = replayWrites n (replayWrites n c ws) vs := List.foldl_append

theorem WriteElement.replay_writes (we : WriteElement V) (k : NodeId) (wv : Nat) :
    replayWrites n c (we.writes k wv) = if k = n then c.writeBack we else c := by
  by_cases h : k = n
  · subst h
    by_cases hd : we.deleted = true <;>
      simp [writes, replayWrites, Write.replay, Content.writeBack, Setter.apply, hd]
  · rw [if_neg h]
    exact replayWrites_of_ne fun w hw => by rwa [WriteElement.node_of_mem hw]

/-- The writes of a job, one after another, are its write-back. -/
theorem Job.replay_writes (job : Job V m) (wv : Nat) (C : NodeId → Content V) :
    replayWrites n (C n) (job.writes wv) = job.replay C n := by
  unfold Job.writes Job.replay
  generalize C n = c
  induction job.writeSet generalizing c with
  | nil => rfl
  | cons x xs ih =>
    rw [List.flatMap_cons, replayWrites_append, WriteElement.replay_writes]
    exact ih _

theorem Job.replay_of_notMem {C : NodeId → Content V} (h : n ∉ job.keys) : job.replay C n = C n := by
  rw [← job.replay_writes 0]
  exact replayWrites_of_ne fun w hw he => h (he ▸ Job.node_of_mem hw)

/-- A job makes of a node's content what it makes of it in any other contents. -/
theorem Job.replay_congr {C D : NodeId → Content V} (h : C n = D n) : job.replay C n = job.replay D n := by
  unfold Job.replay
  rw [h]

end Content

/-! ## One transaction -/

namespace Ending

/-- What a transaction that commits has still to write. -/
def left : Ending V m → List (Write V)
  | .increment job _ => job.writes 0
  | .write _ _ w ws _ => w :: ws
  | _ => []

/-- It is checking its read set. -/
def validating : Ending V m → Bool
  | .check _ _ _ _ => true
  | _ => false

/-- It is locking its write set. -/
def isLocking : Ending V m → Bool
  | .lock _ _ _ _ => true
  | _ => false

/-- It has checked the node, if the node is in its read set. -/
def Checked (n : NodeId) : Ending V m → Prop
  | .check _ k ks _ => n ∉ k :: ks
  | e => e.committed = true

def theJob : Ending V m → Option (Job V m)
  | .lock job _ _ _ | .check job _ _ _ | .increment job _ | .write job _ _ _ _ => some job
  | _ => none

section Shapes

variable {job : Job V m} {locked : List NodeId} {us : List (IndexUpdate m)} {b : Bool} {wv : Nat}

theorem committed_indexing : ∀ us : List (IndexUpdate m), (indexing us : Ending V m).committed = true
  | [] => rfl
  | _ :: _ => rfl

@[simp] theorem committed_unlocking : (unlocking locked us b : Ending V m).committed = b := by
  unfold unlocking
  split_ifs with h hb
  · rw [committed_indexing, hb]
  · exact (Bool.eq_false_iff.2 hb).symm
  · cases b <;> rfl

@[simp] theorem committed_aborting : (aborting locked : Ending V m).committed = false :=
  committed_unlocking

@[simp] theorem committed_writing : ∀ ws, (writing job wv locked ws).committed = true
  | [] => committed_unlocking
  | _ :: _ => rfl

theorem committed_checking_nil : (checking job locked []).committed = true := by
  unfold checking
  split_ifs
  · exact committed_unlocking
  · rfl

theorem left_indexing : ∀ us : List (IndexUpdate m), (indexing us : Ending V m).left = []
  | [] => rfl
  | _ :: _ => rfl

@[simp] theorem left_unlocking : (unlocking locked us b : Ending V m).left = [] := by
  unfold unlocking
  split_ifs
  · exact left_indexing us
  · rfl
  · rfl

@[simp] theorem left_aborting : (aborting locked : Ending V m).left = [] := left_unlocking

@[simp] theorem left_writing : ∀ ws, (writing job wv locked ws).left = ws
  | [] => left_unlocking
  | _ :: _ => rfl

theorem theJob_indexing : ∀ us : List (IndexUpdate m), (indexing us : Ending V m).theJob = none
  | [] => rfl
  | _ :: _ => rfl

theorem theJob_unlocking : (unlocking locked us b : Ending V m).theJob = none := by
  unfold unlocking
  split_ifs
  · exact theJob_indexing us
  · rfl
  · rfl

theorem theJob_writing {j : Job V m} : ∀ {ws}, (writing job wv locked ws).theJob = some j → j = job
  | [], h => by simp [writing, theJob_unlocking] at h
  | _ :: _, h => (Option.some.inj h).symm

theorem theJob_checking {j : Job V m} : ∀ {ns}, (checking job locked ns).theJob = some j → j = job
  | [], h => by
    unfold checking at h
    split_ifs at h
    · simp [theJob_unlocking] at h
    · exact (Option.some.inj h).symm
  | _ :: _, h => (Option.some.inj h).symm

theorem theJob_locking {j : Job V m} : ∀ {ns}, (locking job locked ns).theJob = some j → j = job
  | [], h => theJob_checking h
  | _ :: _, h => (Option.some.inj h).symm

/-- What the end of `TXend` is not. -/
theorem unlocking_rest : (unlocking locked us b : Ending V m).validating = false ∧
    (unlocking locked us b : Ending V m).isLocking = false := by
  unfold unlocking
  split_ifs
  · cases us <;> exact ⟨rfl, rfl⟩
  · exact ⟨rfl, rfl⟩
  · exact ⟨rfl, rfl⟩

theorem writing_rest : ∀ ws, (writing job wv locked ws).validating = false ∧
    (writing job wv locked ws).isLocking = false
  | [] => unlocking_rest
  | _ :: _ => ⟨rfl, rfl⟩

/-- A transaction holds the nodes it has still to write to. -/
theorem Proper.holds_left {e : Ending V m} (h : e.Proper) {w : Write V} (hw : w ∈ e.left) :
    w.node ∈ e.held := by
  cases e with
  | increment job locked =>
    have hk := Job.node_of_mem hw
    rw [← h.2] at hk
    exact List.mem_reverse.1 hk
  | write job wv w' ws locked => exact h.holds hw
  | _ => simp [left] at hw

end Shapes

section Step

variable [LinearOrder K] {s : Shared K V m} {p : Pick} {e e' : Ending V m} {eff : Effect K V m} {rv : Nat}

/-- A step, by what it means for the commit: nothing, one more lock, a check passed, the write version,
or a write. -/
theorem step_kinds (h : e.step s p = some (eff, e')) (hp : e.Proper)
    (hl : ∀ n ∈ e.held, (s.mem n).word.lock = true)
    (hj : ∀ job, e.theJob = some job → job.Suits rv) (hrv : rv ≤ s.gvc) :
    (e.left = [] ∧ e'.left = [] ∧ e'.committed = e.committed ∧ e'.validating = false ∧
      (∀ n ∈ e'.held, n ∈ e.held) ∧ e.locksLast s = false ∧ e'.isLocking = false ∧ e'.theJob = none) ∨
    (∃ job n todo locked, e = .lock job n todo locked ∧ (s.mem n).word.lock = false ∧
      ((∃ k ks, todo = k :: ks ∧ e' = .lock job k ks (n :: locked)) ∨
        todo = [] ∧ ∃ r rs, job.readSet = r :: rs ∧ e' = .check job r rs (n :: locked))) ∨
    (∃ job n ns locked, e = .check job n ns locked ∧ eff = .none ∧
      (n ∈ locked ∨ (s.mem n).word.lock = false) ∧ (s.mem n).word.version ≤ job.readVersion ∧
      e' = checking job locked ns) ∨
    (∃ job locked, e = .increment job locked ∧ eff = .increment ∧
      e' = writing job (s.gvc + 1) locked (job.writes (s.gvc + 1))) ∨
    ∃ job wv w ws locked, e = .write job wv w ws locked ∧ eff = w.effect s ∧
      e' = writing job wv locked ws := by
  have habort : ∀ {locked : List NodeId}, e.left = [] → e.committed = false → e.held = locked →
      e.locksLast s = false → e.left = [] ∧ (aborting locked : Ending V m).left = [] ∧
        (aborting locked : Ending V m).committed = e.committed ∧
        (aborting locked : Ending V m).validating = false ∧
        (∀ n ∈ (aborting locked : Ending V m).held, n ∈ e.held) ∧ e.locksLast s = false ∧
        (aborting locked : Ending V m).isLocking = false ∧ (aborting locked : Ending V m).theJob = none := by
    intro locked hleft hc hheld hlast
    refine ⟨hleft, left_aborting, by rw [committed_aborting, hc], unlocking_rest.1, fun n hn => ?_, hlast,
      unlocking_rest.2, theJob_unlocking⟩
    rw [held_aborting] at hn
    rwa [hheld]
  cases e with
  | lock job n todo locked =>
    simp only [step, Option.some.injEq] at h
    split_ifs at h with hw <;> obtain ⟨rfl, rfl⟩ := Prod.mk.inj h
    · refine .inl (habort rfl rfl rfl ?_)
      cases todo with
      | nil => simp [locksLast, LNode.isLocked, hw]
      | cons k ks => rfl
    · refine .inr (.inl ⟨job, n, todo, locked, rfl, by simpa using hw, ?_⟩)
      cases todo with
      | cons k ks => exact .inl ⟨k, ks, rfl, rfl⟩
      | nil =>
        refine .inr ⟨rfl, ?_⟩
        have hn : n ∈ job.readSet := (hj job rfl).2.2.2.1 n (by
          have hk : n ∈ job.keys := by rw [← hp.2]; simp
          exact hk)
        obtain ⟨r, rs, hr⟩ := List.exists_cons_of_ne_nil (List.ne_nil_of_mem hn)
        exact ⟨r, rs, hr, by rw [locking, hr]; rfl⟩
  | check job n ns locked =>
    simp only [step, Option.some.injEq] at h
    obtain ⟨rfl, he⟩ := Prod.mk.inj h
    split_ifs at he with h1 h2 h3 <;> subst he
    · exact .inl (habort rfl rfl rfl rfl)
    · exact .inl (habort rfl rfl rfl rfl)
    · exact .inl ⟨rfl, rfl, rfl, rfl, fun k hk => hk, rfl, rfl, rfl⟩
    · refine .inr (.inr (.inl ⟨job, n, ns, locked, rfl, rfl, ?_, not_lt.1 h2, rfl⟩))
      rw [not_and_or, not_not] at h1
      exact h1.imp id fun hlock => by simpa using hlock
  | moveOn n locked =>
    obtain ⟨rfl, rfl⟩ := Prod.mk.inj (Option.some.inj h)
    exact .inl ⟨rfl, rfl, rfl, rfl, fun k hk => hk, rfl, rfl, rfl⟩
  | clearMark n locked =>
    simp only [step, Option.some.injEq] at h
    split_ifs at h <;> obtain ⟨rfl, rfl⟩ := Prod.mk.inj h
    · exact .inl (habort rfl rfl rfl rfl)
    · exact .inl ⟨rfl, rfl, rfl, rfl, fun k hk => absurd hk List.not_mem_nil, rfl, rfl, rfl⟩
  | increment job locked =>
    simp only [step, Option.some.injEq] at h
    obtain ⟨rfl, he⟩ := Prod.mk.inj h
    have hlt : job.readVersion < s.gvc + 1 := by
      rw [(hj job rfl).2.1]
      omega
    rw [if_pos hlt] at he
    exact .inr (.inr (.inr (.inl ⟨job, locked, rfl, rfl, he.symm⟩)))
  | write job wv w ws locked =>
    obtain ⟨j, v, w', ws', locked', he, heff, he'⟩ : ∃ j v w' ws' locked',
        (Ending.write job wv w ws locked : Ending V m) = .write j v w' ws' locked' ∧ eff = w'.effect s ∧
          e' = writing j v locked' ws' := by
      obtain ⟨job', n, todo, l, he, -⟩ | ⟨l, us, b, he, -⟩ | ⟨job', l, he, -⟩ | hw | ⟨-, -, hpend, -⟩ :=
        step_cases h hp hl
      · simp at he
      · simp at he
      · simp at he
      · exact hw
      · simp [pending] at hpend
    exact .inr (.inr (.inr (.inr ⟨j, v, w', ws', locked', he, heff, he'⟩)))
  | unlock locked us b =>
    simp only [step, Option.ite_none_right_eq_some, Option.some.injEq] at h
    obtain ⟨hn, h⟩ := h
    rw [if_pos (hl _ hn)] at h
    obtain ⟨rfl, rfl⟩ := Prod.mk.inj h
    refine .inl ⟨rfl, left_unlocking, ?_, unlocking_rest.1, fun k hk => ?_, rfl, unlocking_rest.2,
      theJob_unlocking⟩
    · rw [committed_unlocking]
      cases b <;> rfl
    · rw [held_unlocking] at hk
      exact List.mem_of_mem_erase hk
  | index u us =>
    have hrest : (index u us : Ending V m).left = [] ∧ (indexing us : Ending V m).left = [] ∧
        (indexing us : Ending V m).committed = (index u us : Ending V m).committed ∧
        (indexing us : Ending V m).validating = false ∧
        (∀ n ∈ (indexing us : Ending V m).held, n ∈ (index u us : Ending V m).held) ∧
        (index u us : Ending V m).locksLast s = false ∧ (indexing us : Ending V m).isLocking = false ∧
        (indexing us : Ending V m).theJob = none := by
      cases us with
      | nil => exact ⟨rfl, rfl, rfl, rfl, fun k hk => hk, rfl, rfl, rfl⟩
      | cons v us => exact ⟨rfl, rfl, rfl, rfl, fun k hk => hk, rfl, rfl, rfl⟩
    cases u with
    | add l n | remove l n =>
      obtain ⟨ix, -, he⟩ := Option.map_eq_some_iff.1 h
      obtain ⟨-, rfl⟩ := Prod.mk.inj he
      exact .inl hrest
    | retire n =>
      obtain ⟨-, rfl⟩ := Prod.mk.inj (Option.some.inj h)
      exact .inl hrest
  | done b | stopped f => simp [step] at h

theorem content_of_quiet (h : e.step s p = some (eff, e')) (hp : e.Proper)
    (hl : ∀ n ∈ e.held, (s.mem n).word.lock = true) (hpend : e.pending = []) (n : NodeId) :
    ((eff.apply s).mem n).content = (s.mem n).content := by
  obtain ⟨job, k, todo, locked, rfl, hk, rfl, rfl⟩ | ⟨locked, us, b, rfl, hk, rfl, rfl⟩ |
    ⟨job, locked, rfl, rfl, he⟩ | ⟨job, wv, w, ws, locked, rfl, rfl, rfl⟩ | ⟨hq, -, -, -⟩ :=
    step_cases h hp hl
  · simp only [Effect.apply, Shared.mem_setNode]
    split_ifs with hn
    · rw [hn]; rfl
    · rfl
  · simp only [Effect.apply, Shared.mem_setNode]
    split_ifs with hn
    · rw [hn]; rfl
    · rfl
  · rfl
  · simp [pending] at hpend
  · rcases hq n with hmem | hmem
    · rw [hmem]
    · rw [hmem]; rfl

end Step

/-- A `TXend` starts by locking, or, with nothing to lock, by checking; it has checked nothing yet. -/
theorem start_rest {job : Job V m} (hTX : job.TX = true) :
    ((start job).isLocking = false ∨ (start job).committed = false ∧ (start job).validating = false) ∧
    ((start job).isLocking = false ↔ job.writeSet.isEmpty = true) ∧
    ((start job).isLocking = false → job.keys = []) ∧ ∀ n ∈ job.readSet, ¬ (start job).Checked n := by
  unfold start
  rw [if_pos hTX]
  unfold Job.keys
  rcases hw : job.writeSet with _ | ⟨x, xs⟩
  · have hlocking : (checking job [] job.readSet).isLocking = false := by
      rcases job.readSet with _ | ⟨r, rs⟩
      · unfold checking
        split_ifs
        · exact unlocking_rest.2
        · rfl
      · rfl
    refine ⟨.inl hlocking, ⟨fun _ => rfl, fun _ => hlocking⟩, fun _ => rfl, fun n hn hc => ?_⟩
    simp only [List.map_nil, locking] at hc
    rcases hr : job.readSet with _ | ⟨r, rs⟩ <;> rw [hr] at hn hc
    · exact List.not_mem_nil hn
    · exact hc hn
  · exact ⟨.inr ⟨rfl, rfl⟩, by simp [locking, isLocking], fun hl => by simp [locking, isLocking] at hl,
      fun n _ hc => by simp [locking, Checked, committed] at hc⟩

end Ending

/-! ## All transactions -/

namespace Protocol

/-- What the transaction has left of its `TXend`. -/
def ending (P : Protocol K V m) (t : TxId) : Ending V m :=
  match P.stage t with
  | .ending e => e
  | _ => .done false

def readVersion (P : Protocol K V m) (t : TxId) : Nat :=
  match P.stage t with
  | .waiting => 0
  | .running readVersion => readVersion
  | .ending _ => (P.job t).readVersion

/-- The contents after the transactions' commits, one after another. -/
def replayed (P : Protocol K V m) (C : NodeId → Content V) (ts : List TxId) : NodeId → Content V :=
  ts.foldl (fun C t => (P.job t).replay C) C

section Replayed

variable {P P' : Protocol K V m} {C D : NodeId → Content V} {n : NodeId} {t : TxId}

theorem committed_eq (P : Protocol K V m) (t : TxId) : P.committed t = (P.ending t).committed := by
  unfold committed ending
  rcases P.stage t <;> rfl

theorem replayed_congr : ∀ (ts : List TxId) {C D : NodeId → Content V}, C n = D n →
    P.replayed C ts n = P.replayed D ts n
  | [], _, _, h => h
  | _ :: ts, _, _, h => replayed_congr ts (Job.replay_congr h)

theorem replayed_append (ts us : List TxId) :
    P.replayed C (ts ++ us) = P.replayed (P.replayed C ts) us := List.foldl_append

theorem replayed_of_notMem : ∀ (ts : List TxId) {C : NodeId → Content V},
    (∀ t ∈ ts, n ∉ (P.job t).keys) → P.replayed C ts n = C n
  | [], _, _ => rfl
  | t :: ts, C, h => by
    refine (replayed_of_notMem ts fun u hu => h u (by simp [hu])).trans ?_
    exact Job.replay_of_notMem (h t (by simp))

/-- A transaction that does not write the node may as well be left out. -/
theorem replayed_insert (ts us : List TxId) (h : n ∉ (P.job t).keys) :
    P.replayed C (ts ++ t :: us) n = P.replayed C (ts ++ us) n := by
  rw [replayed_append, replayed_append]
  exact replayed_congr us (Job.replay_of_notMem h)

theorem replayed_of_job : ∀ (ts : List TxId) {C : NodeId → Content V},
    (∀ t ∈ ts, P'.job t = P.job t) → P'.replayed C ts = P.replayed C ts
  | [], _, _ => rfl
  | t :: ts, C, h => by
    show P'.replayed ((P'.job t).replay C) ts = P.replayed ((P.job t).replay C) ts
    rw [h t (by simp)]
    exact replayed_of_job ts fun u hu => h u (by simp [hu])

end Replayed

/-- Nothing is read or written but as the order has it. -/
structure Inv (C : NodeId → Content V) (P : Protocol K V m) : Prop where
  orderly : Orderly P.shared P.ending
  begun : ∀ t, P.readVersion t ≤ P.shared.gvc
  suits : ∀ t e, P.stage t = .ending e → (P.job t).Suits (P.readVersion t)
  theJob : ∀ t job, (P.ending t).theJob = some job → job = P.job t
  nodup : P.order.Nodup
  past : ∀ t ∈ P.order, ∃ e, P.stage t = .ending e ∧ e.isLocking = false
  listed : ∀ t, (P.ending t).validating = true ∨ P.committed t = true → t ∈ P.order
  /-- a transaction draws its version after those before it have begun -/
  drawn : ∀ l₁ t l₂, P.order = l₁ ++ t :: l₂ → ∀ u ∈ l₂, ∀ wv, (P.ending u).drawn = some wv →
    P.readVersion t < wv
  /-- and stamps its write set with it -/
  stamped : ∀ l₁ t l₂, P.order = l₁ ++ t :: l₂ → ∀ u ∈ l₂, P.committed u = true →
    ∀ n ∈ (P.job u).keys, P.readVersion t < (P.shared.mem n).word.version ∨
      ∃ wv, .set n (.setVersion wv) ∈ (P.ending u).left
  /-- what a transaction has read is still there, or it shows -/
  reads : ∀ t, P.committed t = false → ∀ x ∈ P.reads t, Settled P.ending x.1 (P.readVersion t) ∧
    (x.2 = (P.shared.mem x.1).content ∨ P.readVersion t < (P.shared.mem x.1).word.version ∨
      ∃ u wv, .set x.1 (.setVersion wv) ∈ (P.ending u).pending)
  held : ∀ t, ∀ n ∈ (P.ending t).held, P.replayed C (P.order.filter P.committed) n =
    replayWrites n (P.shared.mem n).content (P.ending t).left
  free : ∀ n, (∀ t, n ∉ (P.ending t).held) →
    P.replayed C (P.order.filter P.committed) n = (P.shared.mem n).content
  /-- a node that has been checked is not in the write set of an earlier transaction that is still
  checking -/
  apart : ∀ l₁ t l₂, P.order = l₁ ++ t :: l₂ → ∀ u ∈ l₁, (P.ending u).validating = true →
    ∀ n ∈ (P.job t).readSet, (P.ending t).Checked n → n ∉ (P.job u).keys
  replays : ∀ l₁ t l₂, P.order = l₁ ++ t :: l₂ → ∀ x ∈ P.reads t, x.1 ∈ (P.job t).readSet →
    (P.ending t).Checked x.1 → P.replayed C (l₁.filter P.committed) x.1 = x.2

theorem inv_start (s : Shared K V m) (hv : ∀ n, (s.mem n).getVersion ≤ s.gvc) :
    Inv (fun n => (s.mem n).content) (start s) where
  orderly := ⟨hv, fun _ => trivial, fun _ n hn => absurd hn List.not_mem_nil,
    fun hn => absurd hn List.not_mem_nil, fun hd => by simp [ending, start, Ending.drawn] at hd⟩
  begun _ := Nat.zero_le _
  suits t e he := by simp [start] at he
  theJob t job hj := by simp [ending, start, Ending.theJob] at hj
  nodup := List.nodup_nil
  past t ht := absurd ht List.not_mem_nil
  listed t ht := by simp [ending, start, committed, Ending.validating] at ht
  drawn l₁ t l₂ ho := by simp [start] at ho
  stamped l₁ t l₂ ho := by simp [start] at ho
  reads t _ x hx := absurd hx List.not_mem_nil
  held t n hn := absurd hn List.not_mem_nil
  free n _ := rfl
  apart l₁ t l₂ ho := by simp [start] at ho
  replays l₁ t l₂ ho := by simp [start] at ho

/-- The contents `now` are there once the transactions have made the writes they have left. -/
def Owed (now : NodeId → Content V) (s : Shared K V m) (E : TxId → Ending V m) : Prop :=
  (∀ t, ∀ n ∈ (E t).held, now n = replayWrites n (s.mem n).content (E t).left) ∧
    ∀ n, (∀ t, n ∉ (E t).held) → now n = (s.mem n).content

theorem Inv.owed {C : NodeId → Content V} {P : Protocol K V m} (h : P.Inv C) :
    Owed (P.replayed C (P.order.filter P.committed)) P.shared P.ending :=
  ⟨h.held, h.free⟩

/-- A step of one of them, which changes nothing of the nodes it has not locked. -/
theorem Owed.step {now now' : NodeId → Content V} {s s' : Shared K V m} {E : TxId → Ending V m}
    {t : TxId} {e e' : Ending V m} (h : Owed now s E) (he : E t = e)
    (hapart : ∀ u, u ≠ t → ∀ n ∈ (E u).held, n ∉ e.held)
    (hin : ∀ n ∈ e'.held, now' n = replayWrites n (s'.mem n).content e'.left)
    (hout : ∀ n ∈ e.held, n ∉ e'.held → now' n = (s'.mem n).content)
    (hrest : ∀ n, n ∉ e.held → now' n = now n ∧ (s'.mem n).content = (s.mem n).content) :
    Owed now' s' (Function.update E t e') := by
  refine ⟨fun u n hn => ?_, fun n hn => ?_⟩
  · by_cases hut : u = t
    · subst hut
      rw [Function.update_self] at hn ⊢
      exact hin n hn
    · rw [Function.update_of_ne hut] at hn ⊢
      obtain ⟨hnow, hmem⟩ := hrest n (hapart u hut n hn)
      rw [hnow, hmem, h.1 u n hn]
  · have hn' : n ∉ e'.held := by simpa using hn t
    by_cases hne : n ∈ e.held
    · exact hout n hne hn'
    obtain ⟨hnow, hmem⟩ := hrest n hne
    rw [hnow, hmem]
    refine h.2 n fun u => ?_
    by_cases hut : u = t
    · rwa [hut, he]
    · simpa [hut] using hn u

section Before

variable {C : NodeId → Content V} {P : Protocol K V m} {t : TxId} {n : NodeId}

/-- A transaction that is not in `TXend`, or is locking, is not in the order. -/
theorem Inv.notMem_of_stage (h : P.Inv C) (ht : ∀ e, P.stage t = .ending e → e.isLocking = true) :
    t ∉ P.order := by
  intro hmem
  obtain ⟨e, he, hlocking⟩ := h.past t hmem
  rw [ht e he] at hlocking
  simp at hlocking

/-- The transactions in the order, one of which is committed, without it and with it. -/
theorem filter_split (f : TxId → Bool) {l₁ l₂ : List TxId} (ht : f t = true) :
    (l₁ ++ t :: l₂).filter f = l₁.filter f ++ t :: l₂.filter f := by
  rw [List.filter_append, List.filter_cons_of_pos ht]

end Before

/-- The order has a transaction added at its end, or not. -/
theorem extend_split {l l₁ l₂ : List TxId} {t u : TxId} {b : Bool}
    (h : (if b = true then l ++ [t] else l) = l₁ ++ u :: l₂) :
    (u = t ∧ l₂ = [] ∧ b = true) ∨ ∃ l₃, l = l₁ ++ u :: l₃ ∧ ∀ v ∈ l₂, v ∈ l₃ ∨ v = t ∧ b = true := by
  split_ifs at h with hb
  · rcases List.eq_nil_or_concat l₂ with rfl | ⟨l₃, v, rfl⟩
    · obtain ⟨-, he⟩ := List.append_inj' h rfl
      exact .inl ⟨(List.cons_eq_cons.1 he).1.symm, rfl, hb⟩
    · rw [List.concat_eq_append, ← List.cons_append, ← List.append_assoc] at h
      obtain ⟨hl, he⟩ := List.append_inj' h rfl
      obtain ⟨rfl, -⟩ := List.cons_eq_cons.1 he
      refine .inr ⟨l₃, hl, fun v hv => ?_⟩
      rw [List.concat_eq_append, List.mem_append, List.mem_singleton] at hv
      exact hv.imp id fun hv => ⟨hv, hb⟩
  · exact .inr ⟨l₂, h, fun v hv => .inl hv⟩

/-- The state after a step of transaction `t` in its `TXend`. -/
def after (P : Protocol K V m) (t : TxId) (eff : Effect K V m) (e : Ending V m) (order : List TxId) :
    Protocol K V m :=
  { P with
    shared := eff.apply P.shared
    stage := Function.update P.stage t (.ending e)
    order := order }

section After

variable [LinearOrder K] {C : NodeId → Content V} {P : Protocol K V m} {t : TxId} {p : Pick}
  {e e' : Ending V m} {eff : Effect K V m} {order : List TxId}

omit [LinearOrder K] in
theorem ending_after : (P.after t eff e' order).ending = Function.update P.ending t e' := by
  funext u
  by_cases hu : u = t
  · subst hu
    simp [ending, after]
  · simp [ending, after, hu]

omit [LinearOrder K] in
theorem readVersion_after (he : P.stage t = .ending e) :
    (P.after t eff e' order).readVersion = P.readVersion := by
  funext u
  by_cases hu : u = t
  · subst hu
    simp [readVersion, after, he]
  · simp [readVersion, after, hu]

omit [LinearOrder K] in
theorem committed_after_ne {u : TxId} (hu : u ≠ t) :
    (P.after t eff e' order).committed u = P.committed u := by
  simp [committed, after, hu]

omit [LinearOrder K] in
theorem committed_after_self : (P.after t eff e' order).committed t = e'.committed := by
  simp [committed, after]

/-- The order after a step. -/
def goneOrder (P : Protocol K V m) (t : TxId) (e : Ending V m) : List TxId :=
  if e.locksLast P.shared then P.order ++ [t] else P.order

omit [LinearOrder K] in
theorem mem_goneOrder {u : TxId} :
    u ∈ P.goneOrder t e ↔ u ∈ P.order ∨ u = t ∧ e.locksLast P.shared = true := by
  unfold goneOrder
  split_ifs with h <;> simp [h]

omit [LinearOrder K] in
theorem goneOrder_split {l₁ l₂ : List TxId} {u : TxId} (ho : P.goneOrder t e = l₁ ++ u :: l₂) :
    (u = t ∧ l₂ = [] ∧ e.locksLast P.shared = true) ∨
      ∃ l₃, P.order = l₁ ++ u :: l₃ ∧ ∀ v ∈ l₂, v ∈ l₃ ∨ v = t ∧ e.locksLast P.shared = true :=
  extend_split ho

section Going

variable (h : P.Inv C) (he : P.stage t = .ending e) (hs : e.step P.shared p = some (eff, e'))
include h he hs

omit h hs [LinearOrder K] in
theorem ending_of_stage : P.ending t = e := by
  simp [ending, he]

omit hs [LinearOrder K] in
theorem Inv.proper_held : e.Proper ∧ ∀ n ∈ e.held, (P.shared.mem n).word.lock = true := by
  have hE := ending_of_stage he
  exact ⟨hE ▸ h.orderly.proper t, hE ▸ h.orderly.locked t⟩

omit hs [LinearOrder K] in
theorem Inv.job_eq {job : Job V m} (hj : e.theJob = some job) : job = P.job t :=
  h.theJob t job (by rw [ending_of_stage he, hj])

omit hs [LinearOrder K] in
/-- What another transaction holds the transaction does not. -/
theorem Inv.held_ne {u : TxId} {n : NodeId} (hu : u ≠ t) (hn : n ∈ (P.ending u).held) :
    n ∉ e.held := fun hn' => hu (h.orderly.apart hn (ending_of_stage he ▸ hn'))

/-- The kinds of steps. -/
theorem Inv.kinds :
    (e.left = [] ∧ e'.left = [] ∧ e'.committed = e.committed ∧ e'.validating = false ∧
      (∀ n ∈ e'.held, n ∈ e.held) ∧ e.locksLast P.shared = false ∧ e'.isLocking = false ∧
      e'.theJob = none) ∨
    (∃ job n todo locked, e = .lock job n todo locked ∧ (P.shared.mem n).word.lock = false ∧
      ((∃ k ks, todo = k :: ks ∧ e' = .lock job k ks (n :: locked)) ∨
        todo = [] ∧ ∃ r rs, job.readSet = r :: rs ∧ e' = .check job r rs (n :: locked))) ∨
    (∃ job n ns locked, e = .check job n ns locked ∧ eff = .none ∧
      (n ∈ locked ∨ (P.shared.mem n).word.lock = false) ∧
      (P.shared.mem n).word.version ≤ job.readVersion ∧ e' = Ending.checking job locked ns) ∨
    (∃ job locked, e = .increment job locked ∧ eff = .increment ∧
      e' = Ending.writing job (P.shared.gvc + 1) locked (job.writes (P.shared.gvc + 1))) ∨
    ∃ job wv w ws locked, e = .write job wv w ws locked ∧ eff = w.effect P.shared ∧
      e' = Ending.writing job wv locked ws :=
  Ending.step_kinds hs (h.proper_held he).1 (h.proper_held he).2
    (fun _ hj => h.job_eq he hj ▸ h.suits t e he) (h.begun t)

/-- The last lock is taken by a transaction that is not in the order, and goes on to check. -/
theorem Inv.lastLock (hlast : e.locksLast P.shared = true) : t ∉ P.order ∧ e'.committed = false ∧
    e'.left = [] ∧ e'.isLocking = false ∧ ∀ n ∈ (P.job t).readSet, ¬ e'.Checked n := by
  have hlock : e.isLocking = true := by
    cases e <;> first | rfl | simp [Ending.locksLast] at hlast
  refine ⟨h.notMem_of_stage fun e₁ he₁ => ?_, ?_⟩
  · rw [he] at he₁
    exact Stage.ending.inj he₁ ▸ hlock
  obtain ⟨-, -, -, -, -, hno, -⟩ | ⟨job, n, todo, locked, rfl, -, ⟨k, ks, rfl, rfl⟩ | ⟨rfl, r, rs, hr, rfl⟩⟩ |
    ⟨job, n, ns, locked, rfl, -⟩ | ⟨job, locked, rfl, -⟩ | ⟨job, wv, w, ws, locked, rfl, -⟩ :=
    h.kinds he hs
  · rw [hno] at hlast
    simp at hlast
  · simp [Ending.locksLast] at hlast
  · refine ⟨rfl, rfl, rfl, fun n hn hc => hc ?_⟩
    rwa [← h.job_eq he rfl, hr] at hn
  all_goals simp [Ending.isLocking] at hlock

/-- What a transaction has committed to stays. -/
theorem Inv.committed_of_committed (hc : e.committed = true) : e'.committed = true := by
  obtain ⟨-, -, heq, -⟩ | ⟨job, n, todo, locked, rfl, -⟩ | ⟨job, n, ns, locked, rfl, -⟩ |
    ⟨job, locked, rfl, -, rfl⟩ | ⟨job, wv, w, ws, locked, rfl, -, rfl⟩ := h.kinds he hs
  · rw [heq, hc]
  · simp [Ending.committed] at hc
  · simp [Ending.committed] at hc
  · exact Ending.committed_writing _
  · exact Ending.committed_writing _

omit hs [LinearOrder K] in
theorem Inv.listed_of_committed (hc : e.committed = true) : t ∈ P.order :=
  h.listed t (.inr (by rw [committed_eq, ending_of_stage he, hc]))

/-- The order and what is to be said of one transaction. -/
theorem Inv.basic : Orderly (P.after t eff e' (P.goneOrder t e)).shared
      (P.after t eff e' (P.goneOrder t e)).ending ∧
    (∀ u job, ((P.after t eff e' (P.goneOrder t e)).ending u).theJob = some job → job = P.job u) ∧
    (P.goneOrder t e).Nodup ∧
    (∀ u ∈ P.goneOrder t e, ∃ e₁, (P.after t eff e' (P.goneOrder t e)).stage u = .ending e₁ ∧
      e₁.isLocking = false) ∧
    ∀ u, ((P.after t eff e' (P.goneOrder t e)).ending u).validating = true ∨
      (P.after t eff e' (P.goneOrder t e)).committed u = true → u ∈ P.goneOrder t e := by
  have hE := ending_of_stage he
  refine ⟨?_, fun u job hj => ?_, ?_, fun u hu => ?_, fun u hu => ?_⟩
  · rw [ending_after]
    exact h.orderly.step (hE ▸ hs)
  · rw [ending_after] at hj
    by_cases hut : u = t
    · subst hut
      rw [Function.update_self] at hj
      obtain ⟨-, -, -, -, -, -, -, hnone⟩ | ⟨job', n, todo, locked, rfl, -, ⟨k, ks, -, rfl⟩ | ⟨-, r, rs, -, rfl⟩⟩ |
        ⟨job', n, ns, locked, rfl, -, -, -, rfl⟩ | ⟨job', locked, rfl, -, rfl⟩ |
        ⟨job', wv, w, ws, locked, rfl, -, rfl⟩ := h.kinds he hs
      · rw [hnone] at hj
        simp at hj
      · exact (Option.some.inj hj) ▸ h.job_eq he rfl
      · exact (Option.some.inj hj) ▸ h.job_eq he rfl
      · exact (Ending.theJob_checking hj).trans (h.job_eq he rfl)
      · exact (Ending.theJob_writing hj).trans (h.job_eq he rfl)
      · exact (Ending.theJob_writing hj).trans (h.job_eq he rfl)
    · rw [Function.update_of_ne hut] at hj
      exact h.theJob u job hj
  · unfold goneOrder
    split_ifs with hlast
    · have hnot := (h.lastLock he hs hlast).1
      refine List.nodup_append.2 ⟨h.nodup, List.nodup_singleton t, fun a ha b hb hab => hnot ?_⟩
      rwa [hab, List.mem_singleton.1 hb] at ha
    · exact h.nodup
  · by_cases hut : u = t
    · subst hut
      refine ⟨e', by simp [after], ?_⟩
      rcases mem_goneOrder.1 hu with hu | ⟨-, hlast⟩
      · obtain ⟨e₁, he₁, hlock⟩ := h.past u hu
        rw [he] at he₁
        obtain rfl := Stage.ending.inj he₁
        obtain ⟨-, -, -, -, -, -, hno, -⟩ | ⟨job', n, todo, locked, rfl, -⟩ |
          ⟨job', n, ns, locked, rfl, -, -, -, rfl⟩ | ⟨job', locked, rfl, -, rfl⟩ |
          ⟨job', wv, w, ws, locked, rfl, -, rfl⟩ := h.kinds he hs
        · exact hno
        · simp [Ending.isLocking] at hlock
        · cases ns with
          | nil =>
            unfold Ending.checking
            split_ifs
            · exact Ending.unlocking_rest.2
            · rfl
          | cons k ks => rfl
        · exact (Ending.writing_rest _).2
        · exact (Ending.writing_rest _).2
      · exact (h.lastLock he hs hlast).2.2.2.1
    · obtain ⟨e₁, he₁, hlock⟩ := h.past u ((mem_goneOrder.1 hu).resolve_right fun hu => hut hu.1)
      exact ⟨e₁, by simpa [after, hut] using he₁, hlock⟩
  · rw [mem_goneOrder]
    rw [ending_after] at hu
    by_cases hut : u = t
    · subst hut
      rw [Function.update_self, committed_after_self] at hu
      obtain ⟨-, -, hcom, hval, -⟩ | ⟨job', n, todo, locked, rfl, hn, ⟨k, ks, -, rfl⟩ | ⟨rfl, r, rs, -, rfl⟩⟩ |
        ⟨job', n, ns, locked, rfl, -⟩ | ⟨job', locked, rfl, -⟩ | ⟨job', wv, w, ws, locked, rfl, -⟩ :=
        h.kinds he hs
      · rw [hval, hcom] at hu
        exact .inl (h.listed_of_committed he (hu.resolve_left (by simp)))
      · simp [Ending.validating, Ending.committed] at hu
      · exact .inr ⟨rfl, by simp [Ending.locksLast, LNode.isLocked, hn]⟩
      · exact .inl (h.listed u (.inl (by rw [hE]; rfl)))
      · exact .inl (h.listed_of_committed he rfl)
      · exact .inl (h.listed_of_committed he rfl)
    · rw [Function.update_of_ne hut, committed_after_ne hut] at hu
      exact .inl (h.listed u hu)

/-- The write versions, and the stamps. -/
theorem Inv.drawn_after (l₁ : List TxId) (u : TxId) (l₂ : List TxId)
    (ho : P.goneOrder t e = l₁ ++ u :: l₂) (v : TxId) (hv : v ∈ l₂) (wv : Nat)
    (hd : ((P.after t eff e' (P.goneOrder t e)).ending v).drawn = some wv) : P.readVersion u < wv := by
  obtain ⟨-, rfl, -⟩ | ⟨l₃, ho', hmem⟩ := goneOrder_split ho
  · exact absurd hv List.not_mem_nil
  · rw [ending_after] at hd
    by_cases hvt : v = t
    · subst hvt
      rw [Function.update_self] at hd
      obtain ⟨hp, hl⟩ := h.proper_held he
      obtain ⟨-, ⟨hd', -⟩ | ⟨rfl, -⟩⟩ := Ending.pending_step hs hp hl hd
      · refine h.drawn l₁ u l₃ ho' v ((hmem v hv).resolve_right fun hlast => ?_) wv
          (by rw [ending_of_stage he, hd'])
        cases e <;> simp [Ending.locksLast, Ending.drawn] at hlast hd'
      · exact Nat.lt_succ_of_le (h.begun u)
    · rw [Function.update_of_ne hvt] at hd
      exact h.drawn l₁ u l₃ ho' v ((hmem v hv).resolve_right fun hlast => hvt hlast.1) wv hd

theorem Inv.stamped_after (l₁ : List TxId) (u : TxId) (l₂ : List TxId)
    (ho : P.goneOrder t e = l₁ ++ u :: l₂) (v : TxId) (hv : v ∈ l₂)
    (hc : (P.after t eff e' (P.goneOrder t e)).committed v = true) (n : NodeId) (hn : n ∈ (P.job v).keys) :
    P.readVersion u < ((eff.apply P.shared).mem n).word.version ∨
      ∃ wv, .set n (.setVersion wv) ∈ ((P.after t eff e' (P.goneOrder t e)).ending v).left := by
  have hE := ending_of_stage he
  have hmono : P.readVersion u < (P.shared.mem n).word.version →
      P.readVersion u < ((eff.apply P.shared).mem n).word.version := fun hlt =>
    hlt.trans_le (h.orderly.version_le_step (hE ▸ hs) n)
  obtain ⟨-, rfl, -⟩ | ⟨l₃, ho', hmem⟩ := goneOrder_split ho
  · exact absurd hv List.not_mem_nil
  · rw [ending_after]
    by_cases hvt : v = t
    · subst hvt
      rw [Function.update_self]
      rw [committed_after_self] at hc
      have hv' : v ∈ l₃ := (hmem v hv).resolve_right fun hlast => by
        rw [(h.lastLock he hs hlast.2).2.1] at hc
        simp at hc
      have hold : e.committed = true → P.readVersion u < (P.shared.mem n).word.version ∨
          ∃ wv, .set n (.setVersion wv) ∈ e.left := fun hce => by
        have := h.stamped l₁ u l₃ ho' v hv' (by rw [committed_eq, hE, hce]) n hn
        rwa [hE] at this
      obtain ⟨hleft, -, hcom, -⟩ | ⟨job, k, todo, locked, rfl, -, ⟨k', ks, -, rfl⟩ | ⟨-, r, rs, -, rfl⟩⟩ |
        ⟨job, k, ns, locked, rfl, -, -, -, rfl⟩ | ⟨job, locked, rfl, -, rfl⟩ |
        ⟨job, wv, w, ws, locked, rfl, rfl, rfl⟩ := h.kinds he hs
      · refine .inl (hmono ((hold (hcom ▸ hc)).resolve_right ?_))
        rintro ⟨wv, hw⟩
        rw [hleft] at hw
        exact List.not_mem_nil hw
      · simp [Ending.committed] at hc
      · simp [Ending.committed] at hc
      · obtain rfl := h.job_eq he rfl
        cases ns with
        | nil =>
          refine .inr ⟨0, ?_⟩
          unfold Ending.checking
          split_ifs with hro
          · have hnil := (h.suits v _ he).2.2.2.2 hro
            rw [List.isEmpty_iff] at hnil
            simp [Job.keys, hnil] at hn
          · exact Job.stamp_mem hn
        | cons k' ks => simp [Ending.checking, Ending.committed] at hc
      · obtain rfl := h.job_eq he rfl
        exact .inr ⟨_, by rw [Ending.left_writing]; exact Job.stamp_mem hn⟩
      · rcases hold rfl with hlt | ⟨wv', hw⟩
        · exact .inl (hmono hlt)
        · rcases List.mem_cons.1 hw with rfl | hw
          · obtain ⟨hp, -⟩ := h.proper_held he
            obtain hf | hf | hf := hp.setter rfl (List.mem_cons_self ..)
            · simp at hf
            · obtain rfl := Setter.setVersion.inj hf
              refine .inl ?_
              have hlt := h.drawn l₁ u l₃ ho' v hv' wv' (by rw [hE]; rfl)
              simpa [Write.effect, Effect.apply, Shared.mem_setNode, Setter.apply] using hlt
            · simp at hf
          · exact .inr ⟨wv', by rwa [Ending.left_writing]⟩
    · rw [Function.update_of_ne hvt]
      rw [committed_after_ne hvt] at hc
      exact (h.stamped l₁ u l₃ ho' v ((hmem v hv).resolve_right fun hlast => hvt hlast.1) hc n hn).imp
        hmono id

/-- A transaction that is committed was so before, or has just passed its last check. -/
theorem Inv.committed_before {u : TxId} (hc : P.committed u = true) :
    (P.after t eff e' (P.goneOrder t e)).committed u = true := by
  by_cases hut : u = t
  · subst hut
    rw [committed_after_self]
    rw [committed_eq, ending_of_stage he] at hc
    exact h.committed_of_committed he hs hc
  · rwa [committed_after_ne hut]

theorem Inv.reads_after (u : TxId) (hc : (P.after t eff e' (P.goneOrder t e)).committed u = false)
    (x : NodeId × Content V) (hx : x ∈ P.reads u) :
    Settled (P.after t eff e' (P.goneOrder t e)).ending x.1 (P.readVersion u) ∧
      (x.2 = ((eff.apply P.shared).mem x.1).content ∨
        P.readVersion u < ((eff.apply P.shared).mem x.1).word.version ∨
        ∃ v wv, .set x.1 (.setVersion wv) ∈
          ((P.after t eff e' (P.goneOrder t e)).ending v).pending) := by
  have hE := ending_of_stage he
  obtain ⟨hp, hl⟩ := h.proper_held he
  have hc' : P.committed u = false := by
    by_contra hcu
    rw [h.committed_before he hs (Bool.eq_true_of_not_eq_false hcu)] at hc
    simp at hc
  obtain ⟨hset, hread⟩ := h.reads u hc' x hx
  rw [ending_after]
  refine ⟨h.orderly.settled_step (hE ▸ hs) (h.begun u) hset, ?_⟩
  have hmono : P.readVersion u < (P.shared.mem x.1).word.version →
      P.readVersion u < ((eff.apply P.shared).mem x.1).word.version := fun hlt =>
    hlt.trans_le (h.orderly.version_le_step (hE ▸ hs) x.1)
  have hother : ∀ {v : TxId} {wv : Nat}, v ≠ t → .set x.1 (.setVersion wv) ∈ (P.ending v).pending →
      ∃ v wv, .set x.1 (.setVersion wv) ∈ (Function.update P.ending t e' v).pending :=
    fun {v wv} hv hmem => ⟨v, wv, by rwa [Function.update_of_ne hv]⟩
  rcases hpend : e.pending with _ | ⟨w, ws⟩
  · rw [Ending.content_of_quiet hs hp hl hpend]
    refine hread.imp id (Or.imp hmono ?_)
    rintro ⟨v, wv, hmem⟩
    refine hother (fun hv => ?_) hmem
    rw [hv, hE, hpend] at hmem
    exact List.not_mem_nil hmem
  · obtain ⟨wv, hd⟩ : ∃ wv, e.drawn = some wv := by
      cases e <;> first | exact ⟨_, rfl⟩ | simp [Ending.pending] at hpend
    obtain ⟨w', ws', hpend', rfl, hpe', -⟩ := Ending.write_step hs hp hl hd
    obtain ⟨rfl, rfl⟩ := List.cons_eq_cons.1 (hpend.symm.trans hpend')
    have hself : ∀ {v : Nat}, .set x.1 (.setVersion v) ∈ ws →
        ∃ u wv, .set x.1 (.setVersion wv) ∈ (Function.update P.ending t e' u).pending :=
      fun {v} hv => ⟨t, v, by rwa [Function.update_self, hpe']⟩
    have hstamp : w = .set x.1 (.setVersion wv) →
        P.readVersion u < (((w.effect P.shared).apply P.shared).mem x.1).word.version := by
      rintro rfl
      have hlt := hset t wv (by rw [hE, hd]) ⟨_, by rw [hE, hpend]; exact List.mem_cons_self .., rfl⟩
      simpa [Write.effect, Effect.apply, Shared.mem_setNode, Setter.apply] using hlt
    rcases hread with heq | hlt | ⟨v, wv', hmem⟩
    · by_cases hnode : w.node = x.1
      · -- the content is left alone by the stamp and by what follows it
        by_cases hs1 : w = .set w.node (.setVersion wv)
        · exact .inr (.inl (hstamp (hnode ▸ hs1)))
        · by_cases hs2 : w = .set w.node (.setSingleton false)
          · refine .inl ?_
            rw [Write.content_effect, heq, hs2, hnode]
            simp [Write.replay, Setter.apply]
          · obtain ⟨job, wv', w', ws', locked, rfl⟩ : ∃ job wv' w' ws' locked,
                e = .write job wv' w' ws' locked := by
              cases e <;> first | exact ⟨_, _, _, _, _, rfl⟩ | simp [Ending.pending] at hpend
            obtain rfl := Option.some.inj hd
            obtain ⟨rfl, rfl⟩ := List.cons_eq_cons.1 hpend
            exact .inr (.inr (hself (hnode ▸ Job.stamp_of_write hs1 hs2 _ hp.2.2)))
      · refine .inl ?_
        rw [Write.content_effect, Write.replay_of_ne hnode]
        exact heq
    · exact .inr (.inl (hmono hlt))
    · by_cases hv : v = t
      · rw [hv, hE, hpend] at hmem
        rcases List.mem_cons.1 hmem with rfl | hmem
        · obtain hf | hf | hf := hp.setter hd (by rw [hpend]; exact List.mem_cons_self ..)
          · simp at hf
          · exact .inr (.inl (hstamp (by rw [hf])))
          · simp at hf
        · exact .inr (.inr (hself hmem))
      · exact .inr (.inr (hother hv hmem))

/-- The contents that the commits lead to, after a step that commits nothing. -/
theorem Inv.now_after (hcom : e'.committed = e.committed) :
    P.replayed C ((P.goneOrder t e).filter (Function.update P.committed t e'.committed)) =
      P.replayed C (P.order.filter P.committed) := by
  have hold : P.committed t = e.committed := by rw [committed_eq, ending_of_stage he]
  rw [hcom, ← hold, Function.update_eq_self]
  unfold goneOrder
  split_ifs with hlast
  · have hno : P.committed t = false := by rw [hold, ← hcom, (h.lastLock he hs hlast).2.1]
    rw [List.filter_append, List.filter_cons_of_neg (by simp [hno]), List.filter_nil, List.append_nil]
  · rfl

omit hs [LinearOrder K] in
/-- The contents after the last check: the transaction's writes are made as well. -/
theorem Inv.now_commit {job : Job V m} {k : NodeId} {locked : List NodeId}
    (hce : e = .check job k [] locked) (n : NodeId) :
    P.replayed C (P.order.filter (Function.update P.committed t true)) n =
      replayWrites n (P.replayed C (P.order.filter P.committed) n) ((P.job t).writes 0) := by
  have hE := ending_of_stage he
  have hval : (P.ending t).validating = true := by rw [hE, hce]; rfl
  obtain ⟨l₁, l₂, ho⟩ := List.append_of_mem (h.listed t (.inl hval))
  have hnd := h.nodup
  rw [ho, List.nodup_middle, List.nodup_cons, List.mem_append, not_or] at hnd
  have hsame : ∀ l : List TxId, t ∉ l →
      l.filter (Function.update P.committed t true) = l.filter P.committed := fun l hl =>
    List.filter_congr fun u hu => Function.update_of_ne (show u ≠ t from fun hut => hl (hut ▸ hu)) _ _
  have hold : P.committed t = false := by rw [committed_eq, hE, hce]; rfl
  rw [ho, filter_split _ (Function.update_self ..), hsame l₁ hnd.1.1, hsame l₂ hnd.1.2,
    List.filter_append, List.filter_cons_of_neg (by simp [hold]), Job.replay_writes]
  by_cases hn : n ∈ (P.job t).keys
  · -- no later transaction that has committed writes the node
    have hlater : ∀ u ∈ l₂.filter P.committed, n ∉ (P.job u).keys := by
      intro u hu hnu
      obtain ⟨hu, hc⟩ := List.mem_filter.1 hu
      obtain ⟨l₃, l₄, rfl⟩ := List.append_of_mem hu
      obtain ⟨e₁, he₁, -⟩ := h.past u (by rw [ho]; simp)
      have hE₁ : P.ending u = e₁ := ending_of_stage he₁
      rw [committed_eq, hE₁] at hc
      refine h.apart (l₁ ++ t :: l₃) u l₄ (by rw [ho]; simp) t (by simp) hval n
        ((h.suits u e₁ he₁).2.2.2.1 n hnu) ?_ hn
      rw [hE₁]
      cases e₁ <;> first | exact hc | simp [Ending.committed] at hc
    rw [replayed_append, replayed_append]
    exact (replayed_of_notMem (l₂.filter P.committed) hlater).trans
      (Job.replay_congr (replayed_of_notMem _ hlater).symm)
  · rw [replayed_insert _ _ hn, Job.replay_of_notMem hn]

/-- A step that neither writes nor commits. -/
theorem Inv.held_keep (hcom : e'.committed = e.committed) (hpend : e.pending = [])
    (hin : ∀ n ∈ e'.held, replayWrites n (P.shared.mem n).content e'.left =
      P.replayed C (P.order.filter P.committed) n)
    (hout : ∀ n ∈ e.held, n ∉ e'.held → e.left = []) :
    Owed (P.replayed C ((P.goneOrder t e).filter (Function.update P.committed t e'.committed)))
      (eff.apply P.shared) (Function.update P.ending t e') := by
  obtain ⟨hp, hl⟩ := h.proper_held he
  have hE := ending_of_stage he
  rw [h.now_after he hs hcom]
  refine h.owed.step hE (fun u hu n hn => h.held_ne he hu hn) (fun n hn => ?_) (fun n hn hn' => ?_)
    fun n _ => ⟨rfl, Ending.content_of_quiet hs hp hl hpend n⟩ <;>
    rw [Ending.content_of_quiet hs hp hl hpend]
  · exact (hin n hn).symm
  · rw [h.held t n (hE ▸ hn), hE, hout n hn hn']
    rfl

/-- The last check: the transaction commits, and owes its writes. -/
theorem Inv.held_commit {job : Job V m} {k : NodeId} {locked : List NodeId}
    (hce : e = .check job k [] locked) (heff : eff = .none) (he' : e' = Ending.checking job locked []) :
    Owed (P.replayed C ((P.goneOrder t e).filter (Function.update P.committed t e'.committed)))
      (eff.apply P.shared) (Function.update P.ending t e') := by
  subst hce heff he'
  have hE := ending_of_stage he
  obtain ⟨hp, -⟩ := h.proper_held he
  have hnow := h.now_commit he rfl
  have hgone : P.goneOrder t (.check job k [] locked) = P.order := rfl
  obtain rfl := h.job_eq he rfl
  have hkeys : ∀ {n}, n ∈ (P.job t).keys ↔ n ∈ locked := by
    rw [← hp.2.1]
    exact List.mem_reverse
  have hoff : ∀ {n}, n ∉ locked → replayWrites n (P.replayed C (P.order.filter P.committed) n)
      ((P.job t).writes 0) = P.replayed C (P.order.filter P.committed) n := fun hn =>
    replayWrites_of_ne fun w hw he => hn (hkeys.1 (he ▸ Job.node_of_mem hw))
  rw [Ending.committed_checking_nil, hgone]
  refine h.owed.step hE (fun u hu n hn => h.held_ne he hu hn) (fun n hn => ?_) (fun n hn hn' => ?_)
    fun n hn => ⟨?_, rfl⟩
  · rw [Ending.held_checking] at hn
    rw [hnow, h.held t n (hE ▸ hn), hE]
    unfold Ending.checking
    split_ifs with hro
    · -- a read-only transaction holds no lock
      have hempty := (h.suits t _ he).2.2.2.2 hro
      rw [List.isEmpty_iff] at hempty
      have hk := hkeys.2 hn
      simp [Job.keys, hempty] at hk
    · rfl
  · rw [Ending.held_checking] at hn'
    exact absurd hn hn'
  · rw [hnow]
    exact hoff hn

/-- A write: what was owed has been done. -/
theorem Inv.held_write {job : Job V m} {wv : Nat} {w : Write V} {ws : List (Write V)}
    {locked : List NodeId} (hce : e = .write job wv w ws locked) (heff : eff = w.effect P.shared)
    (he' : e' = Ending.writing job wv locked ws) :
    Owed (P.replayed C ((P.goneOrder t e).filter (Function.update P.committed t e'.committed)))
      (eff.apply P.shared) (Function.update P.ending t e') := by
  subst hce heff he'
  have hE := ending_of_stage he
  obtain ⟨hp, -⟩ := h.proper_held he
  rw [h.now_after he hs (Ending.committed_writing _)]
  refine h.owed.step hE (fun u hu n hn => h.held_ne he hu hn) (fun n hn => ?_) (fun n hn hn' => ?_)
    fun n hn => ⟨rfl, ?_⟩
  · rw [Ending.held_writing] at hn
    rw [Ending.left_writing, Write.content_effect, h.held t n (hE ▸ hn), hE]
    rfl
  · rw [Ending.held_writing] at hn'
    exact absurd hn hn'
  · rw [Write.content_effect, Write.replay_of_ne]
    exact fun he => hn (he ▸ hp.holds (List.mem_cons_self ..))

theorem Inv.held_after :
    Owed (P.replayed C ((P.goneOrder t e).filter (Function.update P.committed t e'.committed)))
      (eff.apply P.shared) (Function.update P.ending t e') := by
  have hE := ending_of_stage he
  have hheld : ∀ n ∈ e.held, P.replayed C (P.order.filter P.committed) n =
      replayWrites n (P.shared.mem n).content e.left := fun n hn => hE ▸ h.held t n (hE ▸ hn)
  obtain ⟨hleft, hleft', hcom, -, hsub, -⟩ | ⟨job, k, todo, locked, rfl, hk, hcase⟩ |
    ⟨job, k, ns, locked, rfl, rfl, -, -, rfl⟩ | ⟨job, locked, rfl, -, rfl⟩ |
    ⟨job, wv, w, ws, locked, rfl, rfl, rfl⟩ := h.kinds he hs
  · refine h.held_keep he hs hcom ?_ (fun n hn => ?_) fun n _ _ => hleft
    · cases e <;> first | rfl | simp [Ending.left] at hleft
    · rw [hheld n (hsub n hn), hleft, hleft']
  · -- the node that gets locked was free
    have hlocks : e'.left = [] ∧ e'.committed = false ∧ e'.held = k :: locked := by
      obtain ⟨k', ks, -, rfl⟩ | ⟨-, r, rs, -, rfl⟩ := hcase <;> exact ⟨rfl, rfl, rfl⟩
    obtain ⟨hleft, hcom, hhe⟩ := hlocks
    refine h.held_keep he hs hcom rfl (fun n hn => ?_) fun n _ _ => rfl
    rw [hleft]
    rw [hhe] at hn
    rcases List.mem_cons.1 hn with rfl | hn
    · refine (h.free n fun u hu => ?_).symm
      have hlock := h.orderly.locked u n hu
      rw [hk] at hlock
      exact absurd hlock Bool.false_ne_true
    · exact (hheld n hn).symm
  · cases ns with
    | cons k' ks =>
      exact h.held_keep he hs rfl rfl (fun n hn => (hheld n hn).symm) fun n hn hn' => absurd hn hn'
    | nil => exact h.held_commit he hs rfl rfl rfl
  · refine h.held_keep he hs (Ending.committed_writing _) rfl (fun n hn => ?_) fun n hn hn' => ?_
    · rw [Ending.held_writing] at hn
      rw [Ending.left_writing, hheld n hn]
      exact (job.replay_writes _ fun k => (P.shared.mem k).content).trans (job.replay_writes 0 _).symm
    · rw [Ending.held_writing] at hn'
      exact absurd hn hn'
  · exact h.held_write he hs rfl rfl rfl

/-- What a transaction has checked after a step: what it had checked, or the node of the step, which no
other transaction holds and which is as old as it should be. -/
theorem Inv.checked_step {n : NodeId} (hc : e'.Checked n) (ht : t ∈ P.order) :
    e.Checked n ∨ e.committed = false ∧ e.left = [] ∧ (P.shared.mem n).word.version ≤ P.readVersion t ∧
      ∀ u, n ∈ (P.ending u).held → u = t := by
  have hE := ending_of_stage he
  have hof : ∀ {e : Ending V m}, e.committed = true → e.Checked n := by
    intro e hce
    cases e <;> first | exact hce | simp [Ending.committed] at hce
  obtain ⟨-, -, hcom, hval, -⟩ | ⟨job, k, todo, locked, rfl, -⟩ |
    ⟨job, k, ns, locked, rfl, -, hlock, hv, rfl⟩ | ⟨job, locked, rfl, -⟩ | ⟨job, wv, w, ws, locked, rfl, -⟩ :=
    h.kinds he hs
  · refine .inl (hof (hcom ▸ ?_))
    cases e' <;> first | exact hc | simp [Ending.validating] at hval
  · obtain ⟨e₁, he₁, hlocking⟩ := h.past t ht
    rw [he] at he₁
    obtain rfl := Stage.ending.inj he₁
    simp [Ending.isLocking] at hlocking
  · by_cases hnk : n = k
    · subst hnk
      obtain rfl := h.job_eq he rfl
      refine .inr ⟨rfl, rfl, hv.trans_eq (by simp [readVersion, he]), fun u hu => ?_⟩
      rcases hlock with hmem | hfree
      · exact h.orderly.apart hu (by rw [hE]; exact hmem)
      · have hlocked := h.orderly.locked u n hu
        rw [hfree] at hlocked
        simp at hlocked
    · refine .inl fun hmem => ?_
      have hns : n ∈ ns := (List.mem_cons.1 hmem).resolve_left hnk
      cases ns with
      | nil => exact List.not_mem_nil hns
      | cons k' ks => exact hc hns
  · exact .inl rfl
  · exact .inl rfl

omit he hs [LinearOrder K] in
/-- A transaction that is checking holds its write set. -/
theorem Inv.held_of_validating {u : TxId} (hu : (P.ending u).validating = true) {n : NodeId}
    (hn : n ∈ (P.job u).keys) : n ∈ (P.ending u).held := by
  have hp := h.orderly.proper u
  have hj := h.theJob u
  rcases hEu : P.ending u with _ | ⟨job, k, ks, locked⟩ | _ | _ | _ | _ | _ | _ | _ | _ <;>
    rw [hEu] at hu hp hj <;> try simp [Ending.validating] at hu
  obtain rfl := hj job rfl
  rw [← hp.2.1] at hn
  exact List.mem_reverse.1 hn

theorem Inv.apart_after (l₁ : List TxId) (u : TxId) (l₂ : List TxId) (ho : P.goneOrder t e = l₁ ++ u :: l₂)
    (v : TxId) (hv : v ∈ l₁) (hval : (Function.update P.ending t e' v).validating = true) (n : NodeId)
    (hn : n ∈ (P.job u).readSet) (hc : (Function.update P.ending t e' u).Checked n) :
    n ∉ (P.job v).keys := by
  obtain ⟨rfl, -, hlast⟩ | ⟨l₃, ho', -⟩ := goneOrder_split ho
  · rw [Function.update_self] at hc
    exact absurd hc ((h.lastLock he hs hlast).2.2.2.2 n hn)
  have hnd := h.nodup
  rw [ho', List.nodup_middle, List.nodup_cons, List.mem_append, not_or] at hnd
  have huv : u ≠ v := fun huv => hnd.1.1 (huv ▸ hv)
  have hval' : (P.ending v).validating = true := by
    by_cases hvt : v = t
    · subst hvt
      rw [Function.update_self] at hval
      rw [ending_of_stage he]
      obtain ⟨-, -, -, hno, -⟩ | ⟨job, k, todo, locked, rfl, -⟩ | ⟨job, k, ns, locked, rfl, -⟩ |
        ⟨job, locked, rfl, -, rfl⟩ | ⟨job, wv, w, ws, locked, rfl, -, rfl⟩ := h.kinds he hs
      · rw [hno] at hval
        simp at hval
      · obtain ⟨e₁, he₁, hlocking⟩ := h.past v (by rw [ho']; simp [hv])
        rw [he] at he₁
        obtain rfl := Stage.ending.inj he₁
        simp [Ending.isLocking] at hlocking
      · rfl
      · rw [(Ending.writing_rest _).1] at hval
        simp at hval
      · rw [(Ending.writing_rest _).1] at hval
        simp at hval
    · rwa [Function.update_of_ne hvt] at hval
  by_cases hut : u = t
  · subst hut
    rw [Function.update_self] at hc
    rcases h.checked_step he hs hc (by rw [ho']; simp) with hce | ⟨-, -, -, hfree⟩
    · exact h.apart l₁ u l₃ ho' v hv hval' n hn (by rwa [ending_of_stage he])
    · exact fun hkey => huv (hfree v (h.held_of_validating hval' hkey)).symm
  · rw [Function.update_of_ne hut] at hc
    exact h.apart l₁ u l₃ ho' v hv hval' n hn hc

theorem Inv.replays_after (l₁ : List TxId) (u : TxId) (l₂ : List TxId)
    (ho : P.goneOrder t e = l₁ ++ u :: l₂) (x : NodeId × Content V) (hx : x ∈ P.reads u)
    (hn : x.1 ∈ (P.job u).readSet) (hc : (Function.update P.ending t e' u).Checked x.1) :
    P.replayed C (l₁.filter (Function.update P.committed t e'.committed)) x.1 = x.2 := by
  have hE := ending_of_stage he
  obtain ⟨rfl, -, hlast⟩ | ⟨l₃, ho', -⟩ := goneOrder_split ho
  · rw [Function.update_self] at hc
    exact absurd hc ((h.lastLock he hs hlast).2.2.2.2 _ hn)
  have hnd := h.nodup
  rw [ho', List.nodup_middle, List.nodup_cons, List.mem_append, not_or] at hnd
  have hsame : ∀ {l : List TxId}, t ∉ l →
      l.filter (Function.update P.committed t e'.committed) = l.filter P.committed := fun hl =>
    List.filter_congr fun v hv => Function.update_of_ne (show v ≠ t from fun hvt => hl (hvt ▸ hv)) _ _
  by_cases hut : u = t
  · subst hut
    rw [Function.update_self] at hc
    rw [hsame hnd.1.1]
    rcases h.checked_step he hs hc (by rw [ho']; simp) with hce | ⟨hcom, hleft, hv, hfree⟩
    · exact h.replays l₁ u l₃ ho' x hx hn (by rwa [hE])
    · -- the node has just been checked: it is as it was read, and no later commit has written it
      have hold : P.committed u = false := by rw [committed_eq, hE, hcom]
      have hnone : ∀ v, (∃ wv, .set x.1 (.setVersion wv) ∈ (P.ending v).left) → False := by
        rintro v ⟨wv, hw⟩
        obtain rfl := hfree v ((h.orderly.proper v).holds_left hw)
        rw [hE, hleft] at hw
        exact List.not_mem_nil hw
      have hread : x.2 = (P.shared.mem x.1).content := by
        rcases (h.reads u hold x hx).2 with heq | hlt | ⟨v, wv, hw⟩
        · exact heq
        · exact absurd hv (not_le.2 hlt)
        · refine (hnone v ⟨wv, ?_⟩).elim
          cases hEv : P.ending v <;> rw [hEv] at hw <;>
            first | exact hw | exact absurd hw List.not_mem_nil
      have hnow : P.replayed C (P.order.filter P.committed) x.1 = (P.shared.mem x.1).content := by
        by_cases hheld : x.1 ∈ (P.ending u).held
        · rw [h.held u _ hheld, hE, hleft]
          rfl
        · exact h.free _ fun v hv' => hheld (hfree v hv' ▸ hv')
      have hlater : ∀ v ∈ l₃.filter P.committed, x.1 ∉ (P.job v).keys := by
        intro v hv' hkey
        obtain ⟨hv', hcv⟩ := List.mem_filter.1 hv'
        rcases h.stamped l₁ u l₃ ho' v hv' hcv _ hkey with hlt | hw
        · exact absurd hv (not_le.2 hlt)
        · exact hnone v hw
      rw [hread, ← hnow, ho', List.filter_append, List.filter_cons_of_neg (by simp [hold]), replayed_append]
      exact (replayed_of_notMem _ hlater).symm
  · rw [Function.update_of_ne hut] at hc
    refine Eq.trans ?_ (h.replays l₁ u l₃ ho' x hx hn hc)
    by_cases htl : t ∈ l₁
    · by_cases hcom : e'.committed = e.committed
      · rw [hcom, ← hE, ← committed_eq, Function.update_eq_self]
      · -- an earlier transaction commits, which has not written the node
        have hval : (P.ending t).validating = true ∧ e.committed = false ∧ e'.committed = true := by
          rw [hE]
          obtain ⟨-, -, heq, -⟩ | ⟨job, k, todo, locked, rfl, -, ⟨k', ks, -, rfl⟩ | ⟨-, r, rs, -, rfl⟩⟩ |
            ⟨job, k, ns, locked, rfl, -, -, -, rfl⟩ | ⟨job, locked, rfl, -, rfl⟩ |
            ⟨job, wv, w, ws, locked, rfl, -, rfl⟩ := h.kinds he hs
          · exact absurd heq hcom
          · exact absurd rfl hcom
          · exact absurd rfl hcom
          · cases ns with
            | nil => exact ⟨rfl, rfl, Ending.committed_checking_nil⟩
            | cons k' ks => exact absurd rfl hcom
          · exact absurd (Ending.committed_writing _) hcom
          · exact absurd (Ending.committed_writing _) hcom
        obtain ⟨hval, hno, hyes⟩ := hval
        obtain ⟨a, b, rfl⟩ := List.append_of_mem htl
        have hndl := (hnd.2.of_append_left)
        rw [List.nodup_middle, List.nodup_cons, List.mem_append, not_or] at hndl
        have hold : P.committed t = false := by rw [committed_eq, hE, hno]
        rw [filter_split _ ((Function.update_self t _ _).trans hyes), hsame hndl.1.1, hsame hndl.1.2,
          List.filter_append, List.filter_cons_of_neg (by simp [hold])]
        exact replayed_insert _ _ (h.apart (a ++ t :: b) u l₃ ho' t (by simp) hval _ hn hc)
    · rw [hsame htl]

/-- A step of a `TXend`. -/
theorem Inv.go : (P.after t eff e' (P.goneOrder t e)).Inv C := by
  obtain ⟨horderly, hjob, hnodup, hpast, hlisted⟩ := h.basic he hs
  have hrv : (P.after t eff e' (P.goneOrder t e)).readVersion = P.readVersion := readVersion_after he
  have hE' : (P.after t eff e' (P.goneOrder t e)).ending = Function.update P.ending t e' := ending_after
  have hcom : (P.after t eff e' (P.goneOrder t e)).committed =
      Function.update P.committed t e'.committed := by
    funext u
    by_cases hut : u = t
    · rw [hut, committed_after_self, Function.update_self]
    · rw [committed_after_ne hut, Function.update_of_ne hut]
  obtain ⟨hheld, hfree⟩ := h.held_after he hs
  refine ⟨horderly, fun u => ?_, fun u e₁ he₁ => ?_, hjob, hnodup, hpast, hlisted, fun l₁ u l₂ ho v hv wv hd => ?_,
    fun l₁ u l₂ ho v hv hc n hn => ?_, fun u hc x hx => ?_, fun u n hn => ?_, fun n hn => ?_,
    fun l₁ u l₂ ho v hv hval n hn hc => ?_, fun l₁ u l₂ ho x hx hn hc => ?_⟩
  · rw [hrv]
    exact (h.begun u).trans Effect.gvc_le
  · rw [hrv]
    by_cases hut : u = t
    · subst hut
      exact h.suits u e he
    · exact h.suits u e₁ (by simpa [after, hut] using he₁)
  · rw [hrv]
    exact h.drawn_after he hs l₁ u l₂ ho v hv wv hd
  · rw [hrv]
    exact h.stamped_after he hs l₁ u l₂ ho v hv hc n hn
  · rw [hrv]
    exact h.reads_after he hs u hc x hx
  · rw [hE'] at hn ⊢
    rw [hcom]
    exact hheld u n hn
  · rw [hE'] at hn
    rw [hcom]
    exact hfree n hn
  · rw [hE'] at hval hc
    exact h.apart_after he hs l₁ u l₂ ho v hv hval n hn hc
  · rw [hE'] at hc
    rw [hcom]
    exact h.replays_after he hs l₁ u l₂ ho x hx hn hc

end Going

end After

section Outside

variable {C : NodeId → Content V} {P P' : Protocol K V m} {t : TxId}

/-- A transaction that is not in `TXend` begins or reads. -/
theorem Inv.aside (h : P.Inv C) (hshared : P'.shared = P.shared) (hE : P'.ending = P.ending)
    (hcom : P'.committed = P.committed) (horder : P'.order = P.order) (hjob : P'.job = P.job)
    (hstage : ∀ u e, P'.stage u = .ending e ↔ P.stage u = .ending e) (ht : t ∉ P.order)
    (hrv : ∀ u, u ≠ t → P'.readVersion u = P.readVersion u)
    (hreads : ∀ u, u ≠ t → P'.reads u = P.reads u) (hbegun : P'.readVersion t ≤ P.shared.gvc)
    (hnone : ∀ e, P.stage t ≠ .ending e)
    (hown : ∀ x ∈ P'.reads t, Settled P.ending x.1 (P'.readVersion t) ∧
      (x.2 = (P.shared.mem x.1).content ∨ P'.readVersion t < (P.shared.mem x.1).word.version ∨
        ∃ u wv, .set x.1 (.setVersion wv) ∈ (P.ending u).pending)) : P'.Inv C := by
  have hne : ∀ {l₁ u l₂}, P.order = l₁ ++ u :: l₂ → u ≠ t := fun ho hu => ht (by
    rw [ho, ← hu]
    simp)
  have hrep : P'.replayed C = P.replayed C := by
    funext ts
    exact replayed_of_job ts fun u _ => congrFun hjob u
  refine ⟨by rw [hshared, hE]; exact h.orderly, fun u => ?_, fun u e he => ?_, fun u job hj => ?_,
    horder ▸ h.nodup, fun u hu => ?_, fun u hu => ?_, fun l₁ u l₂ ho v hv wv hd => ?_,
    fun l₁ u l₂ ho v hv hc n hn => ?_, fun u hc x hx => ?_, fun u n hn => ?_, fun n hn => ?_,
    fun l₁ u l₂ ho v hv hval n hn hc => ?_, fun l₁ u l₂ ho x hx hn hc => ?_⟩
  · rw [hshared]
    by_cases hut : u = t
    · rwa [hut]
    · rw [hrv u hut]
      exact h.begun u
  · have hut : u ≠ t := fun hut => hnone e (hut ▸ (hstage u e).1 he)
    rw [hjob, hrv u hut]
    exact h.suits u e ((hstage u e).1 he)
  · rw [hjob]
    exact h.theJob u job (hE ▸ hj)
  · obtain ⟨e, he, hlock⟩ := h.past u (horder ▸ hu)
    exact ⟨e, (hstage u e).2 he, hlock⟩
  · rw [hE, hcom] at hu
    exact horder ▸ h.listed u hu
  · rw [horder] at ho
    rw [hrv u (hne ho)]
    exact h.drawn l₁ u l₂ ho v hv wv (hE ▸ hd)
  · rw [horder] at ho
    rw [hrv u (hne ho), hshared, hE]
    exact h.stamped l₁ u l₂ ho v hv (hcom ▸ hc) n (hjob ▸ hn)
  · rw [hE, hshared]
    by_cases hut : u = t
    · subst hut
      exact hown x hx
    · rw [hrv u hut]
      exact h.reads u (hcom ▸ hc) x (hreads u hut ▸ hx)
  · rw [hrep, horder, hcom, hshared, hE]
    exact h.held u n (hE ▸ hn)
  · rw [hrep, horder, hcom, hshared]
    exact h.free n (hE ▸ hn)
  · rw [hjob]
    rw [horder] at ho
    exact h.apart l₁ u l₂ ho v hv (hE ▸ hval) n (hjob ▸ hn) (hE ▸ hc)
  · rw [hrep, hcom]
    rw [horder] at ho
    exact h.replays l₁ u l₂ ho x (hreads u (hne ho) ▸ hx) (hjob ▸ hn) (hE ▸ hc)

theorem Inv.begins (h : P.Inv C) (hst : P.stage t = .waiting) : Inv C { P with
    stage := Function.update P.stage t (.running P.shared.gvc)
    reads := Function.update P.reads t [] } := by
  refine h.aside (t := t) rfl (funext fun u => ?_) (funext fun u => ?_) rfl rfl (fun u e => ?_)
    (h.notMem_of_stage fun e he => by simp [hst] at he) (fun u hu => ?_) (fun u hu => ?_) ?_
    (fun e he => by simp [hst] at he) fun x hx => by simp at hx
  · by_cases hu : u = t
    · subst hu
      simp [ending, hst]
    · simp [ending, hu]
  · by_cases hu : u = t
    · subst hu
      simp [committed, hst]
    · simp [committed, hu]
  · by_cases hu : u = t
    · subst hu
      simp [hst]
    · simp [hu]
  · simp [readVersion, hu]
  · simp [hu]
  · simp [readVersion]

theorem Inv.read (h : P.Inv C) {rv : Nat} (hst : P.stage t = .running rv) {n : NodeId}
    (hlock : (P.shared.mem n).isLocked = false) : Inv C { P with
    reads := Function.update P.reads t ((n, (P.shared.mem n).content) :: P.reads t) } := by
  refine h.aside (t := t) rfl rfl rfl rfl rfl (fun u e => Iff.rfl)
    (h.notMem_of_stage fun e he => by simp [hst] at he) (fun u _ => rfl) (fun u hu => by simp [hu])
    (h.begun t) (fun e he => by simp [hst] at he) fun x hx => ?_
  simp only [Function.update_self] at hx
  rcases List.mem_cons.1 hx with rfl | hx
  · exact ⟨h.orderly.settled_of_unlocked hlock _, .inl rfl⟩
  · exact h.reads t (by simp [committed, hst]) x hx

end Outside

/-- The state after transaction `t` has called `TXend`. -/
def entered (P : Protocol K V m) (t : TxId) (job : Job V m) : Protocol K V m :=
  { P with
    stage := Function.update P.stage t (.ending (.start job))
    job := Function.update P.job t job
    order := if job.writeSet.isEmpty then P.order ++ [t] else P.order }

section Entered

variable {C : NodeId → Content V} {P : Protocol K V m} {t u : TxId} {job : Job V m} {rv : Nat}

theorem ending_entered : (P.entered t job).ending = Function.update P.ending t (.start job) := by
  funext u
  by_cases hut : u = t
  · subst hut
    simp [ending, entered]
  · simp [ending, entered, hut]

theorem committed_entered_ne (hut : u ≠ t) : (P.entered t job).committed u = P.committed u := by
  simp [committed, entered, hut]

theorem committed_entered_self : (P.entered t job).committed t = (Ending.start job).committed := by
  simp [committed, entered]

theorem job_entered_ne (hut : u ≠ t) : (P.entered t job).job u = P.job u := Function.update_of_ne hut _ _

theorem job_entered_self : (P.entered t job).job t = job := Function.update_self ..

theorem mem_entered : u ∈ (P.entered t job).order ↔ u ∈ P.order ∨ u = t ∧ job.writeSet.isEmpty = true := by
  unfold entered
  dsimp only
  split_ifs with hw <;> simp [hw]

theorem entered_split {l₁ l₂ : List TxId} (ho : (P.entered t job).order = l₁ ++ u :: l₂) :
    (u = t ∧ l₂ = [] ∧ job.writeSet.isEmpty = true) ∨
      ∃ l₃, P.order = l₁ ++ u :: l₃ ∧ ∀ v ∈ l₂, v ∈ l₃ ∨ v = t ∧ job.writeSet.isEmpty = true :=
  extend_split ho

theorem replayed_entered {l : List TxId} (hl : t ∉ l) :
    (P.entered t job).replayed C (l.filter (P.entered t job).committed) =
      P.replayed C (l.filter P.committed) := by
  have hlt : ∀ u ∈ l, u ≠ t := fun u hu hut => hl (hut ▸ hu)
  rw [List.filter_congr fun u hu => committed_entered_ne (hlt u hu)]
  exact replayed_of_job _ fun u hu => job_entered_ne (hlt u (List.mem_filter.1 hu).1)

/-- With an empty write set the commit changes nothing. -/
theorem now_entered (ht : t ∉ P.order) (n : NodeId) :
    (P.entered t job).replayed C ((P.entered t job).order.filter (P.entered t job).committed) n =
      P.replayed C (P.order.filter P.committed) n := by
  have horder : (P.entered t job).order = if job.writeSet.isEmpty then P.order ++ [t] else P.order := rfl
  have hrep : (P.entered t job).replayed C (P.order.filter (P.entered t job).committed) =
      P.replayed C (P.order.filter P.committed) := replayed_entered ht
  rw [← hrep, horder]
  split_ifs with hw
  · have hnil : n ∉ ((P.entered t job).job t).keys := by
      rw [job_entered_self]
      unfold Job.keys
      rw [List.isEmpty_iff.1 hw]
      exact List.not_mem_nil
    rw [List.filter_append, List.filter_singleton]
    cases (P.entered t job).committed t
    · rw [cond_false, List.append_nil]
    · rw [cond_true]
      exact (replayed_insert _ [] hnil).trans (by rw [List.append_nil])
  · rfl

theorem readVersion_entered (hst : P.stage t = .running rv) (hrv : job.readVersion = rv) :
    (P.entered t job).readVersion = P.readVersion := by
  funext u
  by_cases hut : u = t
  · subst hut
    simp [entered, readVersion, hst, hrv]
  · simp [entered, readVersion, hut]

/-- What follows another in the new order followed it before, or is the transaction itself. -/
theorem entered_follows {l₁ l₂ : List TxId} {v : TxId}
    (ho : (P.entered t job).order = l₁ ++ u :: l₂) (hv : v ∈ l₂) :
    ∃ l₃, P.order = l₁ ++ u :: l₃ ∧ (v ∈ l₃ ∨ v = t ∧ job.writeSet.isEmpty = true) := by
  obtain ⟨-, rfl, -⟩ | ⟨l₃, ho', hmem⟩ := entered_split ho
  · exact absurd hv List.not_mem_nil
  · exact ⟨l₃, ho', hmem v hv⟩

section

variable (h : P.Inv C) (hst : P.stage t = .running rv)
include h hst

theorem Inv.not_started : t ∉ P.order := h.notMem_of_stage fun e he => by simp [hst] at he

theorem Inv.entered_nodup : (P.entered t job).order.Nodup := by
  unfold entered
  dsimp only
  split_ifs
  · exact List.nodup_append.2 ⟨h.nodup, List.nodup_singleton t, fun a ha b hb hab =>
      h.not_started hst (by rwa [hab, List.mem_singleton.1 hb] at ha)⟩
  · exact h.nodup

/-- The start of a `TXend` changes no content, and no lock is taken yet. -/
theorem Inv.entered_owed : Owed
    ((P.entered t job).replayed C ((P.entered t job).order.filter (P.entered t job).committed))
    P.shared (P.entered t job).ending := by
  rw [ending_entered]
  have hheld : (P.ending t).held = [] := by simp [ending, hst, Ending.held]
  refine h.owed.step rfl (fun u _ n _ => by simp [hheld]) (fun n hn => ?_) (fun n hn => ?_)
    fun n _ => ⟨now_entered (h.not_started hst) n, rfl⟩
  · rw [Ending.held_start] at hn
    exact absurd hn List.not_mem_nil
  · rw [hheld] at hn
    exact absurd hn List.not_mem_nil

variable (hsuits : job.Suits rv)
include hsuits

theorem Inv.entered_suits (u : TxId) (e : Ending V m)
    (he : (P.entered t job).stage u = .ending e) :
    ((P.entered t job).job u).Suits ((P.entered t job).readVersion u) := by
  rw [readVersion_entered hst hsuits.2.1]
  by_cases hut : u = t
  · subst hut
    rw [job_entered_self]
    simpa [readVersion, hst] using hsuits
  · rw [job_entered_ne hut]
    exact h.suits u e (by simpa [entered, hut] using he)

theorem Inv.entered_theJob (u : TxId) (job' : Job V m)
    (hj : ((P.entered t job).ending u).theJob = some job') : job' = (P.entered t job).job u := by
  rw [ending_entered] at hj
  by_cases hut : u = t
  · subst hut
    rw [Function.update_self, Ending.start, if_pos hsuits.1] at hj
    rw [job_entered_self]
    exact Ending.theJob_locking hj
  · rw [Function.update_of_ne hut] at hj
    rw [job_entered_ne hut]
    exact h.theJob u job' hj

theorem Inv.entered_past (u : TxId) (hu : u ∈ (P.entered t job).order) :
    ∃ e, (P.entered t job).stage u = .ending e ∧ e.isLocking = false := by
  by_cases hut : u = t
  · subst hut
    obtain ⟨-, hw⟩ := (mem_entered.1 hu).resolve_left (h.not_started hst)
    exact ⟨.start job, by simp [entered], (Ending.start_rest hsuits.1).2.1.2 hw⟩
  · obtain ⟨e, he, hl⟩ := h.past u ((mem_entered.1 hu).resolve_right fun hu => hut hu.1)
    exact ⟨e, by simpa [entered, hut] using he, hl⟩

theorem Inv.entered_listed (u : TxId)
    (hu : ((P.entered t job).ending u).validating = true ∨ (P.entered t job).committed u = true) :
    u ∈ (P.entered t job).order := by
  rw [mem_entered]
  rw [ending_entered] at hu
  by_cases hut : u = t
  · subst hut
    obtain ⟨hlock, hiff, -⟩ := Ending.start_rest hsuits.1
    rw [Function.update_self, committed_entered_self] at hu
    refine .inr ⟨rfl, hiff.1 (hlock.resolve_right ?_)⟩
    rintro ⟨hc, hv⟩
    rw [hc, hv] at hu
    simp at hu
  · rw [Function.update_of_ne hut, committed_entered_ne hut] at hu
    exact .inl (h.listed u hu)

theorem Inv.entered_drawn (l₁ : List TxId) (u : TxId) (l₂ : List TxId)
    (ho : (P.entered t job).order = l₁ ++ u :: l₂) (v : TxId) (hv : v ∈ l₂) (wv : Nat)
    (hd : ((P.entered t job).ending v).drawn = some wv) :
    (P.entered t job).readVersion u < wv := by
  obtain ⟨l₃, ho', hv'⟩ := entered_follows ho hv
  rw [readVersion_entered hst hsuits.2.1]
  rw [ending_entered] at hd
  by_cases hvt : v = t
  · rw [hvt, Function.update_self, Ending.drawn_of_pending (Ending.pending_start job)] at hd
    simp at hd
  · rw [Function.update_of_ne hvt] at hd
    exact h.drawn l₁ u l₃ ho' v (hv'.resolve_right fun hv => hvt hv.1) wv hd

theorem Inv.entered_stamped (l₁ : List TxId) (u : TxId) (l₂ : List TxId)
    (ho : (P.entered t job).order = l₁ ++ u :: l₂) (v : TxId) (hv : v ∈ l₂)
    (hc : (P.entered t job).committed v = true) (n : NodeId)
    (hn : n ∈ ((P.entered t job).job v).keys) :
    (P.entered t job).readVersion u < (P.shared.mem n).word.version ∨
      ∃ wv, .set n (.setVersion wv) ∈ ((P.entered t job).ending v).left := by
  obtain ⟨l₃, ho', hv'⟩ := entered_follows ho hv
  rw [readVersion_entered hst hsuits.2.1, ending_entered]
  by_cases hvt : v = t
  · -- it would be in the order only with an empty write set
    subst hvt
    obtain ⟨-, hw⟩ := hv'.resolve_left fun hv => h.not_started hst (by rw [ho']; simp [hv])
    rw [job_entered_self, Job.keys, List.isEmpty_iff.1 hw] at hn
    exact absurd hn List.not_mem_nil
  · rw [Function.update_of_ne hvt]
    rw [job_entered_ne hvt] at hn
    rw [committed_entered_ne hvt] at hc
    exact h.stamped l₁ u l₃ ho' v (hv'.resolve_right fun hv => hvt hv.1) hc n hn

theorem Inv.entered_reads (u : TxId) (hc : (P.entered t job).committed u = false)
    (x : NodeId × Content V) (hx : x ∈ P.reads u) :
    Settled (P.entered t job).ending x.1 ((P.entered t job).readVersion u) ∧
      (x.2 = (P.shared.mem x.1).content ∨
        (P.entered t job).readVersion u < (P.shared.mem x.1).word.version ∨
        ∃ v wv, .set x.1 (.setVersion wv) ∈ ((P.entered t job).ending v).pending) := by
  have hc' : P.committed u = false := by
    by_cases hut : u = t
    · simp [hut, committed, hst]
    · rwa [committed_entered_ne hut] at hc
  obtain ⟨hset, hread⟩ := h.reads u hc' x hx
  rw [readVersion_entered hst hsuits.2.1, ending_entered]
  refine ⟨hset.update (Ending.drawn_of_pending (Ending.pending_start job)),
    hread.imp id (Or.imp id ?_)⟩
  rintro ⟨v, wv, hw⟩
  refine ⟨v, wv, ?_⟩
  have hvt : v ≠ t := by
    rintro rfl
    simp [ending, hst, Ending.pending] at hw
  rwa [Function.update_of_ne hvt]

/-- Where something of a read set has been checked, the transaction is not there yet. -/
theorem Inv.entered_checked {l₁ l₂ : List TxId} {n : NodeId}
    (ho : (P.entered t job).order = l₁ ++ u :: l₂) (hn : n ∈ ((P.entered t job).job u).readSet)
    (hc : ((P.entered t job).ending u).Checked n) :
    (∃ l₃, P.order = l₁ ++ u :: l₃) ∧ u ≠ t ∧ t ∉ l₁ := by
  have hut : u ≠ t := by
    rintro rfl
    rw [job_entered_self] at hn
    rw [ending_entered, Function.update_self] at hc
    exact (Ending.start_rest hsuits.1).2.2.2 n hn hc
  obtain ⟨rfl, -⟩ | ⟨l₃, ho', -⟩ := entered_split ho
  · exact absurd rfl hut
  · exact ⟨⟨l₃, ho'⟩, hut, fun ht => h.not_started hst (by rw [ho']; simp [ht])⟩

theorem Inv.entered_apart (l₁ : List TxId) (u : TxId) (l₂ : List TxId)
    (ho : (P.entered t job).order = l₁ ++ u :: l₂) (v : TxId) (hv : v ∈ l₁)
    (hval : ((P.entered t job).ending v).validating = true) (n : NodeId)
    (hn : n ∈ ((P.entered t job).job u).readSet) (hc : ((P.entered t job).ending u).Checked n) :
    n ∉ ((P.entered t job).job v).keys := by
  obtain ⟨⟨l₃, ho'⟩, hut, htl⟩ := h.entered_checked hst hsuits ho hn hc
  have hvt : v ≠ t := fun hvt => htl (hvt ▸ hv)
  rw [ending_entered] at hval hc
  rw [Function.update_of_ne hvt] at hval
  rw [Function.update_of_ne hut] at hc
  rw [job_entered_ne hut] at hn
  rw [job_entered_ne hvt]
  exact h.apart l₁ u l₃ ho' v hv hval n hn hc

theorem Inv.entered_replays (l₁ : List TxId) (u : TxId) (l₂ : List TxId)
    (ho : (P.entered t job).order = l₁ ++ u :: l₂) (x : NodeId × Content V) (hx : x ∈ P.reads u)
    (hn : x.1 ∈ ((P.entered t job).job u).readSet)
    (hc : ((P.entered t job).ending u).Checked x.1) :
    (P.entered t job).replayed C (l₁.filter (P.entered t job).committed) x.1 = x.2 := by
  obtain ⟨⟨l₃, ho'⟩, hut, htl⟩ := h.entered_checked hst hsuits ho hn hc
  rw [ending_entered, Function.update_of_ne hut] at hc
  rw [job_entered_ne hut] at hn
  rw [replayed_entered htl]
  exact h.replays l₁ u l₃ ho' x hx hn hc

/-- A transaction starts its `TXend`. -/
theorem Inv.ends : (P.entered t job).Inv C where
  orderly := by
    rw [ending_entered]
    exact h.orderly.update (Ending.proper_start hsuits.2.2.1) (Ending.held_start job)
      (Ending.drawn_of_pending (Ending.pending_start job))
  begun u := by
    rw [readVersion_entered hst hsuits.2.1]
    exact h.begun u
  suits := h.entered_suits hst hsuits
  theJob := h.entered_theJob hst hsuits
  nodup := h.entered_nodup hst
  past := h.entered_past hst hsuits
  listed := h.entered_listed hst hsuits
  drawn := h.entered_drawn hst hsuits
  stamped := h.entered_stamped hst hsuits
  reads := h.entered_reads hst hsuits
  held := (h.entered_owed hst).1
  free := (h.entered_owed hst).2
  apart := h.entered_apart hst hsuits
  replays := h.entered_replays hst hsuits

end

end Entered

section Runs

variable [LinearOrder K] {C : NodeId → Content V} {P P' : Protocol K V m} {t : TxId} {a : TxStep V m}

theorem Inv.step (h : P.Inv C) (hs : P.next t a = some P') : P'.Inv C := by
  cases a with
  | txBegin =>
    rcases hst : P.stage t with _ | rv | e <;> simp only [next, hst] at hs <;> cases hs
    exact h.begins hst
  | read n =>
    rcases hst : P.stage t with _ | rv | e <;> simp only [next, hst] at hs
    · cases hs
    · rw [Option.ite_none_right_eq_some] at hs
      obtain ⟨⟨hlock, -⟩, hs⟩ := hs
      obtain rfl := Option.some.inj hs
      exact h.read hst hlock
    · cases hs
  | txEnd job =>
    rcases hst : P.stage t with _ | rv | e <;> simp only [next, hst] at hs
    · cases hs
    · rw [Option.ite_none_right_eq_some] at hs
      obtain ⟨hsuits, hs⟩ := hs
      obtain rfl := Option.some.inj hs
      exact h.ends hst hsuits
    · cases hs
  | go p =>
    rcases hst : P.stage t with _ | rv | e <;> simp only [next, hst] at hs
    · cases hs
    · cases hs
    · obtain ⟨⟨eff, e'⟩, hstep, rfl⟩ := Option.map_eq_some_iff.1 hs
      exact h.go hst hstep

theorem Reach.inv {s : Shared K V m} (hv : ∀ n, (s.mem n).getVersion ≤ s.gvc) (hr : Reach s P) :
    P.Inv fun n => (s.mem n).content := by
  induction hr with
  | start => exact inv_start s hv
  | step _ hs ih => exact ih.step hs

omit [LinearOrder K] in
/-- A transaction that commits has checked all of its read set. -/
theorem checked_of_committed {n : NodeId} (hc : P.committed t = true) : (P.ending t).Checked n := by
  rw [committed_eq] at hc
  cases hE : P.ending t <;> rw [hE] at hc <;> first | exact hc | simp [Ending.committed] at hc

omit [LinearOrder K] in
theorem Inv.replays_of_split (h : P.Inv C) : ∀ l₂ l₁ : List TxId, P.order = l₁ ++ l₂ →
    P.Replays (P.replayed C (l₁.filter P.committed)) (l₂.filter P.committed)
  | [], _, _ => trivial
  | t :: l₂, l₁, ho => by
    have ih := h.replays_of_split l₂ (l₁ ++ [t]) (by simp [ho])
    rw [List.filter_append, List.filter_singleton] at ih
    rw [List.filter_cons]
    rcases hc : P.committed t with _ | _ <;> rw [hc] at ih
    · simpa using ih
    · rw [cond_true, replayed_append] at ih
      rw [if_pos rfl]
      exact ⟨fun x hx hn => h.replays l₁ t l₂ ho x hx hn (checked_of_committed hc), ih⟩

/-- The committed transactions, in the order in which their lock phases finished, can be replayed one
after another: each finds in its read set what it has read. -/
theorem Reach.serializes {s : Shared K V m} (hv : ∀ n, (s.mem n).getVersion ≤ s.gvc) (hr : Reach s P) :
    (∀ t, P.committed t = true → t ∈ P.order) ∧ P.order.Nodup ∧
      P.Replays (fun n => (s.mem n).content) (P.order.filter P.committed) :=
  ⟨fun t hc => (hr.inv hv).listed t (.inr hc), (hr.inv hv).nodup,
    (hr.inv hv).replays_of_split P.order [] rfl⟩

/-- Take steps in turn. -/
def play (P : Protocol K V m) : List (TxId × TxStep V m) → Option (Protocol K V m)
  | [] => some P
  | (t, a) :: as => (P.next t a).bind fun P' => P'.play as

theorem Reach.play {s : Shared K V m} : ∀ {as : List (TxId × TxStep V m)} {P P' : Protocol K V m},
    Reach s P → P.play as = some P' → Reach s P'
  | [], P, P', hr, h => by
    obtain rfl : P = P' := by simpa [Protocol.play] using h
    exact hr
  | (t, a) :: as, P, P', hr, h => by
    obtain ⟨P₁, hn, h⟩ := Option.bind_eq_some_iff.1 h
    exact Reach.play (hr.step hn) h

/-- One transaction writes the head, another one has read it before and checks it while it is not locked
yet, and a third one reads it afterwards. -/
theorem serializes_three : ∃ P : Protocol Nat Nat 1, Reach (Sys.init 0 0).shared P ∧
    P.order.filter P.committed = [1, 0, 2] ∧ (P.reads 2 = [(0, ⟨none, some 7, false⟩)]) ∧
    P.Replays (fun n => ((Sys.init 0 0 : Sys Nat Nat 1).shared.mem n).content) [1, 0, 2] := by
  have h : ((start (Sys.init 0 0).shared : Protocol Nat Nat 1).play ([(0, .txBegin), (1, .txBegin),
      (0, .read 0), (1, .read 0), (0, .txEnd ⟨true, false, 0, [(0, ⟨none, some 7, false⟩)], [0], [], []⟩),
      (1, .txEnd ⟨true, true, 0, [], [0], [], []⟩), (1, .go {})] ++ List.replicate 8 (0, .go {}) ++
      [(2, .txBegin), (2, .read 0), (2, .txEnd ⟨true, true, 1, [], [0], [], []⟩), (2, .go {})])).any
        (fun P : Protocol Nat Nat 1 => decide (P.order.filter P.committed = [1, 0, 2] ∧
          P.reads 2 = [(0, ⟨none, some 7, false⟩)])) = true := by
    decide +kernel
  obtain ⟨P, hP, hdec⟩ := Option.any_eq_true _ _ |>.1 h
  obtain ⟨horder, hreads⟩ := of_decide_eq_true hdec
  have hr : Reach (Sys.init 0 0).shared P := Reach.start.play hP
  exact ⟨P, hr, horder, hreads, horder ▸ (hr.serializes fun _ => le_rfl).2.2⟩

end Runs

end Protocol

end TxList
