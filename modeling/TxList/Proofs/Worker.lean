import TxList.Worker
import TxList.Proofs.Serial
import TxList.Proofs.FiniteMap
import TxList.Proofs.Leaks
import Mathlib.Tactic.Ring

/-!
# The benchmark's sizes add up

A committed operation changes the number of keys by what its result says: a `put` that returned
nothing adds one, a `remove` that returned a value takes one away. The workers count these, in each
transaction for itself, and keep the counts of the transactions that commit.
-/

namespace TxList

open Prog

variable {K V : Type} {m : Nat} {l : ListId m}

/-- The keys a list has. -/
def Maps.keys (M : Maps K V m) (l : ListId m) : Set K := {key | (M l key).isSome = true}

/-- A `put` on the list that found nothing. -/
def Rec.inserted (l : ListId m) : Rec K V m → Int
  | .put l' _ _ none => if l' = l then 1 else 0
  | .put _ _ _ (some _) | .remove _ _ _ | .get _ _ _ | .containsKey _ _ _ => 0

/-- A `remove` on the list that found a value. -/
def Rec.removed (l : ListId m) : Rec K V m → Int
  | .remove l' _ (some _) => if l' = l then 1 else 0
  | .remove _ _ none | .put _ _ _ _ | .get _ _ _ | .containsKey _ _ _ => 0

def insertions (l : ListId m) (rs : List (Rec K V m)) : Int := (rs.map (Rec.inserted l)).sum

def removals (l : ListId m) (rs : List (Rec K V m)) : Int := (rs.map (Rec.removed l)).sum

@[simp] theorem insertions_nil : insertions l ([] : List (Rec K V m)) = 0 := rfl

@[simp] theorem removals_nil : removals l ([] : List (Rec K V m)) = 0 := rfl

@[simp] theorem insertions_append (rs rs' : List (Rec K V m)) :
    insertions l (rs ++ rs') = insertions l rs + insertions l rs' := by
  simp [insertions]

@[simp] theorem removals_append (rs rs' : List (Rec K V m)) :
    removals l (rs ++ rs') = removals l rs + removals l rs' := by
  simp [removals]

@[simp] theorem insertions_singleton (r : Rec K V m) : insertions l [r] = r.inserted l := by
  simp [insertions]

@[simp] theorem removals_singleton (r : Rec K V m) : removals l [r] = r.removed l := by
  simp [removals]

section Keys

variable [LinearOrder K] {M : Maps K V m} {l' : ListId m} {key : K}

theorem Maps.keys_set_some (M : Maps K V m) (key : K) (val : V) :
    (M.set l key (some val)).keys l = insert key (M.keys l) := by
  ext k
  by_cases hk : k = key <;> simp [keys, set, hk]

theorem Maps.keys_set_none (M : Maps K V m) (key : K) :
    (M.set l key none).keys l = M.keys l \ {key} := by
  ext k
  by_cases hk : k = key <;> simp [keys, set, hk]

theorem Maps.keys_set_ne (M : Maps K V m) (key : K) (o : Option V) (h : l' ≠ l) :
    (M.set l' key o).keys l = M.keys l := by
  simp [keys, set, h.symm]

/-- One operation changes the number of keys by what its result says. -/
theorem Maps.ncard_apply (hf : (M.keys l).Finite) {r : Rec K V m} (hr : r.Sound (M r.list r.key)) :
    ((M.apply r).keys l).Finite ∧
      (((M.apply r).keys l).ncard : Int) = (M.keys l).ncard + r.inserted l - r.removed l := by
  cases r with
  | put l' key val ret =>
    have hret : ret.isSome = (M l' key).isSome := hr
    rw [apply]
    by_cases hl : l' = l
    · subst hl
      rw [keys_set_some]
      refine ⟨hf.insert _, ?_⟩
      cases ret with
      | none =>
        have hkey : key ∉ M.keys l' := by simp [keys, ← hret]
        simp [Set.ncard_insert_of_notMem hkey hf, Rec.inserted, Rec.removed]
      | some v =>
        have hkey : key ∈ M.keys l' := by simp [keys, ← hret]
        simp [Set.ncard_insert_of_mem hkey, Rec.inserted, Rec.removed]
    · rw [keys_set_ne _ _ _ hl]
      refine ⟨hf, ?_⟩
      cases ret <;> simp [Rec.inserted, Rec.removed, hl]
  | remove l' key ret =>
    have hret : ret = M l' key := hr
    rw [apply]
    by_cases hl : l' = l
    · subst hl
      rw [keys_set_none]
      refine ⟨hf.sdiff, ?_⟩
      cases ret with
      | none =>
        have hkey : key ∉ M.keys l' := by simp [keys, ← hret]
        simp [Set.sdiff_singleton_eq_self hkey, Rec.inserted, Rec.removed]
      | some v =>
        have hkey : key ∈ M.keys l' := by simp [keys, ← hret]
        have hcard := Set.ncard_sdiff_singleton_add_one hkey hf
        simp only [Rec.inserted, Rec.removed, if_true]
        omega
    · rw [keys_set_ne _ _ _ hl]
      refine ⟨hf, ?_⟩
      cases ret <;> simp [Rec.inserted, Rec.removed, hl]
  | get | containsKey => exact ⟨hf, by simp [apply, Rec.inserted, Rec.removed]⟩

theorem Maps.ncard_replay : ∀ {rs : List (Rec K V m)} {M : Maps K V m}, (M.keys l).Finite →
    M.All Rec.Sound rs → ((M.replay rs).keys l).Finite ∧
      (((M.replay rs).keys l).ncard : Int) = (M.keys l).ncard + insertions l rs - removals l rs
  | [], M, hf, _ => ⟨hf, by simp [replay]⟩
  | r :: rs, M, hf, hs => by
    obtain ⟨hf', hcard⟩ := ncard_apply hf hs.1
    obtain ⟨hf'', hcard'⟩ := ncard_replay hf' hs.2
    refine ⟨hf'', ?_⟩
    rw [replay_cons, hcard', hcard]
    simp only [insertions, removals, List.map_cons, List.sum_cons]
    ring

end Keys

/-! ## What a call of a transaction does to the history -/

section Steps

variable [LinearOrder K] {C C' : Conf K V m} {t u : ThreadId} {op : Op K V m} {ret : Ret V}
  {minKey : K} {dflt : V}

theorem Conf.Step.hist_eq (hst : C.Step t op ret C') :
    C'.hist = C.hist.step t (C.inTX t) op ret := by
  obtain ⟨-, -, -, h⟩ := hst
  exact h

/-- `TXbegin` opens an empty transaction. -/
theorem Conf.Step.begins (hst : C.Step t .txBegin ret C') :
    ret = .unit ∧ C'.inTX t = true ∧ C'.hist.current t = [] := by
  have hh := hst.hist_eq
  obtain ⟨ch, -, hs, -⟩ := hst
  obtain ⟨c, he, hc⟩ := Sys.step_of_ends (P := fun _ => False)
    (Q := fun r c => r = .unit ∧ c.transaction.TX = true) (by
      simp [call, TXbegin, getVersion, modifyTransaction]) hs
  obtain ⟨rfl, hT⟩ := hc.resolve_right And.right
  refine ⟨rfl, by simpa [Conf.inTX, he] using hT, ?_⟩
  simp [hh, Hist.step]

/-- `handle_abort` returns. -/
theorem Conf.Step.handled (hst : C.Step t .handleAbort ret C') : ret = .unit := by
  obtain ⟨ch, -, hs, -⟩ := hst
  obtain ⟨c, he, hc⟩ := Sys.step_of_ends (P := fun _ => False) (Q := fun ret _ => ret = .unit) (by
    simp only [call, Ends_bind, Ends_pure]
    exact handle_abort_ends fun _ => trivial) hs
  exact hc.resolve_right And.right

/-- A list operation that returns returns what a record of it can hold. -/
theorem Conf.Step.recorded (hst : C.Step t op ret C') (hop : op.isAccess = true)
    (hret : ret ≠ .aborted) : ∃ r, Rec.of? op ret = some r := by
  obtain ⟨ch, -, hs, -⟩ := hst
  have hends : Ends (call ch op) (C.sys.ctx t) (fun ret _ => ∃ r, Rec.of? op ret = some r)
      (OnAbort fun _ => True) := by
    have htrue : ∀ (e : Err) (c : Ctx K V m), OnAbort (fun _ => True) e c := fun e _ => by
      cases e <;> trivial
    cases op <;> simp only [Op.isAccess, Bool.false_eq_true] at hop <;>
      simp only [call, Ends_bind, Ends_pure] <;> exact .of_forall (fun _ _ => ⟨_, rfl⟩) htrue
  obtain ⟨c, -, hc⟩ := Sys.step_of_ends hends hs
  exact hc.resolve_right fun h => hret h.1

/-- A list operation of a transaction is added to what the transaction did so far. -/
theorem Conf.Step.records (hst : C.Step t op ret C') (hop : op.isAccess = true)
    (hT : C.inTX t = true) (hret : ret ≠ .aborted) : ∃ r, Rec.of? op ret = some r ∧
      C'.inTX t = true ∧ C'.hist.current t = C.hist.current t ++ [r] := by
  obtain ⟨r, hr⟩ := hst.recorded hop hret
  refine ⟨r, hr, (hst.accessed hop hT).2 hret, ?_⟩
  rw [hst.hist_eq, hT]
  cases op <;> simp_all [Op.isAccess, Hist.step]

/-- Whatever becomes of it, the transaction is closed. -/
theorem Conf.Step.closes (hst : C.Step t op ret C') (hs : C.sys.Sane)
    (hop : op = .txEnd ∨ op = .handleAbort) : C'.inTX t = false := by
  obtain ⟨ch, ho, hstep, -⟩ := hst
  have hends : Ends (call ch op) (C.sys.ctx t) (fun _ c => c.transaction.TX = false)
      (OnAbort fun c => c.transaction.TX = false) := by
    rcases hop with rfl | rfl
    · simp only [call, Ends_bind, Ends_pure]
      refine TXend_ends (ho rfl) (fun _ _ _ => ?_) (fun _ _ _ => rfl) (fun _ => rfl)
        (fun _ _ _ _ _ _ => rfl) (fun _ _ _ _ _ _ _ => trivial) fun _ _ => trivial
      exact (updateIndex_onward (commit_onward (hs t))).mono (fun _ _ _ => rfl)
        fun _ _ he => he.mono False.elim
    · simp only [call, Ends_bind, Ends_pure]
      exact handle_abort_ends fun _ => rfl
  obtain ⟨c, he, hc⟩ := Sys.step_of_ends hends hstep
  have hF : c.transaction.TX = false := hc.elim id And.right
  simpa [Conf.inTX, he] using hF

end Steps

/-! ## What a worker's counters say -/

section Workers

variable [LinearOrder K] {C C' : Conf K V m} {t u : ThreadId} {op : Op K V m} {ret : Ret V}
  {w : Worker K V} {task : Task K V} {rest : List (Task K V)}

/-- The counters of the open transaction are those of its calls so far. -/
structure Worker.Counts (l : ListId m) (w : Worker K V) (C : Conf K V m) (t : ThreadId) : Prop where
  inTX : C.inTX t = true
  ops : 0 ≤ w.ops_in_tx
  inserts : w.inserts_occurred_in_tx = insertions l (C.hist.current t)
  removes : w.removes_occurred_in_tx = removals l (C.hist.current t)

/-- The worker's place in its loop and its counters are as its thread's transaction has them. -/
def Worker.Agrees (l : ListId m) (w : Worker K V) (C : Conf K V m) (t : ThreadId) : Prop :=
  match w.pc with
  | .start => C.hist.thrown t = false ∧
      if w.ops_in_tx = 0 then C.inTX t = false ∧ w.inserts_occurred_in_tx = 0 ∧
        w.removes_occurred_in_tx = 0
      else w.tasks ≠ [] ∧ w.Counts l C t
  | .begun => w.tasks ≠ [] ∧ C.hist.thrown t = false ∧ w.Counts l C t
  | .ending => w.tasks ≠ [] ∧ C.hist.thrown t = false ∧ w.Counts l C t
  | .caught => w.tasks ≠ []

/-- The tasks counted, under way and to come. -/
def Worker.accounted (w : Worker K V) : Int :=
  w.succ_ops + w.fail_ops + w.ops_in_tx + w.tasks.length
    - if w.pc = .ending ∨ w.pc = .caught then 1 else 0

/-- What the worker's transactions have added to the list's size. -/
def Worker.gained (w : Worker K V) : Int := w.inserts_occurred - w.removes_occurred

omit [LinearOrder K] in
theorem Worker.Agrees.congr (h : w.Agrees l C t) (hT : C'.inTX t = C.inTX t)
    (hth : C'.hist.thrown t = C.hist.thrown t) (hcur : C'.hist.current t = C.hist.current t) :
    w.Agrees l C' t := by
  have hcounts : w.Counts l C t → w.Counts l C' t := fun h =>
    ⟨by rw [hT, h.inTX], h.ops, by rw [hcur, h.inserts], by rw [hcur, h.removes]⟩
  unfold Agrees at h ⊢
  split at h
  · rw [hT, hth]
    refine ⟨h.1, ?_⟩
    split_ifs with hz
    · simpa [hz] using h.2
    · have h' := h.2
      rw [if_neg hz] at h'
      exact ⟨h'.1, hcounts h'.2⟩
  · exact ⟨h.1, by rw [hth, h.2.1], hcounts h.2.2⟩
  · exact ⟨h.1, by rw [hth, h.2.1], hcounts h.2.2⟩
  · exact h

omit [LinearOrder K] in
theorem Task.op_isAccess (l : ListId m) (task : Task K V) : (task.op l).isAccess = true := by
  unfold op
  split <;> rfl

omit [LinearOrder K] in
/-- The counters follow the record of the call. -/
theorem Worker.update_counters_eq {r : Rec K V m} (hr : Rec.of? (task.op l) ret = some r) :
    w.update_counters task ret =
      { w with
        inserts_occurred_in_tx := w.inserts_occurred_in_tx + r.inserted l
        removes_occurred_in_tx := w.removes_occurred_in_tx + r.removed l } := by
  unfold Task.op at hr
  rcases htype : task.task_type <;> rw [htype] at hr <;> rcases ret with _ | (_ | v) | b | _ <;>
    simp only [Rec.of?, Option.some.injEq, reduceCtorEq] at hr <;> subst hr <;>
    simp [update_counters, htype, Rec.inserted, Rec.removed]

omit [LinearOrder K] in
/-- The worker's calls are those of a thread that only runs transactions. -/
theorem Worker.Agrees.txClient (h : w.Agrees l C t) (hop : w.op l = some op) : TxClient C t op := by
  have haccess : ∀ task : Task K V, C.hist.thrown t = false → C.inTX t = true →
      TxClient C t (task.op l) := by
    intro task hth hT
    refine ⟨fun h => by simp [hth] at h, ?_⟩
    unfold Task.op
    rcases task.task_type <;> exact hT
  unfold Agrees at h
  unfold Worker.op at hop
  rcases htasks : w.tasks with _ | ⟨task, rest⟩
  · simp [htasks] at hop
  rcases hpc : w.pc with _ | _ | _ | _ <;> rw [hpc] at h <;>
    simp only [htasks, hpc, Option.some.injEq] at hop <;> subst hop
  · split_ifs with hz
    · simp only [hz, if_true] at h
      exact ⟨fun hth => by simp [h.1] at hth, h.2.1⟩
    · simp only [hz, if_false] at h
      exact haccess task h.1 h.2.2.inTX
  · exact haccess task h.2.1 h.2.2.inTX
  · exact ⟨fun hth => by simp [h.2.1] at hth, trivial⟩
  · exact ⟨fun _ => rfl, trivial⟩

theorem Hist.thrown_of_ne {H : Hist K V m} {inTX : Bool} (hu : u ≠ t) :
    (H.step t inTX op ret).thrown u = H.thrown u := by
  rw [Hist.step_thrown, Function.update_of_ne hu]

theorem Conf.Step.thrown_eq (hst : C.Step t op ret C') : C'.hist.thrown t = ret.isAborted := by
  rw [hst.hist_eq, Hist.step_thrown, Function.update_self]

omit [LinearOrder K] in
theorem Ret.isAborted_iff : ret.isAborted = true ↔ ret = .aborted := by
  cases ret <;> simp [isAborted]

/-- After the call of a task. -/
theorem Worker.Counts.ran (h : w.Counts l C t) (htasks : w.tasks = task :: rest)
    (hst : C.Step t (task.op l) ret C') :
    (w.ran task ret).Agrees l C' t ∧ (w.ran task ret).gained = w.gained ∧
      (w.ran task ret).accounted = w.succ_ops + w.fail_ops + w.ops_in_tx + w.tasks.length := by
  unfold Worker.ran
  by_cases hret : ret.isAborted = true
  · simp [hret, Agrees, htasks, gained, accounted]
    ring
  · have hret' : ret ≠ .aborted := fun he => hret (Ret.isAborted_iff.2 he)
    obtain ⟨r, hr, hT, hcur⟩ := hst.records (task.op_isAccess l) h.inTX hret'
    have hth : C'.hist.thrown t = false := by
      rw [hst.thrown_eq]
      simpa using hret
    have hops := h.ops
    simp only [hret, Bool.false_eq_true, if_false, update_counters_eq hr, next_task, htasks]
    have hcounts : ∀ {w' : Worker K V}, w'.ops_in_tx = w.ops_in_tx + 1 →
        w'.inserts_occurred_in_tx = w.inserts_occurred_in_tx + r.inserted l →
        w'.removes_occurred_in_tx = w.removes_occurred_in_tx + r.removed l → w'.Counts l C' t := by
      intro w' hops' hins hrem
      refine ⟨hT, by omega, ?_, ?_⟩
      · rw [hins, hcur, insertions_append, insertions_singleton, h.inserts]
      · rw [hrem, hcur, removals_append, removals_singleton, h.removes]
    split_ifs with hfull
    · refine ⟨⟨by simp, hth, hcounts rfl rfl rfl⟩, rfl, ?_⟩
      simp [accounted]
      ring
    · push Not at hfull
      have hne : w.ops_in_tx + 1 ≠ 0 := by omega
      refine ⟨⟨hth, ?_⟩, rfl, ?_⟩
      · rw [if_neg hne]
        exact ⟨by simpa [htasks] using hfull.2, hcounts rfl rfl rfl⟩
      · simp [accounted]
        ring

/-- What the committed attempts have added to the list's size. -/
def Conf.gained (C : Conf K V m) (l : ListId m) : Int :=
  insertions l C.hist.committed.flatten - removals l C.hist.committed.flatten

/-- Only a `TXend` that returns commits. -/
theorem Conf.Step.gained_eq (hst : C.Step t op ret C') (hend : op = .txEnd → ret = .aborted) :
    C'.gained l = C.gained l := by
  rw [Conf.gained, hst.hist_eq, Hist.step_committed _ hend, Conf.gained]

theorem Conf.Step.gained_commit (hst : C.Step t .txEnd ret C') (hret : ret ≠ .aborted) :
    C'.gained l = C.gained l + insertions l (C.hist.current t) - removals l (C.hist.current t) := by
  rw [Conf.gained, hst.hist_eq, (Hist.step_commit _ _ hret).2]
  simp only [List.flatten_append, List.flatten_singleton, insertions_append, removals_append,
    Conf.gained]
  ring

/-- A call of the worker itself. -/
theorem Worker.Agrees.step (h : w.Agrees l C t) (hop : w.op l = some op) (hst : C.Step t op ret C')
    (hs : C.sys.Sane) : (w.next ret).Agrees l C' t ∧ (w.next ret).accounted = w.accounted ∧
      C'.gained l - C.gained l = (w.next ret).gained - w.gained := by
  unfold Agrees at h
  unfold Worker.op at hop
  unfold Worker.next
  rcases htasks : w.tasks with _ | ⟨task, rest⟩
  · simp [htasks] at hop
  have hran : w.Counts l C t → w.pc = .start ∨ w.pc = .begun → op = task.op l →
      (w.ran task ret).Agrees l C' t ∧ (w.ran task ret).accounted = w.accounted ∧
        C'.gained l - C.gained l = (w.ran task ret).gained - w.gained := by
    rintro hc hpc rfl
    obtain ⟨hA, hg, ha⟩ := hc.ran htasks hst
    refine ⟨hA, ?_, ?_⟩
    · rw [ha]
      rcases hpc with hpc | hpc <;> simp [accounted, hpc]
    · rw [hg, hst.gained_eq fun he => ?_, sub_self, sub_self]
      have := task.op_isAccess l
      rw [he] at this
      simp [Op.isAccess] at this
  rcases hpc : w.pc with _ | _ | _ | _ <;> rw [hpc] at h <;>
    simp only [htasks, hpc, Option.some.injEq] at hop ⊢
  · by_cases hz : w.ops_in_tx = 0
    · simp only [hz, if_true] at h hop ⊢
      subst hop
      obtain ⟨rfl, hT, hcur⟩ := hst.begins
      have hth : C'.hist.thrown t = false := hst.thrown_eq
      rw [if_neg (by simp [Ret.isAborted])]
      refine ⟨⟨by simp, hth, hT, by simp, ?_, ?_⟩, ?_, ?_⟩
      · rw [hcur]
        exact h.2.2.1
      · rw [hcur]
        exact h.2.2.2
      · simp [accounted, hpc, hz, htasks]
      · rw [hst.gained_eq (by simp)]
        simp [gained]
    · simp only [hz, if_false] at h hop ⊢
      exact hran h.2.2 (.inl hpc) hop.symm
  · exact hran h.2.2 (.inr hpc) hop.symm
  · subst hop
    by_cases hret : ret.isAborted = true
    · rw [if_pos hret, hst.gained_eq fun _ => Ret.isAborted_iff.1 hret]
      refine ⟨by simp [Agrees], ?_, by simp [gained]⟩
      simp [accounted, hpc, htasks]
    · have hth : C'.hist.thrown t = false := by
        rw [hst.thrown_eq]
        simpa using hret
      rw [if_neg hret, hst.gained_commit fun he => hret (Ret.isAborted_iff.2 he)]
      refine ⟨⟨hth, ?_⟩, ?_, ?_⟩
      · simp [committed, reset, next_task, hst.closes hs (.inl rfl)]
      · simp [accounted, committed, reset, next_task, hpc, htasks]
        ring
      · simp only [committed, reset, next_task, gained, h.2.2.inserts, h.2.2.removes]
        ring
  · subst hop
    have hth : C'.hist.thrown t = false := by
      rw [hst.thrown_eq, hst.handled]
      rfl
    rw [hst.gained_eq (by simp)]
    refine ⟨⟨hth, ?_⟩, ?_, by simp [gained, handled, reset, next_task]⟩
    · simp [handled, reset, next_task, hst.closes hs (.inr rfl)]
    · simp [accounted, handled, reset, next_task, hpc, htasks]
      ring

end Workers

/-! ## Whole runs -/

section Runs

variable [LinearOrder K] {C C' : Conf K V m} {t u : ThreadId} {op : Op K V m} {ret : Ret V}
  {minKey : K} {dflt : V} {size : Int} {ws : Finset ThreadId} {b b' : Bench K V m}
  {slices : ThreadId → List (Task K V)} {ops_per_transc : ThreadId → Int}

theorem Conf.Step.inTX_ne (hst : C.Step t op ret C') (hu : u ≠ t) : C'.inTX u = C.inTX u := by
  rw [Conf.inTX, hst.threads_ne hu, Conf.inTX]

theorem Conf.Step.thrown_ne (hst : C.Step t op ret C') (hu : u ≠ t) :
    C'.hist.thrown u = C.hist.thrown u := by
  rw [hst.hist_eq, Hist.thrown_of_ne hu]

theorem Conf.Step.current_ne (hst : C.Step t op ret C') (hu : u ≠ t) :
    C'.hist.current u = C.hist.current u := by
  rw [hst.hist_eq, Hist.step_current_ne _ hu]

/-- Between `TXbegin` and `TXend` of `init_linked_list`. -/
structure FillingInv (minKey : K) (dflt : V) (l : ListId m) (t : ThreadId) (size : Int)
    (C : Conf K V m) : Prop where
  reach : Conf.Reach minKey dflt TxClient C
  inTX : C.inTX t = true
  thrown : ∀ u, C.hist.thrown u = false
  others : ∀ u, u ≠ t → C.inTX u = false
  inserted : insertions l (C.hist.current t) = size
  removed : removals l (C.hist.current t) = 0
  gained : C.gained l = 0

theorem Filling.inv (h : Filling minKey dflt l t size C) : FillingInv minKey dflt l t size C := by
  induction h with
  | begun hst =>
    obtain ⟨rfl, hT, hcur⟩ := hst.begins
    refine ⟨.step .refl ⟨by simp [Conf.init, Hist.init], rfl⟩ hst, hT, fun u => ?_, fun u hu => ?_, ?_,
      ?_, ?_⟩
    · by_cases hu : u = t
      · rw [hu, hst.thrown_eq]
        rfl
      · rw [hst.thrown_ne hu]
        rfl
    · rw [hst.inTX_ne hu]
      rfl
    · rw [hcur, insertions_nil]
    · rw [hcur, removals_nil]
    · rw [hst.gained_eq (by simp)]
      rfl
  | @put C C' size task ret _ hst ih =>
    obtain ⟨r, hr, hT, hcur⟩ := hst.records rfl ih.inTX (by simp)
    obtain rfl : Rec.put l task.key task.val ret = r := by simpa [Rec.of?] using hr
    refine ⟨.step ih.reach ⟨by simp [ih.thrown], ih.inTX⟩ hst, hT, fun u => ?_, fun u hu => ?_, ?_,
      ?_, ?_⟩
    · by_cases hu : u = t
      · rw [hu, hst.thrown_eq]
        rfl
      · rw [hst.thrown_ne hu, ih.thrown]
    · rw [hst.inTX_ne hu, ih.others u hu]
    · rw [hcur, insertions_append, insertions_singleton, ih.inserted]
      cases ret <;> simp [Rec.inserted]
    · rw [hcur, removals_append, removals_singleton, ih.removed]
      simp [Rec.removed]
    · rw [hst.gained_eq (by simp), ih.gained]

/-- `init_linked_list` leaves as many keys as it returns, and no transaction. -/
structure FilledInv (minKey : K) (dflt : V) (l : ListId m) (size : Int) (C : Conf K V m) : Prop where
  reach : Conf.Reach minKey dflt TxClient C
  closed : ∀ u, C.inTX u = false
  thrown : ∀ u, C.hist.thrown u = false
  gained : C.gained l = size

theorem Filled.inv (h : Filled minKey dflt l t size C) : FilledInv minKey dflt l size C := by
  obtain ⟨C₀, hfill, hst⟩ := h
  have h₀ := hfill.inv
  refine ⟨.step h₀.reach ⟨by simp [h₀.thrown], trivial⟩ hst, fun u => ?_, fun u => ?_, ?_⟩
  · by_cases hu : u = t
    · rw [hu]
      exact hst.closes (Conf.Run.sane h₀.reach (Sys.sane_init minKey dflt)) (.inl rfl)
    · rw [hst.inTX_ne hu, h₀.others u hu]
  · by_cases hu : u = t
    · rw [hu, hst.thrown_eq]
      rfl
    · rw [hst.thrown_ne hu, h₀.thrown]
  · rw [hst.gained_commit (by simp), h₀.gained, h₀.inserted, h₀.removed]
    ring

namespace Bench

/-- The invariant of the workers' runs. -/
structure Inv (minKey : K) (dflt : V) (l : ListId m) (ws : Finset ThreadId) (size : Int)
    (slices : ThreadId → List (Task K V)) (b : Bench K V m) : Prop where
  reach : Conf.Reach minKey dflt TxClient b.conf
  agrees : ∀ t ∈ ws, (b.workers t).Agrees l b.conf t
  accounted : ∀ t ∈ ws, (b.workers t).accounted = (slices t).length
  gained : b.conf.gained l = size + ∑ t ∈ ws, (b.workers t).gained

theorem Inv.start (h : FilledInv minKey dflt l size C) :
    Inv minKey dflt l ws size slices (launch C slices ops_per_transc) := by
  unfold launch
  refine ⟨h.reach, fun t _ => ⟨h.thrown t, ?_⟩, fun t _ => by simp [Worker.accounted], ?_⟩
  · simp [h.closed t]
  · simp [h.gained, Worker.gained]

theorem Inv.step (h : Inv minKey dflt l ws size slices b) (hst : Step l ws b b') :
    Inv minKey dflt l ws size slices b' := by
  obtain @⟨t, op, ret, C', ht, hop, hst⟩ := hst
  have hs : b.conf.sys.Sane := Conf.Run.sane h.reach (Sys.sane_init minKey dflt)
  obtain ⟨hA, hacc, hgain⟩ := (h.agrees t ht).step hop hst hs
  refine ⟨.step h.reach ((h.agrees t ht).txClient hop) hst, fun u hu => ?_, fun u hu => ?_, ?_⟩
  · by_cases hut : u = t
    · subst hut
      simpa using hA
    · simp only [Function.update_of_ne hut]
      exact (h.agrees u hu).congr (hst.inTX_ne hut) (hst.thrown_ne hut) (hst.current_ne hut)
  · by_cases hut : u = t
    · subst hut
      simpa [hacc] using h.accounted u hu
    · simpa only [Function.update_of_ne hut] using h.accounted u hu
  · have hsum : ∑ u ∈ ws, (Function.update b.workers t ((b.workers t).next ret) u).gained
        = ((b.workers t).next ret).gained + ∑ u ∈ ws.erase t, (b.workers u).gained := by
      rw [← Finset.add_sum_erase ws _ ht, Function.update_self]
      refine congrArg _ (Finset.sum_congr rfl fun u hu => ?_)
      rw [Function.update_of_ne (Finset.ne_of_mem_erase hu)]
    have hsum' := Finset.add_sum_erase ws (fun u => (b.workers u).gained) ht
    have hg := h.gained
    simp only [hsum]
    omega

theorem Reach.inv (h : FilledInv minKey dflt l size C) (hr : Reach l ws C slices ops_per_transc b) :
    Inv minKey dflt l ws size slices b := by
  induction hr with
  | start => exact .start h
  | step _ hst ih => exact ih.step hst

/-- The lists' size is what the benchmark expects, and no task is lost: the workers' slices are the
tasks whose transactions committed and those whose transactions did not. -/
theorem Reach.size_exact (hfill : Filled minKey dflt l t size C)
    (hr : Reach l ws C slices ops_per_transc b) (hfin : b.Finished ws) :
    (∃ N, ∀ fuel, N ≤ fuel → ∃ r, get_size fuel l (b.conf.sys.ctx u) = .ok r (b.conf.sys.ctx u) ∧
        (r : Int) = b.expected_total_linked_list_size ws size) ∧
      ∀ t ∈ ws, (b.workers t).succ_ops + (b.workers t).fail_ops = (slices t).length := by
  have h := hr.inv hfill.inv
  refine ⟨?_, fun t ht => ?_⟩
  · obtain ⟨-, S, hserial⟩ := Serial.of_reach h.reach
    obtain ⟨N, hN⟩ := Lists.get_size_ends (c := b.conf.sys.ctx u) hserial.inv.lists l
    refine ⟨N, fun fuel hf => ⟨_, hN fuel hf, ?_⟩⟩
    have hkeys : {key | (b.conf.sys.shared.lookup l key).isSome = true} = b.conf.hist.maps.keys l := by
      ext key
      simp [Maps.keys, hserial.lookup]
    have hempty : (Maps.empty : Maps K V m).keys l = ∅ := by
      ext key
      simp [Maps.keys, Maps.empty]
    have hcard := (Maps.ncard_replay (l := l) (by rw [hempty]; exact Set.finite_empty)
      hserial.sound).2
    rw [← hserial.replayed, hempty, Set.ncard_empty] at hcard
    have hg := h.gained
    have hsub : ∑ t ∈ ws, (b.workers t).gained = ∑ t ∈ ws, (b.workers t).inserts_occurred
        - ∑ t ∈ ws, (b.workers t).removes_occurred := Finset.sum_sub_distrib _ _
    simp only [Sys.ctx, hkeys, hcard, expected_total_linked_list_size]
    unfold Conf.gained at hg
    omega
  · have hA := h.agrees t ht
    have hacc := h.accounted t ht
    have htasks := hfin t ht
    unfold Worker.Agrees at hA
    unfold Worker.accounted at hacc
    split at hA
    · rename_i hpc
      have hz : (b.workers t).ops_in_tx = 0 := by
        by_contra hz
        have hA := hA.2
        rw [if_neg hz] at hA
        exact hA.1 htasks
      simpa [hpc, htasks, hz] using hacc
    · exact absurd htasks hA.1
    · exact absurd htasks hA.1
    · exact absurd htasks hA

/-! ## Two workers -/

/-- The workers' calls in a given order. -/
def play (l : ListId m) (ws : Finset ThreadId) : List ThreadId → Bench K V m → Option (Bench K V m)
  | [], b => some b
  | t :: ts, b =>
    if t ∈ ws then
      match (b.workers t).op l with
      | none => none
      | some op =>
        match b.conf.play t op with
        | none => none
        | some (C', ret) =>
          play l ws ts ⟨C', Function.update b.workers t ((b.workers t).next ret)⟩
    else none

theorem Reach.play : ∀ {ts : List ThreadId} {b b' : Bench K V m},
    Reach l ws C slices ops_per_transc b → Bench.play l ws ts b = some b' →
      Reach l ws C slices ops_per_transc b'
  | [], b, b', hr, h => by
    obtain rfl : b = b' := by simpa [Bench.play] using h
    exact hr
  | t :: ts, b, b', hr, h => by
    unfold Bench.play at h
    split_ifs at h with ht
    rcases hop : (b.workers t).op l with _ | op
    · simp [hop] at h
    · rcases hp : b.conf.play t op with _ | ⟨C', ret⟩
      · simp [hop, hp] at h
      · simp only [hop, hp] at h
        exact Reach.play (hr.step (.call ht hop (Conf.play_step hp))) h

/-- `init_linked_list` with one task, whose key is new. -/
def fill (minKey : K) (dflt : V) (l : ListId m) (t : ThreadId) (key : K) (val : V) :
    Option (Conf K V m) :=
  match (Conf.init minKey dflt).play t .txBegin with
  | some (C₁, _) =>
    match C₁.play t (.put l key val) with
    | some (C₂, .val none) =>
      match C₂.play t .txEnd with
      | some (C₃, .bool true) => some C₃
      | _ => none
    | _ => none
  | none => none

theorem filled_of_fill {key : K} {val : V} (h : fill minKey dflt l t key val = some C) :
    Filled minKey dflt l t 1 C := by
  unfold fill at h
  split at h
  · rename_i C₁ _ h₁
    split at h
    · rename_i C₂ h₂
      split at h
      · rename_i C₃ h₃
        obtain rfl : C₃ = C := by simpa using h
        let task : Task K V := ⟨.insert, key, val⟩
        have hput : C₁.Step t (.put l task.key task.val) (.val none) C₂ := Conf.play_step h₂
        exact ⟨C₂, .put (.begun (Conf.play_step h₁)) hput, Conf.play_step h₃⟩
      · simp at h
    · simp at h
  · simp at h

/-- The first worker's tasks, and the second's, who reads where the first inserts. -/
def twoSlices (t : ThreadId) : List (Task Nat Nat) :=
  if t = 0 then [⟨.insert, 5, 1⟩, ⟨.insert, 7, 1⟩, ⟨.remove, 3, 0⟩]
  else [⟨.contains, 5, 0⟩, ⟨.insert, 5, 1⟩]

/-- Two workers with two tasks to a transaction: three tasks commit, two are lost. -/
theorem Reach.size_exact_two : ∃ C b, Filled 0 0 (0 : ListId 1) 2 1 C ∧
    Reach 0 {0, 1} C twoSlices (fun _ => 2) b ∧ b.Finished {0, 1} ∧ (b.workers 1).fail_ops = 2 ∧
    b.expected_total_linked_list_size {0, 1} 1 = 2 ∧
    (∃ N, ∀ fuel, N ≤ fuel → ∃ r, get_size fuel 0 (b.conf.sys.ctx 2) = .ok r (b.conf.sys.ctx 2) ∧
        (r : Int) = b.expected_total_linked_list_size {0, 1} 1) ∧
      ∀ t ∈ ({0, 1} : Finset ThreadId),
        (b.workers t).succ_ops + (b.workers t).fail_ops = (twoSlices t).length := by
  have htest : ((fill 0 0 (0 : ListId 1) 2 3 3).bind fun C =>
      Bench.play 0 {0, 1} [1, 1, 0, 0, 0, 0, 0, 0, 0, 1, 1]
        (launch C twoSlices fun _ => 2)).any (fun b : Bench Nat Nat 1 =>
          decide (b.Finished {0, 1} ∧ (b.workers 1).fail_ops = 2 ∧
            b.expected_total_linked_list_size {0, 1} 1 = 2)) = true := by
    decide +kernel
  rcases hC : fill 0 0 (0 : ListId 1) 2 3 3 with _ | C
  · simp [hC] at htest
  rcases hb : Bench.play 0 {0, 1} [1, 1, 0, 0, 0, 0, 0, 0, 0, 1, 1]
      (launch C twoSlices fun _ => 2) with _ | b
  · simp [hC, hb] at htest
  obtain ⟨hfin, hfail, hexp⟩ : b.Finished {0, 1} ∧ (b.workers 1).fail_ops = 2 ∧
      b.expected_total_linked_list_size {0, 1} 1 = 2 := by simpa [hC, hb] using htest
  have hfill := filled_of_fill hC
  have hr := Reach.play .start hb
  exact ⟨C, b, hfill, hr, hfin, hfail, hexp, Reach.size_exact hfill hr hfin⟩

end Bench

end Runs

end TxList
