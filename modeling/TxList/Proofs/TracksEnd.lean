import TxList.Proofs.Tracks

/-!
# `TXend`, ahead

Up to the increment of the clock a `TXend` leaves the configuration ahead as it is. With the increment it
commits there: it holds the nodes of its write set, and has found each of them no newer than its read
version. What it does from then on, it does to catch up.
-/

namespace TxList

open Prog Chain

variable {K V : Type} {m : Nat}

namespace Ending

/-- The clock has not been moved on yet. -/
def early : Ending V m → Bool
  | .lock _ _ _ _ | .check _ _ _ _ | .increment _ _ => true
  | _ => false

/-- The commit has been made ahead, or there was nothing to write. -/
def closed : Ending V m → Bool
  | .write _ _ _ _ _ | .unlock _ _ true | .index _ _ | .done true => true
  | _ => false

section Shapes

variable {job : Job V m} {locked : List NodeId} {us : List (IndexUpdate m)} {wv : Nat}

theorem closed_indexing : ∀ us : List (IndexUpdate m), (indexing us : Ending V m).closed = true
  | [] => rfl
  | _ :: _ => rfl

theorem closed_unlocking : (unlocking locked us true : Ending V m).closed = true := by
  by_cases h : locked = []
  · simp [unlocking, h, closed_indexing]
  · simp [unlocking, h, closed]

theorem closed_writing : ∀ ws, (writing job wv locked ws).closed = true
  | [] => closed_unlocking
  | _ :: _ => rfl

theorem due_indexing : ∀ us : List (IndexUpdate m), (indexing us : Ending V m).due = us
  | [] => rfl
  | _ :: _ => rfl

theorem due_unlocking {b : Bool} {u : IndexUpdate m} (h : u ∈ (unlocking locked us b : Ending V m).due) :
    u ∈ us := by
  unfold unlocking at h
  split_ifs at h
  · rwa [due_indexing] at h
  · simp [due] at h
  · exact h

theorem due_writing {u : IndexUpdate m} : ∀ {ws}, u ∈ (writing job wv locked ws).due → u ∈ job.updates
  | [], h => due_unlocking h
  | _ :: _, h => h

/-- A `TXend` that gives back what it has locked and throws. -/
theorem past_backing_out (locked : List NodeId) (us : List (IndexUpdate m)) :
    (unlocking locked us false : Ending V m).past = false ∧
    (∀ x : Local V m, (unlocking locked us false : Ending V m).threw = false →
      x.after (unlocking locked us false) = x) ∧
    ∀ (s : Shared K V m) x, (unlocking locked us false : Ending V m).Fits s x := by
  by_cases h : locked = []
  · simp [unlocking, h, past, threw, Fits]
  · simp [unlocking, h, past, Local.after, Fits]

theorem fits_of_closed {e : Ending V m} (h : e.closed = true) (s : Shared K V m) (x : Local V m) :
    e.Fits s x := by
  cases e <;> trivial

/-- After validation, either there was nothing to write, or the versions of the locked nodes are known. -/
theorem fits_checking {s : Shared K V m} {x : Local V m} (hj : job.Of x) : ∀ {ns : List NodeId},
    (∀ k ∈ locked, k ∉ ns → (s.mem k).word.version ≤ job.readVersion) →
    checking job locked ns = unlocking locked [] true ∨
      (checking job locked ns).early = true ∧ (checking job locked ns).Fits s x
  | [], h => by
    unfold checking
    split_ifs with hro
    · exact .inl rfl
    · exact .inr ⟨rfl, hj, by simpa using hro, fun k hk => h k hk List.not_mem_nil⟩
  | _ :: _, h => .inr ⟨rfl, hj, h⟩

end Shapes

end Ending

namespace Job.Of

variable {x : Local V m} {job : Job V m}

theorem mem_keys (h : job.Of x) {n : NodeId} : n ∈ job.keys ↔ n ∈ x.storage.writeSet := by
  obtain ⟨-, ch, ho, rfl⟩ := h
  have hmem : n ∈ ch.writeOrder ↔ n ∈ x.storage.writeSet := ho.1.mem_iff.trans AList.mem_keys
  refine ⟨fun hn => ?_, fun hn => ?_⟩
  · obtain ⟨y, hy, rfl⟩ := List.mem_map.1 hn
    obtain ⟨k, hk, hy⟩ := List.mem_filterMap.1 hy
    obtain ⟨we, -, rfl⟩ := Option.map_eq_some_iff.1 hy
    exact (ho.1.mem_iff.trans AList.mem_keys).1 hk
  · obtain ⟨we, hwe⟩ := Option.isSome_iff_exists.1 (AList.lookup_isSome.2 hn)
    exact List.mem_map.2 ⟨(n, we), List.mem_filterMap.2 ⟨n, hmem.2 hn, by rw [hwe]; rfl⟩, rfl⟩

theorem mem_readSet (h : job.Of x) {n : NodeId} : n ∈ job.readSet ↔ n ∈ x.storage.readSet := by
  obtain ⟨-, ch, ho, rfl⟩ := h
  rw [← ho.2.2, List.mem_toFinset]
  rfl

theorem mem_writeSet (h : job.Of x) {n : NodeId} {we : WriteElement V} :
    (n, we) ∈ job.writeSet ↔ x.storage.writeSet.lookup n = some we := by
  obtain ⟨-, ch, ho, rfl⟩ := h
  refine ⟨fun hn => ?_, fun hn => ?_⟩
  · obtain ⟨k, -, hk⟩ := List.mem_filterMap.1 hn
    obtain ⟨we', hwe, he⟩ := Option.map_eq_some_iff.1 hk
    obtain ⟨rfl, rfl⟩ := Prod.mk.inj he
    exact hwe
  · have hmem : n ∈ ch.writeOrder :=
      (ho.1.mem_iff.trans AList.mem_keys).2 (AList.lookup_isSome.1 (by rw [hn]; rfl))
    exact List.mem_filterMap.2 ⟨n, hmem, by rw [hn]; rfl⟩

/-- The nodes to be added to the index of a list. -/
theorem mem_indexAdd (h : job.Of x) {l : ListId m} {n : NodeId} (hn : .add l n ∈ job.updates) :
    n ∈ x.storage.indexAdd l := by
  obtain ⟨-, ch, -, rfl⟩ := h
  rcases List.mem_append.1 hn with hn | hn
  · obtain ⟨y, hy, he⟩ := List.mem_map.1 hn
    obtain ⟨l', -, hl⟩ := List.mem_flatMap.1 hy
    obtain ⟨k, hk, rfl⟩ := List.mem_map.1 hl
    obtain ⟨rfl, rfl⟩ := IndexUpdate.add.inj he
    exact hk
  · obtain ⟨y, -, hy⟩ := List.mem_flatMap.1 hn
    simp at hy

end Job.Of

section Ends

variable [LinearOrder K] {P : Watched K V m} {C C' : Conf K V m} {S S' : ListId m → Finset NodeId}
  {t : ThreadId} {p : Pick} {e' : Ending V m} {eff : Effect K V m}

/-! ## One thread -/

omit [LinearOrder K] in
theorem Watched.threads_ended : (P.ended t eff e').sys.threads t = (P.sys.threads t).after e' :=
  Function.update_self ..

omit [LinearOrder K] in
theorem Watched.ending_ended : (P.ended t eff e').ending t = e' := Function.update_self ..

omit [LinearOrder K] in
theorem Watched.thrown_ended : (P.ended t eff e').thrown t = e'.threw := Function.update_self ..

omit [LinearOrder K] in
theorem Watched.updates_ended (h : (P.ending t).commits = false) :
    (P.ended t eff e').updates = P.updates := if_neg (by simp [h])

/-- A thread ahead after a step of its `TXend`. -/
theorem Twin.ended (h : Twin P C S t) (hthr : P.thrown t = false)
    (hheld : ∀ n ∈ e'.held, n < (eff.apply P.sys.shared).fresh)
    (hlike : e'.threw = false → (((P.sys.threads t).after e').ahead e').Like (C'.sys.threads t))
    (hup : (C'.sys.ctx t).Live →
      ∀ M : Maps K V m, M.replay (C'.hist.current t) = M.update ((P.ended t eff e').updates t))
    (hfits : e'.Fits (eff.apply P.sys.shared) ((P.sys.threads t).after e'))
    (hdue : ∀ l n, .add l n ∈ e'.due → Placed C'.sys.shared S' l n) : Twin (P.ended t eff e') C' S' t := by
  have hafter : (P.sys.threads t).after e' = P.sys.threads t ∨
      ((P.sys.threads t).after e').storage = {} := by
    cases e' <;> first | exact .inl rfl | exact .inr rfl
  refine ⟨fun hf => ?_, hup, fun n hn => ?_, fun _ => ?_, fun _ => ?_, ?_, fun l n hn => ?_, fun ht => ?_⟩
  · rw [Watched.threads_ended, Watched.ending_ended]
    exact hlike (Watched.thrown_ended.symm.trans hf)
  · rw [Watched.ending_ended] at hn
    exact hheld n hn
  · rw [Watched.threads_ended]
    rcases hafter with ha | ha
    · rw [ha]
      exact h.tidy hthr
    · rw [ha]
      exact fun _ => ⟨rfl, rfl, fun _ => rfl, fun _ => rfl⟩
  · rw [Watched.threads_ended]
    rcases hafter with ha | ha
    · rw [ha]
      exact h.reads hthr
    · rw [ha]
      exact fun n hn => absurd hn (AList.notMem_empty n)
  · rw [Watched.threads_ended, Watched.ending_ended]
    exact hfits
  · rw [Watched.ending_ended] at hn
    exact hdue l n hn
  · rw [Watched.thrown_ended] at ht
    rw [Watched.ending_ended]
    cases e' with
    | done b => rfl
    | _ => simp [Ending.threw] at ht

omit [LinearOrder K] in
/-- What is ahead of a thread whose commit has been made there. -/
theorem Local.like_of_closed {x y : Local V m} (he : e'.closed = true) (hst : y.storage = {})
    (hT : y.transaction.TX = false) (hro : y.transaction.readOnly = true) :
    ((x.after e').ahead e').Like y := by
  have hno : ∀ {b : Bool}, b = false → b ≠ true := fun h => by simp [h]
  cases e' with
  | write | index => exact ⟨hst, hT, hro, fun h => absurd h (hno rfl)⟩
  | unlock locked us b =>
    cases b with
    | false => simp [Ending.closed] at he
    | true => exact ⟨hst, hT, hro, fun h => absurd h (hno rfl)⟩
  | done b => exact ⟨hst, hT, hro, fun h => absurd h (hno rfl)⟩
  | lock | check | moveOn | clearMark | increment | stopped => simp [Ending.closed] at he

omit [LinearOrder K] in
theorem Ending.past_of_early {e : Ending V m} (h : e.early = true) : e.past = false ∧ e.pending = [] ∧
    e.due = [] ∧ ∀ x : Local V m, x.after e = x := by
  cases e <;> first | exact ⟨rfl, rfl, rfl, fun _ => rfl⟩ | simp [early] at h

/-! ## All threads -/

omit [LinearOrder K] in
/-- Locks that come and go are nothing to the memory ahead. -/
theorem Completes.latch {s s' w : Shared K V m} {E E' : ThreadId → Ending V m} (h : Completes s E w)
    (hE : ∀ u, (E' u).pending = (E u).pending)
    (hs : s' = s ∨ ∃ n b, s' = s.setNode n ((s.mem n).setLock b)) : Completes s' E' w := by
  rcases hs with rfl | ⟨n, b, rfl⟩
  · exact h.congr hE rfl rfl fun _ => rfl
  · refine h.congr hE rfl rfl fun k => ?_
    rw [Shared.mem_setNode]
    split_ifs with hk
    · rw [hk, LNode.setLock_setLock]
    · rfl

omit [LinearOrder K] in
theorem pending_update {E : ThreadId → Ending V m} (h : e'.pending = (E t).pending) (u : ThreadId) :
    (Function.update E t e' u).pending = (E u).pending := by
  by_cases hu : u = t
  · subst hu
    rwa [Function.update_self]
  · rw [Function.update_of_ne hu]

/-- Thread `t` starts its `TXend` or takes a step of it. -/
structure Watched.Goes (P : Watched K V m) (t : ThreadId) (eff : Effect K V m) (e' : Ending V m) :
    Prop where
  thrown : P.thrown t = false
  others : ∀ u, u ≠ t → ∀ n ∈ (P.ending u).held,
    ((eff.apply P.sys.shared).mem n).word.version = (P.sys.shared.mem n).word.version
  orderly : Orderly (eff.apply P.sys.shared) (Function.update P.ending t e')

theorem Tracks.goes (h : Tracks P C S) (hs : (P.ending t).step P.sys.shared p = some (eff, e')) :
    P.Goes t eff e' := by
  refine ⟨?_, fun u hu n hn => ?_, h.orderly.step hs⟩
  · by_contra hthr
    have hrest := (h.twin t).rests (by simpa using hthr)
    cases he : P.ending t with
    | done b => simp [he, Ending.step] at hs
    | _ => simp [he, Ending.resting] at hrest
  · exact (Ending.others_step hs (h.orderly.proper t) (h.orderly.locked t)
      (fun hn' => hu (h.orderly.apart hn hn')) (h.orderly.locked u n hn)).2.1

section Step

variable (h : Tracks P C S) (hg : P.Goes t eff e')

include h hg

theorem Tracks.ended (hA : Acted C S t C' S')
    (hfresh : (eff.apply P.sys.shared).fresh = P.sys.shared.fresh)
    (hc : Completes (eff.apply P.sys.shared) (Function.update P.ending t e') C'.sys.shared)
    (hroot : ∀ l, ((eff.apply P.sys.shared).index l).Rooted (head l))
    (hplaced : ∀ l i, Placed C.sys.shared S l (((eff.apply P.sys.shared).index l).nodes i).node)
    (hcom : Maps.empty.replay C'.hist.committed.flatten =
      Maps.empty.update (P.ended t eff e').commits.flatten)
    (ht : Twin (P.ended t eff e') C' S' t) : Tracks (P.ended t eff e') C' S' := by
  refine h.move hA (fun u hu => ?_) hfresh.ge hg.others hc hg.orderly hroot
    (fun l i => hA.placed (hplaced l i)) hcom ht
  refine ⟨Function.update_of_ne hu _ _, Function.update_of_ne hu _ _, Function.update_of_ne hu _ _, ?_⟩
  simp only [Watched.ended]
  split_ifs
  · exact Function.update_of_ne hu _ _
  · rfl

/-- A step that leaves the configuration ahead as it is. -/
theorem Tracks.unmoved (hnc : (P.ending t).commits = false)
    (hfresh : (eff.apply P.sys.shared).fresh = P.sys.shared.fresh)
    (hc : Completes (eff.apply P.sys.shared) (Function.update P.ending t e') C.sys.shared)
    (hroot : ∀ l, ((eff.apply P.sys.shared).index l).Rooted (head l))
    (hplaced : ∀ l i, Placed C.sys.shared S l (((eff.apply P.sys.shared).index l).nodes i).node)
    (hheld : ∀ n ∈ e'.held, n < P.sys.shared.fresh)
    (hlike : e'.threw = false → (((P.sys.threads t).after e').ahead e').Like (C.sys.threads t))
    (hfits : e'.Fits (eff.apply P.sys.shared) ((P.sys.threads t).after e'))
    (hdue : ∀ l n, .add l n ∈ e'.due → Placed C.sys.shared S l n) : Tracks (P.ended t eff e') C S := by
  refine h.ended hg (.refl h.serial h.unmarked) hfresh hc hroot hplaced ?_
    ((h.twin t).ended hg.thrown (hfresh ▸ hheld) hlike (fun hl => ?_) hfits hdue)
  · simpa [Watched.ended, hnc] using h.committed
  · rw [Watched.updates_ended hnc]
    exact (h.twin t).updates hl

/-- A step that takes a lock or gives one back, or nothing. -/
theorem Tracks.latched (hpast : (P.ending t).past = false) (hpend : (P.ending t).pending = [])
    (hnc : (P.ending t).commits = false)
    (hl : eff.apply P.sys.shared = P.sys.shared ∨
      ∃ n b, eff.apply P.sys.shared = P.sys.shared.setNode n ((P.sys.shared.mem n).setLock b))
    (hpast' : e'.past = false) (hpend' : e'.pending = [])
    (hafter : e'.threw = false → (P.sys.threads t).after e' = P.sys.threads t)
    (hheld : ∀ n ∈ e'.held, n < P.sys.shared.fresh)
    (hfits : e'.Fits (eff.apply P.sys.shared) ((P.sys.threads t).after e'))
    (hdue : ∀ l n, .add l n ∈ e'.due → Placed C.sys.shared S l n) : Tracks (P.ended t eff e') C S := by
  have hix : (eff.apply P.sys.shared).index = P.sys.shared.index ∧
      (eff.apply P.sys.shared).fresh = P.sys.shared.fresh := by
    rcases hl with hl | ⟨n, b, hl⟩ <;> rw [hl] <;> exact ⟨rfl, rfl⟩
  refine h.unmoved hg hnc hix.2 (h.completes.latch (pending_update (hpend'.trans hpend.symm)) hl)
    (by rw [hix.1]; exact h.rooted) (by rw [hix.1]; exact h.placed) hheld (fun hthr => ?_) hfits hdue
  have hlike := (h.twin t).like hg.thrown
  rw [hafter hthr]
  rw [Local.ahead, hpast] at hlike
  rwa [Local.ahead, hpast']

/-- Validation has succeeded, with nothing to write. -/
theorem Tracks.rejected {locked : List NodeId} (hpend : (P.ending t).pending = [])
    (hnc : (P.ending t).commits = false) (he' : e' = .unlocking locked [] true)
    (hl : eff.apply P.sys.shared = P.sys.shared ∨
      ∃ n b, eff.apply P.sys.shared = P.sys.shared.setNode n ((P.sys.shared.mem n).setLock b))
    (hheld : ∀ n ∈ e'.held, n < P.sys.shared.fresh) : ∃ C' S', Tracks (P.ended t eff e') C' S' := by
  have hix : (eff.apply P.sys.shared).index = P.sys.shared.index ∧
      (eff.apply P.sys.shared).fresh = P.sys.shared.fresh := by
    rcases hl with hl | ⟨n, b, hl⟩ <;> rw [hl] <;> exact ⟨rfl, rfl⟩
  obtain ⟨S', hA⟩ := h.serial.act_reject h.unmarked (t := t)
  have hclosed : e'.closed = true := he' ▸ Ending.closed_unlocking
  have hpend' : e'.pending = [] := he' ▸ Ending.pending_unlocking _ _ _
  refine ⟨_, S', h.ended hg hA hix.2
    (h.completes.latch (pending_update (hpend'.trans hpend.symm)) hl) (by rw [hix.1]; exact h.rooted)
    (by rw [hix.1]; exact h.placed) ?_ ((h.twin t).ended hg.thrown (hix.2 ▸ hheld) (fun _ => ?_)
      (fun hlive => ?_) (Ending.fits_of_closed hclosed _ _) fun l n hn => ?_)⟩
  · simpa [Watched.ended, hnc, Conf.act, Hist.step] using h.committed
  · refine Local.like_of_closed hclosed ?_ ?_ ?_ <;> rw [Conf.act, Sys.put_threads_self] <;> rfl
  · have hT : (C.sys.ctx t).cleaned.transaction.TX = true := by
      simpa [Conf.act] using hlive.1
    simp [Ctx.cleaned] at hT
  · rw [he'] at hn
    simpa using Ending.due_unlocking hn

/-- What comes of a step of the validation. -/
theorem Tracks.validated (locked : List NodeId) (hpast : (P.ending t).past = false)
    (hpend : (P.ending t).pending = []) (hnc : (P.ending t).commits = false)
    (hl : eff.apply P.sys.shared = P.sys.shared ∨
      ∃ n b, eff.apply P.sys.shared = P.sys.shared.setNode n ((P.sys.shared.mem n).setLock b))
    (hheld : ∀ n ∈ e'.held, n < P.sys.shared.fresh)
    (he' : e' = .aborting locked ∨ e' = .unlocking locked [] true ∨
      e'.early = true ∧ e'.Fits (eff.apply P.sys.shared) (P.sys.threads t)) :
    ∃ C' S', Tracks (P.ended t eff e') C' S' := by
  rcases he' with rfl | he' | ⟨hearly, hfits⟩
  · obtain ⟨hpast', hafter, hfits⟩ := Ending.past_backing_out (m := m) locked []
    refine ⟨C, S, h.latched hg hpast hpend hnc hl hpast' (Ending.pending_aborting _) (hafter _) hheld
      (hfits _ _) fun l n hn => ?_⟩
    simpa using Ending.due_unlocking hn
  · exact h.rejected hg hpend hnc he' hl hheld
  · obtain ⟨hpast', hpend', hdue, hafter⟩ := Ending.past_of_early hearly
    refine ⟨C, S, h.latched hg hpast hpend hnc hl hpast' hpend' (fun _ => hafter _) hheld
      (by rwa [hafter]) fun l n hn => ?_⟩
    simp [hdue] at hn

end Step

section Validation

variable (h : Tracks P C S) {job : Job V m} {locked : List NodeId}

include h

/-- The nodes that a `TXend` locks are allocated, and it reads them again. -/
theorem Tracks.keys_lt (hthr : P.thrown t = false) (hpast : (P.ending t).past = false)
    (hj : job.Of (P.sys.threads t)) {n : NodeId} (hn : n ∈ job.keys) :
    n < P.sys.shared.fresh ∧ n ∈ job.readSet := by
  have hw := hj.mem_keys.1 hn
  have hlike := (h.twin t).like hthr
  rw [Local.ahead, hpast] at hlike
  have hst : (C.sys.threads t).storage = (P.sys.threads t).storage.trimmed := hlike.storage
  have hs := h.serial.inv.sane t
  refine ⟨?_, hj.mem_readSet.2 ((h.twin t).reads hthr n hw)⟩
  rw [← h.completes.fresh]
  refine hs.readSet n (hs.write_read n ?_)
  show n ∈ (C.sys.threads t).storage.writeSet
  rwa [hst]

/-- The nodes are locked in turn, then those of the read set checked. -/
theorem Tracks.fits_locking {s : Shared K V m} (hj : job.Of (P.sys.threads t)) (hthr : P.thrown t = false)
    (hpast : (P.ending t).past = false) : ∀ {ns : List NodeId}, locked.reverse ++ ns = job.keys →
      Ending.locking job locked ns = .unlocking locked [] true ∨
        (Ending.locking job locked ns).early = true ∧
          (Ending.locking job locked ns).Fits s (P.sys.threads t)
  | [], hk => Ending.fits_checking hj fun k hk' hno => by
    have hmem : k ∈ job.keys := by simpa [← hk] using hk'
    exact absurd (h.keys_lt hthr hpast hj hmem).2 hno
  | _ :: _, _ => .inr ⟨rfl, hj⟩

/-- `TXend` starts. -/
theorem Tracks.txEnd {ch : Choice} (hrest : (P.ending t).resting = true) (hthr : P.thrown t = false)
    (ho : ch.Orders (P.sys.threads t).storage) :
    ∃ C' S', Tracks (P.ended t .none (.start ((P.sys.threads t).job ch))) C' S' := by
  have hp : (Ending.start ((P.sys.threads t).job ch)).Proper := Ending.proper_start (Local.keys_job _ ho)
  obtain ⟨b, hb⟩ := Ending.eq_done_of_resting hrest
  have hpast : (P.ending t).past = false := by rw [hb]; rfl
  have hgoes : P.Goes t .none (.start ((P.sys.threads t).job ch)) := ⟨hthr, fun _ _ _ _ => rfl,
    h.orderly.update hp (Ending.held_start _) (Ending.drawn_of_pending (Ending.pending_start _))⟩
  refine h.validated hgoes [] hpast (by rw [hb]; rfl) (by rw [hb]; rfl) (.inl rfl)
    (fun n hn => ?_) ?_
  · rw [Ending.held_start] at hn
    simp at hn
  · unfold Ending.start
    split_ifs with hT
    · exact .inr (h.fits_locking ⟨hT, ch, ho, rfl⟩ hthr hpast rfl)
    · exact .inl rfl

end Validation

/-! ## One kind of step at a time -/

section Kinds

variable (h : Tracks P C S) {job : Job V m} {n : NodeId} {todo locked : List NodeId}
  (hs : (P.ending t).step P.sys.shared p = some (eff, e'))

include h hs

theorem Tracks.lock (he : P.ending t = .lock job n todo locked) :
    ∃ C' S', Tracks (P.ended t eff e') C' S' := by
  have hg := h.goes hs
  have hp := h.orderly.proper t
  have hj := (h.twin t).fits
  have hheld := (h.twin t).held
  have hpast : (P.ending t).past = false := by rw [he]; rfl
  have hv := h.validated hg locked hpast (by rw [he]; rfl) (by rw [he]; rfl)
  have hv' := h.validated hg (n :: locked) hpast (by rw [he]; rfl) (by rw [he]; rfl)
  rw [he] at hp hj hheld
  simp only [he, Ending.step, Option.some.injEq] at hs
  split_ifs at hs <;> obtain ⟨rfl, rfl⟩ := Prod.mk.inj hs
  · exact hv (.inl rfl) (by rwa [Ending.held_aborting]) (.inl rfl)
  · refine hv' (.inr ⟨n, true, rfl⟩) (fun k hk => ?_) (.inr (h.fits_locking hj hg.thrown hpast ?_))
    · rw [Ending.held_locking] at hk
      rcases List.mem_cons.1 hk with rfl | hk
      · exact (h.keys_lt hg.thrown hpast hj (by rw [← hp.2]; simp)).1
      · exact hheld k hk
    · rw [← hp.2]
      simp

theorem Tracks.check (he : P.ending t = .check job n todo locked) :
    ∃ C' S', Tracks (P.ended t eff e') C' S' := by
  have hg := h.goes hs
  have hfits := (h.twin t).fits
  have hheld := (h.twin t).held
  have hnode : n ∈ locked → C.sys.shared.mem n = (P.sys.shared.mem n).setLock false := fun hn =>
    h.completes.mem_of_held h.orderly (by rw [he]; rfl) (t := t) (by rwa [he])
  have hv := h.validated hg locked (by rw [he]; rfl) (by rw [he]; rfl) (by rw [he]; rfl)
  rw [he] at hfits hheld
  obtain ⟨hj, hver⟩ := hfits
  simp only [he, Ending.step, Option.some.injEq] at hs
  obtain ⟨rfl, he'⟩ := Prod.mk.inj hs
  split_ifs at he' with hlock hnew hmark <;> subst he'
  · exact hv (.inl rfl) (by rwa [Ending.held_aborting]) (.inl rfl)
  · exact hv (.inl rfl) (by rwa [Ending.held_aborting]) (.inl rfl)
  · -- no node has a singleton's mark
    have hu := h.unmarked n
    by_cases hn : n ∈ locked
    · rw [hnode hn] at hu
      exact absurd (hmark.2.symm.trans hu) (by simp)
    · have hfree : (P.sys.shared.mem n).word.lock = false := by simpa [hn] using hlock
      rw [← h.completes.same h.orderly hfree] at hu
      exact absurd (hmark.2.symm.trans hu) (by simp)
  · refine hv (.inl rfl) (by rwa [Ending.held_checking])
      (.inr (Ending.fits_checking hj fun k hk hno => ?_))
    by_cases hkn : k = n
    · rw [hkn]
      exact not_lt.1 hnew
    · exact hver k hk (by simp [hkn, hno])

/-- A step of a `TXend` that has committed ahead. -/
theorem Tracks.caught_up (hpast : (P.ending t).past = true) (hclosed : e'.closed = true)
    (hfresh : (eff.apply P.sys.shared).fresh = P.sys.shared.fresh)
    (hc : Completes (eff.apply P.sys.shared) (Function.update P.ending t e') C.sys.shared)
    (hroot : ∀ l, ((eff.apply P.sys.shared).index l).Rooted (head l))
    (hplaced : ∀ l i, Placed C.sys.shared S l (((eff.apply P.sys.shared).index l).nodes i).node)
    (hheld : ∀ n ∈ e'.held, n ∈ (P.ending t).held)
    (hdue : ∀ u ∈ e'.due, u ∈ (P.ending t).due) : Tracks (P.ended t eff e') C S := by
  have hg := h.goes hs
  have hnc : (P.ending t).commits = false := by
    cases he : P.ending t <;> first | rfl | simp [he, Ending.past] at hpast
  have hlike := (h.twin t).like hg.thrown
  rw [Local.ahead, hpast] at hlike
  exact h.unmoved hg hnc hfresh hc hroot hplaced (fun n hn => (h.twin t).held n (hheld n hn))
    (fun _ => Local.like_of_closed hclosed hlike.storage hlike.TX hlike.readOnly)
    (Ending.fits_of_closed hclosed _ _) fun l n hn => (h.twin t).due l n (hdue _ hn)

theorem Tracks.unlock {us : List (IndexUpdate m)} {b : Bool} (he : P.ending t = .unlock locked us b) :
    ∃ C' S', Tracks (P.ended t eff e') C' S' := by
  have hg := h.goes hs
  have hheld : ∀ k ∈ locked.erase p.node, k ∈ (P.ending t).held := fun k hk => by
    rw [he]
    exact List.mem_of_mem_erase hk
  have hdue : ∀ u ∈ us, u ∈ (P.ending t).due := fun u hu => by rwa [he]
  have hstep : eff = .unlock p.node { (P.sys.shared.mem p.node).word with lock := false } ∧
      e' = .unlocking (locked.erase p.node) us b := by
    have hl := h.orderly.locked t
    rw [he] at hl
    simp only [he, Ending.step, Option.ite_none_right_eq_some, Option.some.injEq] at hs
    obtain ⟨hn, hs⟩ := hs
    rw [if_pos (hl _ hn)] at hs
    exact ⟨(Prod.mk.inj hs).1.symm, (Prod.mk.inj hs).2.symm⟩
  obtain ⟨rfl, rfl⟩ := hstep
  refine ⟨C, S, ?_⟩
  cases b with
  | false =>
    obtain ⟨hpast', hafter, hfits⟩ := Ending.past_backing_out (locked.erase p.node) us
    refine h.latched hg (by rw [he]; rfl) (by rw [he]; rfl) (by rw [he]; rfl)
      (.inr ⟨p.node, false, rfl⟩) hpast' (Ending.pending_unlocking _ _ _) (hafter _) (fun k hk => ?_)
      (hfits _ _) fun l k hk => ?_
    · rw [Ending.held_unlocking] at hk
      exact (h.twin t).held k (hheld k hk)
    · exact (h.twin t).due l k (hdue _ (Ending.due_unlocking hk))
  | true =>
    refine h.caught_up hs (by rw [he]; rfl) Ending.closed_unlocking rfl
      (h.completes.latch (pending_update ?_) (.inr ⟨p.node, false, rfl⟩)) h.rooted h.placed
      (fun k hk => ?_) fun u hu => ?_
    · rw [Ending.pending_unlocking, he]
      rfl
    · rw [Ending.held_unlocking] at hk
      exact hheld k hk
    · exact hdue u (Ending.due_unlocking hu)

theorem Tracks.write {wv : Nat} {w : Write V} {ws : List (Write V)}
    (he : P.ending t = .write job wv w ws locked) : ∃ C' S', Tracks (P.ended t eff e') C' S' := by
  have hstep : eff = w.effect P.sys.shared ∧ e' = .writing job wv locked ws := by
    obtain ⟨_, _, _, _, he₁, -⟩ | ⟨_, _, _, he₁, -⟩ | ⟨_, _, he₁, -⟩ | ⟨_, _, _, _, _, he₁, heff, he'⟩ |
      ⟨-, -, hpend, -⟩ := Ending.step_cases hs (h.orderly.proper t) (h.orderly.locked t)
    · simp [he] at he₁
    · simp [he] at he₁
    · simp [he] at he₁
    · rw [he, Ending.write.injEq] at he₁
      obtain ⟨rfl, rfl, rfl, rfl, rfl⟩ := he₁
      exact ⟨heff, he'⟩
    · simp [he, Ending.pending] at hpend
  obtain ⟨rfl, rfl⟩ := hstep
  have hsame : ((w.effect P.sys.shared).apply P.sys.shared).index = P.sys.shared.index ∧
      ((w.effect P.sys.shared).apply P.sys.shared).fresh = P.sys.shared.fresh := by
    cases w <;> exact ⟨rfl, rfl⟩
  refine ⟨C, S, h.caught_up hs (by rw [he]; rfl) (Ending.closed_writing _) hsame.2 (h.completes.write ?_)
    (by rw [hsame.1]; exact h.rooted) (by rw [hsame.1]; exact h.placed) (fun k hk => ?_) fun u hu => ?_⟩
  · rw [Ending.pending_writing, he]
    rfl
  · rw [Ending.held_writing] at hk
    rwa [he]
  · rw [he]
    exact Ending.due_writing hu

/-- A step that leaves an index whose nodes are on the list or gone from it. -/
theorem Tracks.reindexed {u : IndexUpdate m} {us : List (IndexUpdate m)} {l : ListId m} {ix : Index}
    (he : P.ending t = .index u us) (heff : eff = .index l ix) (he' : e' = .indexing us)
    (hroot : ix.Rooted (head l)) (hplaced : ∀ i, Placed C.sys.shared S l (ix.nodes i).node) :
    Tracks (P.ended t eff e') C S := by
  subst heff he'
  have hpend : (Ending.indexing us : Ending V m).pending = (P.ending t).pending := by
    rw [he, Ending.pending_indexing]
    rfl
  refine h.caught_up hs (by rw [he]; rfl) (Ending.closed_indexing us) rfl
    (h.completes.congr (pending_update hpend) rfl rfl fun _ => rfl) (fun l' => ?_) (fun l' i => ?_)
    (fun k hk => by simp at hk) fun u hu => ?_
  · by_cases hl : l' = l
    · subst hl
      simpa [Effect.apply] using hroot
    · simpa [Effect.apply, hl] using h.rooted l'
  · by_cases hl : l' = l
    · subst hl
      simpa [Effect.apply] using hplaced i
    · simpa [Effect.apply, hl] using h.placed l' i
  · rw [Ending.due_indexing] at hu
    rw [he]
    exact List.mem_cons_of_mem _ hu

theorem Tracks.index {u : IndexUpdate m} {us : List (IndexUpdate m)} (he : P.ending t = .index u us) :
    ∃ C' S', Tracks (P.ended t eff e') C' S' := by
  have hdue := (h.twin t).due
  have hs' := hs
  rw [he] at hs' hdue
  cases u with
  | add l n =>
    obtain ⟨ix, hix, hp⟩ := Option.map_eq_some_iff.1 hs'
    obtain ⟨heff, he'⟩ := Prod.mk.inj hp
    refine ⟨C, S, h.reindexed hs he heff.symm he'.symm ((h.rooted l).add hix) fun i => ?_⟩
    rcases Index.nodes_add hix i with ⟨j, hj⟩ | hi
    · rw [hj]
      exact h.placed l j
    · rw [hi]
      exact hdue l n (List.mem_cons_self ..)
  | remove l n =>
    obtain ⟨ix, hix, hp⟩ := Option.map_eq_some_iff.1 hs'
    obtain ⟨heff, he'⟩ := Prod.mk.inj hp
    refine ⟨C, S, h.reindexed hs he heff.symm he'.symm ((h.rooted l).remove hix) fun i => ?_⟩
    rw [Index.node_remove hix]
    exact h.placed l i
  | retire n =>
    have hpend : (Ending.indexing us : Ending V m).pending = (P.ending t).pending := by
      rw [he, Ending.pending_indexing]
      rfl
    obtain ⟨rfl, rfl⟩ := Prod.mk.inj (Option.some.inj hs')
    refine ⟨C, S, h.caught_up hs (by rw [he]; rfl) (Ending.closed_indexing us) rfl
      (h.completes.congr (pending_update hpend) rfl rfl fun _ => rfl) h.rooted h.placed
      (fun k hk => by simp at hk) fun u hu => ?_⟩
    rw [Ending.due_indexing] at hu
    rw [he]
    exact List.mem_cons_of_mem _ hu

/-- With its nodes locked and found no newer than its read version, a transaction is live ahead. -/
theorem Tracks.live (he : P.ending t = .increment job locked) : (C.sys.ctx t).Live := by
  have hlike := (h.twin t).like (h.goes hs).thrown
  have hp := h.orderly.proper t
  have hfits := (h.twin t).fits
  rw [he] at hlike hp hfits
  obtain ⟨hj, -, hver⟩ := hfits
  have hst : (C.sys.threads t).storage = (P.sys.threads t).storage.trimmed := hlike.storage
  have hrv : (C.sys.threads t).transaction.readVersion = job.readVersion := by
    obtain ⟨hT, ch, -, rfl⟩ := hj
    exact hlike.readVersion hT
  refine ⟨hlike.TX.trans hj.1, fun n hn hm => ?_⟩
  have hn : n ∈ locked := by
    have hmem : n ∈ (C.sys.threads t).storage.readSet := hn
    rw [hst, LocalStorage.mem_readSet_trimmed] at hmem
    have hk := hj.mem_keys.2 hmem
    rw [← hp.2] at hk
    exact List.mem_reverse.1 hk
  have hmem : C.sys.shared.mem n = (P.sys.shared.mem n).setLock false :=
    h.completes.mem_of_held h.orderly (by rw [he]; rfl) (t := t) (by rwa [he])
  have hm : Marked (C.sys.shared.mem n) (C.sys.threads t).transaction.readVersion := hm
  rcases hm with hlt | ⟨-, hmark⟩
  · rw [hrv, hmem] at hlt
    exact absurd (hver n hn) (not_le.2 hlt)
  · exact absurd ((h.unmarked n).symm.trans hmark) (by simp)

/-- The step moves the clock on and turns to the writes. -/
theorem Tracks.step_increment (he : P.ending t = .increment job locked) :
    eff = .increment ∧ e' = .writing job (P.sys.shared.gvc + 1) locked
      (job.writes (P.sys.shared.gvc + 1)) := by
  have hlike := (h.twin t).like (h.goes hs).thrown
  have hfits := (h.twin t).fits
  rw [he] at hlike hfits
  obtain ⟨⟨hT, ch, -, rfl⟩, -⟩ := hfits
  have hrv : ((P.sys.threads t).job ch).readVersion < P.sys.shared.gvc + 1 := by
    rw [← h.completes.gvc]
    refine Nat.lt_succ_of_le (le_of_eq_of_le ?_ (h.serial.inv.sane t).readVersion)
    exact (hlike.readVersion hT).symm
  rw [he] at hs
  simp only [Ending.step, if_pos hrv, Option.some.injEq] at hs
  obtain ⟨heff, he'⟩ := Prod.mk.inj hs
  exact ⟨heff.symm, he'.symm⟩

theorem Tracks.increment (he : P.ending t = .increment job locked) :
    ∃ C' S', Tracks (P.ended t eff e') C' S' := by
  have hg := h.goes hs
  have hlive := h.live hs he
  have hlike := (h.twin t).like hg.thrown
  have hp := h.orderly.proper t
  have hfits := (h.twin t).fits
  rw [he] at hlike hp hfits
  obtain ⟨hj, hro, -⟩ := hfits
  have hst : (C.sys.threads t).storage = (P.sys.threads t).storage.trimmed := hlike.storage
  obtain ⟨rfl, rfl⟩ := h.step_increment hs he
  have hroC : (C.sys.threads t).transaction.readOnly = false := by
    obtain ⟨hT, ch, -, rfl⟩ := hj
    exact hlike.readOnly.trans hro
  obtain ⟨ix, S', hA, hadd⟩ := h.serial.act_commit h.unmarked hlive hroC
  have hc : Completes (Effect.increment.apply P.sys.shared)
      (Function.update P.ending t (.writing job (P.sys.shared.gvc + 1) locked
        (job.writes (P.sys.shared.gvc + 1))))
      { C.sys.shared.commit (C.sys.threads t).storage.writeSet with index := ix } := by
    refine h.completes.increment h.orderly (by rw [he]; rfl) (Ending.pending_writing _ _ _ _) hp.1
      (fun n hn => ?_) fun n we => ?_
    · rw [he]
      rw [← hp.2] at hn
      exact List.mem_reverse.1 hn
    · rw [hst]
      exact hj.mem_writeSet
  refine ⟨_, S', h.ended hg hA rfl hc h.rooted h.placed ?_ ((h.twin t).ended hg.thrown (fun n hn => ?_)
    (fun _ => ?_) (fun hl => ?_) (Ending.fits_of_closed (Ending.closed_writing _) _ _) fun l n hn => ?_)⟩
  · have hcom : (P.ended t Effect.increment (.writing job (P.sys.shared.gvc + 1) locked
        (job.writes (P.sys.shared.gvc + 1)))).commits = P.commits ++ [P.updates t] := by
      simp [Watched.ended, he, Ending.commits]
    rw [hcom, Conf.act, (Hist.step_commit _ _ (by simp)).2, List.flatten_append, List.flatten_append,
      Maps.replay_append, Maps.update_append, h.committed, List.flatten_singleton, List.flatten_singleton]
    exact (h.twin t).updates hlive _
  · rw [Ending.held_writing] at hn
    exact (h.twin t).held n (by rwa [he])
  · refine Local.like_of_closed (Ending.closed_writing _) ?_ ?_ ?_ <;>
      rw [Conf.act, Sys.put_threads_self] <;> rfl
  · have hT := hl.1
    rw [Conf.act, Sys.ctx_put_self] at hT
    simp [Ctx.cleaned] at hT
  · refine hadd l n ?_
    rw [hst]
    exact hj.mem_indexAdd (Ending.due_writing hn)

/-- Every step of a `TXend` is followed ahead. -/
theorem Tracks.go : ∃ C' S', Tracks (P.ended t eff e') C' S' := by
  have hfits := (h.twin t).fits
  cases he : P.ending t with
  | lock job n todo locked => exact h.lock hs he
  | check job n todo locked => exact h.check hs he
  | moveOn n locked | clearMark n locked | stopped f =>
    rw [he] at hfits
    exact hfits.elim
  | increment job locked => exact h.increment hs he
  | write job wv w ws locked => exact h.write hs he
  | unlock locked us b => exact h.unlock hs he
  | index u us => exact h.index hs he
  | done b => simp [he, Ending.step] at hs

end Kinds

end Ends

end TxList
