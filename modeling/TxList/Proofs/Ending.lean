import TxList.Ending
import TxList.Proofs.Within

/-!
# The locks and the writes of `TXend`

Any number of threads each at some step of a `TXend`. The nodes a thread has locked are locked, and no
two threads hold the same one. A thread that writes holds every node it has still to write to, its write
version is not ahead of the clock, and no node it holds has a greater version.
-/

namespace TxList

variable {K V : Type} {m : Nat}

/-! ## The writes -/

/-- The nodes of the write set. -/
def Job.keys (job : Job V m) : List NodeId := job.writeSet.map Prod.fst

/-- What a write does to the shared memory. -/
def Write.effect (s : Shared K V m) : Write V → Effect K V m
  | .next n o => .next n o
  | .val n v => .val n v
  | .set n f => .store n (f.apply (s.mem n).word)

theorem Setter.lock_apply (f : Setter) (w : Word) : (f.apply w).lock = w.lock := by
  cases f <;> rfl

namespace Write

variable {s : Shared K V m} {n : NodeId} {w : Write V}

theorem mem_effect_of_ne (h : n ≠ w.node) : ((w.effect s).apply s).mem n = s.mem n := by
  cases w <;> exact (Shared.mem_setNode _ _ _ _).trans (if_neg h)

theorem lock_effect (w : Write V) (s : Shared K V m) (n : NodeId) :
    (((w.effect s).apply s).mem n).word.lock = (s.mem n).word.lock := by
  by_cases h : n = w.node
  · subst h
    cases w with
    | next k o | val k v => simp [effect, Effect.apply, Shared.mem_setNode, node]
    | set k f => simp [effect, Effect.apply, Shared.mem_setNode, node, Setter.lock_apply]
  · rw [mem_effect_of_ne h]

end Write

theorem WriteElement.node_of_mem {we : WriteElement V} {n : NodeId} {wv : Nat} {w : Write V}
    (h : w ∈ we.writes n wv) : w.node = n := by
  unfold WriteElement.writes at h
  split_ifs at h <;> simp only [List.cons_append, List.nil_append, List.mem_cons, List.not_mem_nil,
    or_false] at h
  · rcases h with rfl | rfl | rfl | rfl | rfl | rfl <;> rfl
  · rcases h with rfl | rfl | rfl | rfl <;> rfl

/-- A commit's setters. -/
theorem WriteElement.setter_of_mem {we : WriteElement V} {n k : NodeId} {wv : Nat} {f : Setter}
    (h : .set k f ∈ we.writes n wv) :
    f = .setDeleted true ∨ f = .setVersion wv ∨ f = .setSingleton false := by
  unfold WriteElement.writes at h
  split_ifs at h <;> simp at h <;> tauto

theorem WriteElement.stamp_mem (we : WriteElement V) (n : NodeId) (wv : Nat) :
    .set n (.setVersion wv) ∈ we.writes n wv := by
  simp [WriteElement.writes]

namespace Job

variable {job : Job V m} {n : NodeId} {wv : Nat} {w : Write V} {ws : List (Write V)}

theorem node_of_mem (h : w ∈ job.writes wv) : w.node ∈ job.keys := by
  obtain ⟨x, hx, hw⟩ := List.mem_flatMap.1 h
  rw [WriteElement.node_of_mem hw]
  exact List.mem_map_of_mem hx

theorem setter_of_mem {f : Setter} (h : .set n f ∈ job.writes wv) :
    f = .setDeleted true ∨ f = .setVersion wv ∨ f = .setSingleton false := by
  obtain ⟨x, -, hw⟩ := List.mem_flatMap.1 h
  exact WriteElement.setter_of_mem hw

theorem stamp_mem (h : n ∈ job.keys) : .set n (.setVersion wv) ∈ job.writes wv := by
  obtain ⟨x, hx, rfl⟩ := List.mem_map.1 h
  exact List.mem_flatMap.2 ⟨x, hx, x.2.stamp_mem x.1 wv⟩

/-- A write that comes before the stamp of its node has the stamp still to come. -/
theorem stamp_of_write (hstamp : w ≠ .set w.node (.setVersion wv))
    (hsingle : w ≠ .set w.node (.setSingleton false)) : ∀ xs : List (NodeId × WriteElement V),
    (w :: ws) <:+ xs.flatMap (fun x => x.2.writes x.1 wv) → .set w.node (.setVersion wv) ∈ ws
  | [], h => by simp at h
  | x :: xs, ⟨pre, hpre⟩ => by
    rw [List.flatMap_cons] at hpre
    rcases List.append_eq_append_iff.1 hpre with ⟨a, hx, hws⟩ | ⟨c, -, hws⟩
    · rcases a with _ | ⟨v, a⟩
      · exact stamp_of_write hstamp hsingle xs ⟨[], hws⟩
      · obtain ⟨rfl, rfl⟩ := List.cons_eq_cons.1 hws
        have hnode : w.node = x.1 := WriteElement.node_of_mem (by rw [hx]; simp)
        -- the node's writes end with the stamp and the cleared mark, and `w` is neither
        have hsplit : x.2.writes w.node wv = (.next w.node x.2.next :: .val w.node x.2.val ::
            (if x.2.deleted then [.set w.node (.setDeleted true), .val w.node none] else [])) ++
              [.set w.node (.setVersion wv), .set w.node (.setSingleton false)] := rfl
        rw [← hnode, hsplit] at hx
        rcases List.append_eq_append_iff.1 hx with ⟨b, -, hb⟩ | ⟨b, -, hb⟩
        · have hmem : w ∈ [.set w.node (.setVersion wv), .set w.node (.setSingleton false)] := by
            rw [hb]; simp
          simp only [List.mem_cons, List.not_mem_nil, or_false] at hmem
          exact absurd hmem (not_or.2 ⟨hstamp, hsingle⟩)
        · rcases b with _ | ⟨v, b⟩
          · exact absurd (List.cons_eq_cons.1 hb).1 hstamp
          · obtain ⟨-, rfl⟩ := List.cons_eq_cons.1 hb
            simp
    · exact stamp_of_write hstamp hsingle xs ⟨c, hws.symm⟩

end Job

/-- Nothing in memory changes but for a singleton's mark that is cleared. -/
def Effect.Quiet (s : Shared K V m) (eff : Effect K V m) : Prop :=
  ∀ n, (eff.apply s).mem n = s.mem n ∨ (eff.apply s).mem n = (s.mem n).setSingleton false

/-! ## One thread -/

namespace Ending

/-- The writes left. -/
def pending : Ending V m → List (Write V)
  | .write _ _ w ws _ => w :: ws
  | _ => []

/-- The write version, as long as there are writes left. -/
def drawn : Ending V m → Option Nat
  | .write _ writeVersion _ _ _ => some writeVersion
  | _ => none

/-- What is locked and what is still to be done belong to one job. -/
def Proper : Ending V m → Prop
  | .lock job n todo locked => job.keys.Nodup ∧ locked.reverse ++ n :: todo = job.keys
  | .check job n todo locked =>
    job.keys.Nodup ∧ locked.reverse = job.keys ∧ (n :: todo) <:+ job.readSet
  | .increment job locked => job.keys.Nodup ∧ locked.reverse = job.keys
  | .write job writeVersion w ws locked =>
    job.keys.Nodup ∧ locked.reverse = job.keys ∧ (w :: ws) <:+ job.writes writeVersion
  | .moveOn _ locked | .clearMark _ locked | .unlock locked _ _ => locked.Nodup
  | .index _ _ | .done _ | .stopped _ => True

section Shapes

variable (job : Job V m) (locked : List NodeId) (us : List (IndexUpdate m)) (b : Bool) (wv : Nat)

@[simp] theorem held_indexing : ∀ us : List (IndexUpdate m), (indexing us : Ending V m).held = []
  | [] => rfl
  | _ :: _ => rfl

@[simp] theorem held_unlocking : (unlocking locked us b : Ending V m).held = locked := by
  unfold unlocking
  split_ifs with h hb
  · rw [held_indexing, h]
  · exact h.symm
  · rfl

@[simp] theorem held_aborting : (aborting locked : Ending V m).held = locked := held_unlocking _ _ _

@[simp] theorem held_writing : ∀ ws, (writing job wv locked ws).held = locked
  | [] => held_unlocking _ _ _
  | _ :: _ => rfl

@[simp] theorem held_checking : ∀ ns, (checking job locked ns).held = locked
  | [] => by
    unfold checking
    split_ifs
    · exact held_unlocking _ _ _
    · rfl
  | _ :: _ => rfl

@[simp] theorem held_locking : ∀ ns, (locking job locked ns).held = locked
  | [] => held_checking _ _ _
  | _ :: _ => rfl

@[simp] theorem pending_indexing : ∀ us : List (IndexUpdate m), (indexing us : Ending V m).pending = []
  | [] => rfl
  | _ :: _ => rfl

@[simp] theorem pending_unlocking : (unlocking locked us b : Ending V m).pending = [] := by
  unfold unlocking
  split_ifs
  · exact pending_indexing us
  · rfl
  · rfl

@[simp] theorem pending_aborting : (aborting locked : Ending V m).pending = [] := pending_unlocking _ _ _

@[simp] theorem pending_writing : ∀ ws, (writing job wv locked ws).pending = ws
  | [] => pending_unlocking _ _ _
  | _ :: _ => rfl

@[simp] theorem pending_checking : ∀ ns, (checking job locked ns).pending = []
  | [] => by
    unfold checking
    split_ifs
    · exact pending_unlocking _ _ _
    · rfl
  | _ :: _ => rfl

@[simp] theorem pending_locking : ∀ ns, (locking job locked ns).pending = []
  | [] => pending_checking _ _ _
  | _ :: _ => rfl

theorem drawn_of_pending {e : Ending V m} (h : e.pending = []) : e.drawn = none := by
  cases e <;> first | rfl | simp [pending] at h

@[simp] theorem held_start : (start job).held = [] := by
  unfold start
  split_ifs
  · exact held_locking _ _ _
  · exact held_aborting _

@[simp] theorem pending_start : (start job).pending = [] := by
  unfold start
  split_ifs
  · exact pending_locking _ _ _
  · exact pending_aborting _

theorem drawn_writing {wv' : Nat} : ∀ {ws}, (writing job wv locked ws).drawn = some wv' → wv = wv'
  | [], h => by simp [writing, drawn_of_pending] at h
  | _ :: _, h => Option.some.inj h

end Shapes

section Proper

variable {job : Job V m} {locked : List NodeId} {us : List (IndexUpdate m)} {b : Bool} {wv : Nat}

theorem proper_indexing : ∀ us : List (IndexUpdate m), (indexing us : Ending V m).Proper
  | [] => trivial
  | _ :: _ => trivial

theorem proper_unlocking (h : locked.Nodup) : (unlocking locked us b : Ending V m).Proper := by
  unfold unlocking
  split_ifs
  · exact proper_indexing us
  · trivial
  · exact h

theorem proper_aborting (h : locked.Nodup) : (aborting locked : Ending V m).Proper := proper_unlocking h

theorem nodup_locked (h : job.keys.Nodup) (hl : locked.reverse = job.keys) : locked.Nodup :=
  List.nodup_reverse.1 (hl ▸ h)

theorem proper_writing (h : job.keys.Nodup) (hl : locked.reverse = job.keys) :
    ∀ {ws}, ws <:+ job.writes wv → (writing job wv locked ws).Proper
  | [], _ => proper_unlocking (nodup_locked h hl)
  | _ :: _, hws => ⟨h, hl, hws⟩

theorem proper_checking (h : job.keys.Nodup) (hl : locked.reverse = job.keys) :
    ∀ {ns}, ns <:+ job.readSet → (checking job locked ns).Proper
  | [], _ => by
    unfold checking
    split_ifs
    · exact proper_unlocking (nodup_locked h hl)
    · exact ⟨h, hl⟩
  | _ :: _, hns => ⟨h, hl, hns⟩

theorem proper_locking (h : job.keys.Nodup) :
    ∀ {ns locked}, locked.reverse ++ ns = job.keys → (locking job locked ns).Proper
  | [], locked, hl => proper_checking h (by simpa using hl) (List.suffix_refl _)
  | _ :: _, _, hl => ⟨h, hl⟩

theorem proper_start (h : job.keys.Nodup) : (start job).Proper := by
  unfold start
  split_ifs
  · exact proper_locking h rfl
  · exact proper_aborting List.nodup_nil

/-- No node is locked twice. -/
theorem Proper.nodup {e : Ending V m} (h : e.Proper) : e.held.Nodup := by
  cases e with
  | lock job n todo locked =>
    have hnd := h.1
    rw [← h.2, List.nodup_append] at hnd
    exact List.nodup_reverse.1 hnd.1
  | check job n todo locked | increment job locked | write job wv w ws locked =>
    exact nodup_locked h.1 (by first | exact h.2.1 | exact h.2)
  | moveOn n locked | clearMark n locked | unlock locked us b => exact h
  | index u us | done b | stopped f => exact List.nodup_nil

/-- A thread holds the nodes it has still to write to. -/
theorem Proper.holds {e : Ending V m} (h : e.Proper) {w : Write V} (hw : w ∈ e.pending) :
    w.node ∈ e.held := by
  cases e with
  | write job wv w ws locked =>
    have hk := Job.node_of_mem (h.2.2.subset hw)
    rw [← h.2.1] at hk
    exact List.mem_reverse.1 hk
  | _ => simp [pending] at hw

theorem Proper.setter {e : Ending V m} (h : e.Proper) (hd : e.drawn = some wv) {n : NodeId} {f : Setter}
    (hw : .set n f ∈ e.pending) : f = .setDeleted true ∨ f = .setVersion wv ∨ f = .setSingleton false := by
  cases e with
  | write job v w ws locked =>
    obtain rfl := Option.some.inj hd
    exact Job.setter_of_mem (h.2.2.subset hw)
  | _ => simp [pending] at hw

end Proper

section Step

variable [LinearOrder K] {s : Shared K V m} {p : Pick} {e e' : Ending V m} {eff : Effect K V m}

/-- What one step does: it takes a lock, gives one back, draws the write version, writes, or leaves the
nodes alone. -/
theorem step_cases (h : e.step s p = some (eff, e')) (hp : e.Proper)
    (hl : ∀ n ∈ e.held, (s.mem n).word.lock = true) :
    (∃ job n todo locked, e = .lock job n todo locked ∧ (s.mem n).word.lock = false ∧
      eff = .lock n { (s.mem n).word with lock := true } ∧ e' = locking job (n :: locked) todo) ∨
    (∃ locked us b, e = .unlock locked us b ∧ p.node ∈ locked ∧
      eff = .unlock p.node { (s.mem p.node).word with lock := false } ∧
      e' = unlocking (locked.erase p.node) us b) ∨
    (∃ job locked, e = .increment job locked ∧ eff = .increment ∧
      (e' = writing job (s.gvc + 1) locked (job.writes (s.gvc + 1)) ∨ e' = .stopped .writeVersion)) ∨
    (∃ job wv w ws locked, e = .write job wv w ws locked ∧ eff = w.effect s ∧
      e' = writing job wv locked ws) ∨
    (eff.Quiet s ∧ (e'.held = e.held ∨ e'.held = []) ∧ e.pending = [] ∧ e'.pending = []) := by
  have hquiet : Effect.Quiet s (.none : Effect K V m) := fun n => .inl rfl
  cases e with
  | lock job n todo locked =>
    simp only [step, Option.some.injEq] at h
    split_ifs at h with hw <;> obtain ⟨rfl, rfl⟩ := Prod.mk.inj h
    · exact .inr (.inr (.inr (.inr ⟨hquiet, .inl (held_aborting _), rfl, pending_aborting _⟩)))
    · exact .inl ⟨job, n, todo, locked, rfl, by simpa using hw, rfl, rfl⟩
  | check job n todo locked =>
    simp only [step, Option.some.injEq] at h
    refine .inr (.inr (.inr (.inr ?_)))
    obtain ⟨rfl, he⟩ := Prod.mk.inj h
    split_ifs at he <;> subst he
    · exact ⟨hquiet, .inl (held_aborting _), rfl, pending_aborting _⟩
    · exact ⟨hquiet, .inl (held_aborting _), rfl, pending_aborting _⟩
    · exact ⟨hquiet, .inl rfl, rfl, rfl⟩
    · exact ⟨hquiet, .inl (held_checking _ _ _), rfl, pending_checking _ _ _⟩
  | moveOn n locked =>
    obtain ⟨rfl, rfl⟩ := Prod.mk.inj (Option.some.inj h)
    exact .inr (.inr (.inr (.inr ⟨fun n => .inl rfl, .inl rfl, rfl, rfl⟩)))
  | clearMark n locked =>
    simp only [step, Option.some.injEq] at h
    refine .inr (.inr (.inr (.inr ?_)))
    split_ifs at h <;> obtain ⟨rfl, rfl⟩ := Prod.mk.inj h
    · refine ⟨fun k => ?_, .inl (held_aborting _), rfl, pending_aborting _⟩
      simp only [Effect.apply, Shared.mem_setNode]
      split_ifs with hk
      · subst hk
        exact .inr rfl
      · exact .inl rfl
    · exact ⟨hquiet, .inr rfl, rfl, rfl⟩
  | increment job locked =>
    simp only [step, Option.some.injEq] at h
    refine .inr (.inr (.inl ⟨job, locked, rfl, ?_⟩))
    obtain ⟨rfl, he⟩ := Prod.mk.inj h
    split_ifs at he <;> subst he
    · exact ⟨rfl, .inl rfl⟩
    · exact ⟨rfl, .inr rfl⟩
  | write job wv w ws locked =>
    refine .inr (.inr (.inr (.inl ⟨job, wv, w, ws, locked, rfl, ?_⟩)))
    have hw : (s.mem w.node).word.lock = true := hl _ (hp.holds (List.mem_cons_self ..))
    cases w with
    | next n o | val n v =>
      obtain ⟨rfl, rfl⟩ := Prod.mk.inj (Option.some.inj h)
      exact ⟨rfl, rfl⟩
    | set n f =>
      have hw : (s.mem n).word.lock = true := hw
      simp only [step, Option.some.injEq, if_pos hw] at h
      obtain ⟨rfl, rfl⟩ := Prod.mk.inj h
      exact ⟨rfl, rfl⟩
  | unlock locked us b =>
    refine .inr (.inl ⟨locked, us, b, rfl, ?_⟩)
    simp only [step, Option.ite_none_right_eq_some, Option.some.injEq] at h
    obtain ⟨hn, h⟩ := h
    rw [if_pos (hl _ hn)] at h
    obtain ⟨rfl, rfl⟩ := Prod.mk.inj h
    exact ⟨hn, rfl, rfl⟩
  | index u us =>
    refine .inr (.inr (.inr (.inr ?_)))
    cases u with
    | add l n =>
      obtain ⟨ix, -, he⟩ := Option.map_eq_some_iff.1 h
      obtain ⟨rfl, rfl⟩ := Prod.mk.inj he
      exact ⟨fun n => .inl rfl, .inl (held_indexing us), rfl, pending_indexing us⟩
    | remove l n =>
      obtain ⟨ix, -, he⟩ := Option.map_eq_some_iff.1 h
      obtain ⟨rfl, rfl⟩ := Prod.mk.inj he
      exact ⟨fun n => .inl rfl, .inl (held_indexing us), rfl, pending_indexing us⟩
    | retire n =>
      obtain ⟨rfl, rfl⟩ := Prod.mk.inj (Option.some.inj h)
      exact ⟨fun n => .inl rfl, .inl (held_indexing us), rfl, pending_indexing us⟩
  | done b | stopped f => simp [step] at h

/-- A step stays within the job. -/
theorem Proper.step (hp : e.Proper) (h : e.step s p = some (eff, e')) : e'.Proper := by
  cases e with
  | lock job n todo locked =>
    obtain ⟨hk, hlk⟩ := hp
    simp only [Ending.step, Option.some.injEq] at h
    split_ifs at h <;> obtain ⟨rfl, rfl⟩ := Prod.mk.inj h
    · exact proper_aborting (Proper.nodup (e := .lock job n todo locked) ⟨hk, hlk⟩)
    · exact proper_locking hk (by simpa using hlk)
  | check job n todo locked =>
    obtain ⟨hk, hlk, hns⟩ := hp
    have hnd := nodup_locked hk hlk
    simp only [Ending.step, Option.some.injEq] at h
    obtain ⟨-, he⟩ := Prod.mk.inj h
    split_ifs at he <;> subst he
    · exact proper_aborting hnd
    · exact proper_aborting hnd
    · exact hnd
    · exact proper_checking hk hlk ((List.suffix_cons _ _).trans hns)
  | moveOn n locked =>
    obtain ⟨rfl, rfl⟩ := Prod.mk.inj (Option.some.inj h)
    exact hp
  | clearMark n locked =>
    simp only [Ending.step, Option.some.injEq] at h
    split_ifs at h <;> obtain ⟨rfl, rfl⟩ := Prod.mk.inj h
    · exact proper_aborting hp
    · trivial
  | increment job locked =>
    simp only [Ending.step, Option.some.injEq] at h
    obtain ⟨-, he⟩ := Prod.mk.inj h
    split_ifs at he <;> subst he
    · exact proper_writing hp.1 hp.2 (List.suffix_refl _)
    · trivial
  | write job wv w ws locked =>
    obtain ⟨hk, hlk, hws⟩ := hp
    have hnext := proper_writing hk hlk ((List.suffix_cons _ _).trans hws)
    cases w with
    | next n o | val n v =>
      obtain ⟨rfl, rfl⟩ := Prod.mk.inj (Option.some.inj h)
      exact hnext
    | set n f =>
      simp only [Ending.step, Option.some.injEq] at h
      split_ifs at h <;> obtain ⟨rfl, rfl⟩ := Prod.mk.inj h
      · exact hnext
      · trivial
  | unlock locked us b =>
    simp only [Ending.step, Option.ite_none_right_eq_some, Option.some.injEq] at h
    obtain ⟨-, h⟩ := h
    split_ifs at h <;> obtain ⟨rfl, rfl⟩ := Prod.mk.inj h
    · exact proper_unlocking (hp.erase _)
    · trivial
  | index u us =>
    cases u with
    | add l n | remove l n =>
      obtain ⟨ix, -, he⟩ := Option.map_eq_some_iff.1 h
      obtain ⟨-, rfl⟩ := Prod.mk.inj he
      exact proper_indexing us
    | retire n =>
      obtain ⟨-, rfl⟩ := Prod.mk.inj (Option.some.inj h)
      exact proper_indexing us
  | done b | stopped f => simp [Ending.step] at h

/-- A node locked by another thread stays so, with its version. -/
theorem others_step (h : e.step s p = some (eff, e')) (hp : e.Proper)
    (hl : ∀ n ∈ e.held, (s.mem n).word.lock = true) {n : NodeId} (hn : n ∉ e.held)
    (hlock : (s.mem n).word.lock = true) :
    ((eff.apply s).mem n).word.lock = true ∧
      ((eff.apply s).mem n).word.version = (s.mem n).word.version ∧ n ∉ e'.held := by
  obtain ⟨job, k, todo, locked, rfl, hk, rfl, rfl⟩ | ⟨locked, us, b, rfl, hk, rfl, rfl⟩ |
    ⟨job, locked, rfl, rfl, he⟩ | ⟨job, wv, w, ws, locked, rfl, rfl, rfl⟩ | ⟨hq, hheld, -, -⟩ :=
    step_cases h hp hl
  · have hne : n ≠ k := fun he => by rw [he, hk] at hlock; simp at hlock
    rw [held_locking]
    simp only [Effect.apply, Shared.mem_setNode, if_neg hne]
    exact ⟨hlock, trivial, fun hmem => (List.mem_cons.1 hmem).elim hne hn⟩
  · have hne : n ≠ p.node := fun he => hn (he ▸ hk)
    rw [held_unlocking]
    simp only [Effect.apply, Shared.mem_setNode, if_neg hne]
    exact ⟨hlock, trivial, fun hmem => hn (List.mem_of_mem_erase hmem)⟩
  · refine ⟨hlock, rfl, ?_⟩
    rcases he with rfl | rfl
    · rwa [held_writing]
    · exact List.not_mem_nil
  · have hne : n ≠ w.node := fun he => hn (he ▸ hp.holds (List.mem_cons_self ..))
    rw [held_writing, Write.mem_effect_of_ne hne]
    exact ⟨hlock, rfl, hn⟩
  · have hn' : n ∉ e'.held := by
      rcases hheld with hh | hh <;> rw [hh]
      · exact hn
      · exact List.not_mem_nil
    rcases hq n with hmem | hmem <;> rw [hmem] <;> exact ⟨hlock, rfl, hn'⟩

/-- The nodes held after a step are locked. -/
theorem holds_step (h : e.step s p = some (eff, e')) (hp : e.Proper)
    (hl : ∀ n ∈ e.held, (s.mem n).word.lock = true) {n : NodeId} (hn : n ∈ e'.held) :
    ((eff.apply s).mem n).word.lock = true := by
  have hnd := hp.nodup
  obtain ⟨job, k, todo, locked, rfl, hk, rfl, rfl⟩ | ⟨locked, us, b, rfl, hk, rfl, rfl⟩ |
    ⟨job, locked, rfl, rfl, he⟩ | ⟨job, wv, w, ws, locked, rfl, rfl, rfl⟩ | ⟨hq, hheld, -, -⟩ :=
    step_cases h hp hl
  · rw [held_locking] at hn
    simp only [Effect.apply, Shared.mem_setNode]
    split_ifs with hne
    · rfl
    · exact hl n ((List.mem_cons.1 hn).resolve_left hne)
  · rw [held_unlocking] at hn
    obtain ⟨hne, hn⟩ := (List.Nodup.mem_erase_iff hnd).1 hn
    simp only [Effect.apply, Shared.mem_setNode, if_neg hne]
    exact hl n hn
  · rcases he with rfl | rfl
    · rw [held_writing] at hn
      exact hl n hn
    · exact absurd hn List.not_mem_nil
  · rw [held_writing] at hn
    rw [Write.lock_effect]
    exact hl n hn
  · have hn' : n ∈ e.held := by
      rcases hheld with hh | hh <;> rw [hh] at hn
      · exact hn
      · exact absurd hn List.not_mem_nil
    rcases hq n with hmem | hmem <;> rw [hmem] <;> exact hl n hn'

/-- A node's version changes only when a commit stamps it. -/
theorem version_step (h : e.step s p = some (eff, e')) (hp : e.Proper)
    (hl : ∀ n ∈ e.held, (s.mem n).word.lock = true) (n : NodeId) :
    ((eff.apply s).mem n).word.version = (s.mem n).word.version ∨
      ∃ wv ws, e.drawn = some wv ∧ e.pending = .set n (.setVersion wv) :: ws ∧
        ((eff.apply s).mem n).word.version = wv := by
  obtain ⟨job, k, todo, locked, rfl, hk, rfl, rfl⟩ | ⟨locked, us, b, rfl, hk, rfl, rfl⟩ |
    ⟨job, locked, rfl, rfl, he⟩ | ⟨job, wv, w, ws, locked, rfl, rfl, rfl⟩ | ⟨hq, -, -, -⟩ :=
    step_cases h hp hl
  · refine .inl ?_
    simp only [Effect.apply, Shared.mem_setNode]
    split_ifs with hn
    · rw [hn]
    · rfl
  · refine .inl ?_
    simp only [Effect.apply, Shared.mem_setNode]
    split_ifs with hn
    · rw [hn]
    · rfl
  · exact .inl rfl
  · by_cases hn : n = w.node
    · subst hn
      cases w with
      | next k o | val k v => exact .inl (by simp [Write.effect, Effect.apply, Shared.mem_setNode, Write.node])
      | set k f =>
        obtain rfl | rfl | rfl := hp.setter rfl (List.mem_cons_self ..)
        · exact .inl (by simp [Write.effect, Effect.apply, Shared.mem_setNode, Write.node, Setter.apply])
        · exact .inr ⟨wv, ws, rfl, rfl, by
            simp [Write.effect, Effect.apply, Shared.mem_setNode, Write.node, Setter.apply]⟩
        · exact .inl (by simp [Write.effect, Effect.apply, Shared.mem_setNode, Write.node, Setter.apply])
    · exact .inl (by rw [Write.mem_effect_of_ne hn])
  · rcases hq n with hmem | hmem <;> rw [hmem] <;> exact .inl rfl

/-- What a thread has still to write after a step: as before but for the write it has made, or all the
writes of its job, with the version it has drawn. -/
theorem pending_step (h : e.step s p = some (eff, e')) (hp : e.Proper)
    (hl : ∀ n ∈ e.held, (s.mem n).word.lock = true) {wv : Nat} (hd : e'.drawn = some wv) :
    e'.held = e.held ∧ ((e.drawn = some wv ∧ ∃ w, e.pending = w :: e'.pending) ∨
      wv = s.gvc + 1 ∧ eff = .increment ∧ ∃ job locked, e = .increment job locked ∧
        e'.pending = job.writes wv) := by
  obtain ⟨job, k, todo, locked, rfl, hk, rfl, rfl⟩ | ⟨locked, us, b, rfl, hk, rfl, rfl⟩ |
    ⟨job, locked, rfl, rfl, he⟩ | ⟨job, v, w, ws, locked, rfl, rfl, rfl⟩ | ⟨-, -, -, hpend⟩ :=
    step_cases h hp hl
  · simp [drawn_of_pending] at hd
  · simp [drawn_of_pending] at hd
  · rcases he with rfl | rfl
    · obtain rfl := drawn_writing _ _ _ hd
      exact ⟨held_writing _ _ _ _, .inr ⟨rfl, rfl, job, locked, rfl, pending_writing _ _ _ _⟩⟩
    · simp [drawn] at hd
  · obtain rfl := drawn_writing _ _ _ hd
    refine ⟨held_writing _ _ _ _, .inl ⟨rfl, w, ?_⟩⟩
    rw [pending_writing]
    rfl
  · rw [drawn_of_pending hpend] at hd
    simp at hd

/-- A thread that writes makes its next write. -/
theorem write_step (h : e.step s p = some (eff, e')) (hp : e.Proper)
    (hl : ∀ n ∈ e.held, (s.mem n).word.lock = true) {wv : Nat} (hd : e.drawn = some wv) :
    ∃ w ws, e.pending = w :: ws ∧ eff = w.effect s ∧ e'.pending = ws ∧
      (ws ≠ [] → e'.drawn = some wv) := by
  obtain ⟨job, k, todo, locked, rfl, -⟩ | ⟨locked, us, b, rfl, -⟩ | ⟨job, locked, rfl, -⟩ |
    ⟨job, v, w, ws, locked, rfl, rfl, rfl⟩ | ⟨-, -, hpend, -⟩ := step_cases h hp hl
  · simp [drawn] at hd
  · simp [drawn] at hd
  · simp [drawn] at hd
  · obtain rfl := Option.some.inj hd
    refine ⟨w, ws, rfl, rfl, pending_writing _ _ _ _, fun hne => ?_⟩
    obtain ⟨v', vs, rfl⟩ := List.exists_cons_of_ne_nil hne
    rfl
  · rw [drawn_of_pending hpend] at hd
    simp at hd

end Step

end Ending

/-! ## All threads -/

theorem Effect.gvc_le {s : Shared K V m} {e : Effect K V m} : s.gvc ≤ (e.apply s).gvc := by
  cases e with
  | increment => exact Nat.le_succ _
  | _ => exact le_rfl

/-- The nodes held are locked, each held by one thread, and no version is ahead: of the clock, nor, for
a node held by a thread that writes, of the write version. -/
structure Orderly (s : Shared K V m) (E : ThreadId → Ending V m) : Prop where
  version : ∀ n, (s.mem n).word.version ≤ s.gvc
  proper : ∀ u, (E u).Proper
  locked : ∀ u, ∀ n ∈ (E u).held, (s.mem n).word.lock = true
  apart : ∀ {u v : ThreadId} {n : NodeId}, n ∈ (E u).held → n ∈ (E v).held → u = v
  drawn : ∀ {u : ThreadId} {wv : Nat}, (E u).drawn = some wv →
    wv ≤ s.gvc ∧ ∀ n ∈ (E u).held, (s.mem n).word.version ≤ wv

namespace Orderly

variable {s s' : Shared K V m} {E : ThreadId → Ending V m} {t : ThreadId}

/-- A thread at the start of a `TXend`, or in none. -/
theorem update (h : Orderly s E) {e : Ending V m} (hp : e.Proper) (hheld : e.held = [])
    (hd : e.drawn = none) : Orderly s (Function.update E t e) := by
  have hE : ∀ {u : ThreadId} {n : NodeId}, n ∈ (Function.update E t e u).held →
      u ≠ t ∧ n ∈ (E u).held := by
    intro u n hn
    by_cases hu : u = t
    · subst hu
      simp [hheld] at hn
    · exact ⟨hu, by simpa [hu] using hn⟩
  refine ⟨h.version, fun u => ?_, fun u n hn => h.locked u n (hE hn).2,
    fun hu hv => h.apart (hE hu).2 (hE hv).2, fun {u wv} hu => ?_⟩
  · by_cases hu : u = t
    · subst hu
      simpa using hp
    · simpa [hu] using h.proper u
  · by_cases hut : u = t
    · subst hut
      simp [hd] at hu
    · simp only [Function.update_of_ne hut] at hu ⊢
      exact h.drawn hu

/-- The nodes that are held stay as they are, and the others keep their versions up to the clock. -/
theorem congr (h : Orderly s E) (hgvc : s.gvc ≤ s'.gvc)
    (hheld : ∀ u, ∀ n ∈ (E u).held, (s'.mem n).word = (s.mem n).word)
    (hv : ∀ n, (s'.mem n).word.version ≤ (s.mem n).word.version) : Orderly s' E where
  version n := (hv n).trans ((h.version n).trans hgvc)
  proper := h.proper
  locked u n hn := by rw [hheld u n hn]; exact h.locked u n hn
  apart := h.apart
  drawn hd := ⟨(h.drawn hd).1.trans hgvc, fun n hn => (hv n).trans ((h.drawn hd).2 n hn)⟩

variable [LinearOrder K] {p : Pick} {e' : Ending V m} {eff : Effect K V m}

/-- A step keeps the locks and the versions in order. -/
theorem step (h : Orderly s E) (hs : (E t).step s p = some (eff, e')) :
    Orderly (eff.apply s) (Function.update E t e') := by
  have hp := h.proper t
  have hl := h.locked t
  have hgvc : s.gvc ≤ (eff.apply s).gvc := Effect.gvc_le
  have hothers : ∀ {u : ThreadId} {n : NodeId}, u ≠ t → n ∈ (E u).held →
      ((eff.apply s).mem n).word.lock = true ∧
        ((eff.apply s).mem n).word.version = (s.mem n).word.version ∧ n ∉ e'.held := fun hu hn =>
    Ending.others_step hs hp hl (fun hn' => hu (h.apart hn hn')) (h.locked _ _ hn)
  refine ⟨fun n => ?_, fun u => ?_, fun u n hn => ?_, fun {u v n} hu hv => ?_, fun {u wv} hd => ?_⟩
  · obtain hv | ⟨wv, ws, hd, -, hv⟩ := Ending.version_step hs hp hl n <;> rw [hv]
    · exact (h.version n).trans hgvc
    · exact (h.drawn hd).1.trans hgvc
  · by_cases hu : u = t
    · subst hu
      simpa using hp.step hs
    · simpa [hu] using h.proper u
  · by_cases hu : u = t
    · subst hu
      exact Ending.holds_step hs hp hl (by simpa using hn)
    · exact (hothers hu (by simpa [hu] using hn)).1
  · by_cases hut : u = t <;> by_cases hvt : v = t
    · rw [hut, hvt]
    · subst hut
      simp only [Function.update_self, Function.update_of_ne hvt] at hu hv
      exact absurd hu (hothers hvt hv).2.2
    · subst hvt
      simp only [Function.update_self, Function.update_of_ne hut] at hu hv
      exact absurd hv (hothers hut hu).2.2
    · simp only [Function.update_of_ne hut, Function.update_of_ne hvt] at hu hv
      exact h.apart hu hv
  · by_cases hu : u = t
    · subst hu
      simp only [Function.update_self] at hd ⊢
      obtain ⟨hheld, ⟨hd', -⟩ | ⟨rfl, rfl, -⟩⟩ := Ending.pending_step hs hp hl hd
      · refine ⟨(h.drawn hd').1.trans hgvc, fun n hn => ?_⟩
        rw [hheld] at hn
        obtain hv | ⟨wv', ws, hd'', -, hv⟩ := Ending.version_step hs hp hl n <;> rw [hv]
        · exact (h.drawn hd').2 n hn
        · rw [hd'] at hd''
          exact (Option.some.inj hd'').ge
      · exact ⟨le_rfl, fun n _ => (h.version n).trans (Nat.le_succ _)⟩
    · simp only [Function.update_of_ne hu] at hd ⊢
      refine ⟨(h.drawn hd).1.trans hgvc, fun n hn => ?_⟩
      rw [(hothers hu hn).2.1]
      exact (h.drawn hd).2 n hn

theorem version_le_step (h : Orderly s E) (hs : (E t).step s p = some (eff, e')) (n : NodeId) :
    (s.mem n).word.version ≤ ((eff.apply s).mem n).word.version := by
  obtain hv | ⟨wv, ws, hd, hpend, hv⟩ := Ending.version_step hs (h.proper t) (h.locked t) n <;> rw [hv]
  have hn : n ∈ (E t).held := (h.proper t).holds (w := .set n (.setVersion wv)) (by rw [hpend]; simp)
  exact (h.drawn hd).2 n hn

end Orderly

/-! ## What is settled -/

/-- The commits that are still to write `n` have drawn versions after `readVersion`. -/
def Settled (E : ThreadId → Ending V m) (n : NodeId) (readVersion : Nat) : Prop :=
  ∀ u wv, (E u).drawn = some wv → (∃ w ∈ (E u).pending, w.node = n) → readVersion < wv

section Settled

variable {s : Shared K V m} {E : ThreadId → Ending V m} {t : ThreadId} {n : NodeId} {rv : Nat}

theorem Settled.update (h : Settled E n rv) {e : Ending V m} (he : e.drawn = none) :
    Settled (Function.update E t e) n rv := by
  intro u wv hd hw
  by_cases hu : u = t
  · subst hu
    rw [Function.update_self, he] at hd
    simp at hd
  · rw [Function.update_of_ne hu] at hd hw
    exact h u wv hd hw

/-- A commit that has still to write a node holds its lock. -/
theorem Orderly.locked_of_pending (h : Orderly s E) {w : Write V} (hw : w ∈ (E t).pending) :
    (s.mem w.node).isLocked = true :=
  h.locked t _ ((h.proper t).holds hw)

/-- A node that is unlocked is settled for every version. -/
theorem Orderly.settled_of_unlocked (h : Orderly s E) (hn : (s.mem n).isLocked = false) (rv : Nat) :
    Settled E n rv := by
  rintro u wv - ⟨w, hw, rfl⟩
  rw [h.locked_of_pending hw] at hn
  simp at hn

variable [LinearOrder K] {p : Pick} {e' : Ending V m} {eff : Effect K V m}

theorem Orderly.settled_step (h : Orderly s E) (hs : (E t).step s p = some (eff, e')) (hrv : rv ≤ s.gvc)
    (hn : Settled E n rv) : Settled (Function.update E t e') n rv := by
  intro u wv hd hw
  by_cases hu : u = t
  · subst hu
    rw [Function.update_self] at hd hw
    obtain ⟨-, ⟨hd', w, hpend⟩ | ⟨rfl, -⟩⟩ := Ending.pending_step hs (h.proper u) (h.locked u) hd
    · obtain ⟨v, hv, hnode⟩ := hw
      exact hn u wv hd' ⟨v, by rw [hpend]; exact List.mem_cons_of_mem _ hv, hnode⟩
    · exact Nat.lt_succ_of_le hrv
  · rw [Function.update_of_ne hu] at hd hw
    exact hn u wv hd hw

end Settled

end TxList
