import TxList.Snapshot
import TxList.Proofs.Ending
import TxList.Proofs.StepFrame

/-!
# `getNext` reads a snapshot

Once `getNext` has found the node unlocked, every commit that is still to write it draws its write
version later, so what earlier commits have left is settled. If a later one has written `m_next` before
it is read, either the node is still locked at the second test, or its version gives the commit away.
-/

namespace TxList

open Prog

variable {K V : Type} {m : Nat}

/-! ## Pointers to allocated nodes -/

/-- The pointers in the storage are to nodes below `f`. -/
structure LocalStorage.Closed (ls : LocalStorage V m) (f : Nat) : Prop where
  writeSet : ∀ n ∈ ls.writeSet, n < f
  next : ∀ n we, ls.writeSet.lookup n = some we → Below f we.next
  indexAdd : ∀ l, ∀ n ∈ ls.indexAdd l, n < f

theorem LocalStorage.Closed.mono {ls : LocalStorage V m} {f g : Nat} (h : ls.Closed f) (hfg : f ≤ g) :
    ls.Closed g :=
  ⟨fun n hn => (h.writeSet n hn).trans_le hfg, fun n we hw => (h.next n we hw).mono hfg,
    fun l n hn => (h.indexAdd l n hn).trans_le hfg⟩

theorem LocalStorage.closed_empty (f : Nat) : ({} : LocalStorage V m).Closed f :=
  ⟨fun n hn => absurd hn (AList.notMem_empty n), fun n we hw => by simp at hw, fun l n hn => by simp at hn⟩

/-- What a call in a transaction does to memory: it allocates, and leaves the nodes there are alone. -/
structure Ctx.Moves (c₀ c : Ctx K V m) : Prop where
  closed : c.shared.Closed
  storage : c.storage.Closed c.shared.fresh
  gvc : c₀.shared.gvc ≤ c.shared.gvc
  readVersion : c.transaction.readVersion ≤ c.shared.gvc
  fresh : c₀.shared.fresh ≤ c.shared.fresh
  mem : ∀ n < c₀.shared.fresh, c.shared.mem n = c₀.shared.mem n
  version : ∀ n, (c.shared.mem n).word.version ≤ (c₀.shared.mem n).word.version

namespace Ctx.Moves

variable {c₀ c : Ctx K V m}

theorem setStorage (h : c₀.Moves c) {ls : LocalStorage V m} (hls : ls.Closed c.shared.fresh) :
    c₀.Moves { c with storage := ls } :=
  ⟨h.closed, hls, h.gvc, h.readVersion, h.fresh, h.mem, h.version⟩

theorem setTransaction (h : c₀.Moves c) {tx : LocalTransaction} (htx : tx.readVersion ≤ c.shared.gvc) :
    c₀.Moves { c with transaction := tx } :=
  ⟨h.closed, h.storage, h.gvc, htx, h.fresh, h.mem, h.version⟩

theorem write (h : c₀.Moves c) {n : NodeId} {next : Option NodeId} (val : Option V) (b : Bool)
    (hn : n < c.shared.fresh) (hnext : ∀ y, next = some y → y < c.shared.fresh) :
    c₀.Moves { c with storage := (c.storage.putIntoWriteSet n next val b).addToReadSet n } := by
  refine h.setStorage ⟨fun k hk => ?_, fun k we hw => ?_, h.storage.indexAdd⟩
  · rcases (AList.mem_insert _).1 hk with rfl | hk
    · exact hn
    · exact h.storage.writeSet k hk
  · by_cases hkn : k = n
    · subst hkn
      simp only [LocalStorage.addToReadSet, LocalStorage.putIntoWriteSet, AList.lookup_insert,
        Option.some.injEq] at hw
      subst hw
      exact hnext
    · simp only [LocalStorage.addToReadSet, LocalStorage.putIntoWriteSet,
        AList.lookup_insert_ne hkn] at hw
      exact h.storage.next k we hw

theorem addToIndexAdd (h : c₀.Moves c) {n : NodeId} (l : ListId m) (hn : n < c.shared.fresh) :
    c₀.Moves { c with storage := c.storage.addToIndexAdd l n } := by
  refine h.setStorage ⟨h.storage.writeSet, h.storage.next, fun l' k hk => ?_⟩
  by_cases he : l' = l
  · subst he
    simp only [LocalStorage.addToIndexAdd, Function.update_self, List.mem_append,
      List.mem_singleton] at hk
    rcases hk with hk | rfl
    · exact h.storage.indexAdd l' k hk
    · exact hn
  · simp only [LocalStorage.addToIndexAdd, Function.update_of_ne he] at hk
    exact h.storage.indexAdd l' k hk

theorem alloc (h : c₀.Moves c) {next : Option NodeId} (key : K) (val : V)
    (hnext : ∀ y, next = some y → y < c.shared.fresh) :
    c₀.Moves { c with shared := c.shared.alloc { key := key, val := some val, next := next } } := by
  have hup : c.shared.fresh ≤ c.shared.fresh + 1 := Nat.le_succ _
  refine ⟨⟨h.closed.heads.trans hup, fun n => ?_, fun l i => (h.closed.index l i).trans_le hup⟩,
    h.storage.mono hup, h.gvc, h.readVersion, h.fresh.trans hup, fun n hn => ?_, fun n => ?_⟩
  · by_cases hn : n = c.shared.fresh
    · simp only [Shared.alloc_mem, Shared.alloc_fresh, hn, Function.update_self]
      exact fun y hy => (hnext y hy).trans_le hup
    · simp only [Shared.alloc_mem, Shared.alloc_fresh, Function.update_of_ne hn]
      exact (h.closed.next n).mono hup
  · have hne : n ≠ c.shared.fresh := (hn.trans_le h.fresh).ne
    simp only [Shared.alloc_mem, Function.update_of_ne hne]
    exact h.mem n hn
  · by_cases hn : n = c.shared.fresh
    · simp only [Shared.alloc_mem, hn, Function.update_self]
      exact Nat.zero_le _
    · simp only [Shared.alloc_mem, Function.update_of_ne hn]
      exact h.version n

theorem setIndex (h : c₀.Moves c) {ix : Index} (l : ListId m)
    (hix : ∀ i, (ix.nodes i).node < c.shared.fresh) :
    c₀.Moves { c with shared := { c.shared with index := Function.update c.shared.index l ix } } := by
  refine ⟨⟨h.closed.heads, h.closed.next, fun l' i => ?_⟩, h.storage, h.gvc, h.readVersion, h.fresh,
    h.mem, h.version⟩
  by_cases he : l' = l
  · subst he
    simpa using hix i
  · simpa [he] using h.closed.index l' i

theorem increment (h : c₀.Moves c) :
    c₀.Moves { c with shared := { c.shared with gvc := c.shared.gvc + 1 } } :=
  ⟨⟨h.closed.heads, h.closed.next, h.closed.index⟩, h.storage, h.gvc.trans (Nat.le_succ _),
    h.readVersion.trans (Nat.le_succ _), h.fresh, h.mem, h.version⟩

theorem stable (c₀ : Ctx K V m) : Stable c₀.Moves where
  next h hy := h.closed.next _ _ hy
  index h := h.closed.index
  write_next h hw hy := h.storage.next _ _ hw _ hy
  setIndex l h hix := h.setIndex l hix
  abort h := h.setTransaction h.readVersion
  increment h := h.increment
  readOnly _ h := h.setTransaction h.readVersion
  addToReadSet h _ := h.setStorage ⟨h.storage.writeSet, h.storage.next, h.storage.indexAdd⟩
  write val b h hn hnext := h.write val b hn hnext
  alloc key val h hnext := h.alloc key val hnext
  addToIndexAdd l h hn := h.addToIndexAdd l hn
  addToIndexRemove _ _ h := h.setStorage ⟨h.storage.writeSet, h.storage.next, h.storage.indexAdd⟩

end Ctx.Moves

/-- The calls that are one step, made in a transaction if they are on a list. -/
theorem call_moves [LinearOrder K] {c : Ctx K V m} {ch : Choice} {op : Op K V m} (h : c.Moves c)
    (hop : op.isWhole = true) (hT : op.isAccess = true → c.transaction.TX = true) :
    Ends (call ch op) c (fun _ => c.Moves) (OnAbort c.Moves) := by
  have hst := Ctx.Moves.stable c
  have hno : ∀ {α : Type} {x : Call K V m α}, op.isAccess = true → c.transaction.TX = false →
      Ends x c (fun _ => c.Moves) (OnAbort c.Moves) := fun ho hf => by simp [hT ho] at hf
  cases op with
  | txBegin =>
    simp only [call, TXbegin, Ends_bind, Ends_getVersion, Ends_modifyTransaction, Ends_pure]
    exact h.setTransaction le_rfl
  | put l key val =>
    simp only [call, Ends_bind, Ends_pure]
    exact access_ends (fun _ => hst.putTX h val) (hno rfl)
  | remove l key =>
    simp only [call, Ends_bind, Ends_pure]
    exact access_ends (fun _ => hst.removeTX h) (hno rfl)
  | get l key =>
    simp only [call, Ends_bind, Ends_pure]
    exact access_ends (fun _ => hst.getTX h) (hno rfl)
  | containsKey l key =>
    simp only [call, containsKey, Ends_bind, Ends_pure]
    exact access_ends (fun _ => hst.getTX h) (hno rfl)
  | txEnd => simp [Op.isWhole] at hop
  | handleAbort =>
    simp only [call, Ends_bind, Ends_pure]
    refine handle_abort_ends fun r => ?_
    exact ⟨⟨h.closed.heads, h.closed.next, h.closed.index⟩, LocalStorage.closed_empty _, h.gvc,
      h.readVersion, h.fresh, h.mem, h.version⟩

/-- The pointers that a job writes are to nodes below `f`. -/
def Job.Within (f : Nat) (job : Job V m) : Prop :=
  (∀ x ∈ job.writeSet, x.1 < f ∧ Below f x.2.next) ∧ ∀ x ∈ job.indexAdd, x.2 < f

def IndexUpdate.Within (f : Nat) : IndexUpdate m → Prop
  | .add _ n => n < f
  | .remove _ _ | .retire _ => True

theorem Job.Within.updates {f : Nat} {job : Job V m} (h : job.Within f) :
    ∀ u ∈ job.updates, u.Within f := by
  intro u hu
  rcases List.mem_append.1 hu with hu | hu
  · obtain ⟨x, hx, rfl⟩ := List.mem_map.1 hu
    exact h.2 x hx
  · obtain ⟨x, -, hu⟩ := List.mem_flatMap.1 hu
    simp only [List.mem_cons, List.not_mem_nil, or_false] at hu
    rcases hu with rfl | rfl <;> trivial

theorem Job.Within.keys {f : Nat} {job : Job V m} (h : job.Within f) : ∀ n ∈ job.keys, n < f := by
  intro n hn
  obtain ⟨x, hx, rfl⟩ := List.mem_map.1 hn
  exact (h.1 x hx).1

theorem Job.Within.next {f wv : Nat} {job : Job V m} (h : job.Within f) {n : NodeId}
    {o : Option NodeId} (hw : .next n o ∈ job.writes wv) : Below f o := by
  obtain ⟨x, hx, hw⟩ := List.mem_flatMap.1 hw
  unfold WriteElement.writes at hw
  split_ifs at hw <;> simp only [List.cons_append, List.nil_append, List.mem_cons, List.not_mem_nil,
    or_false, reduceCtorEq, Write.next.injEq] at hw <;> exact hw.2 ▸ (h.1 x hx).2

/-- What `TXend` finds in a thread's state. -/
theorem LocalStorage.Closed.job {x : Local V m} {f : Nat} (h : x.storage.Closed f) (ch : Choice) :
    (x.job ch).Within f := by
  refine ⟨fun y hy => ?_, fun y hy => ?_⟩
  · obtain ⟨n, -, hn⟩ := List.mem_filterMap.1 hy
    obtain ⟨we, hwe, rfl⟩ := Option.map_eq_some_iff.1 hn
    exact ⟨h.writeSet n (AList.lookup_isSome.1 (by rw [hwe]; rfl)), h.next n we hwe⟩
  · obtain ⟨l, -, hl⟩ := List.mem_flatMap.1 hy
    obtain ⟨n, hn, rfl⟩ := List.mem_map.1 hl
    exact h.indexAdd l n hn

theorem Local.keys_job (x : Local V m) {ch : Choice} (h : ch.Orders x.storage) :
    (x.job ch).keys.Nodup := by
  unfold Job.keys Local.job
  rw [List.map_filterMap]
  refine List.Nodup.filterMap (fun a b c ha hb => ?_) (h.1.nodup_iff.2 x.storage.writeSet.nodupKeys)
  simp only [Option.mem_def, Option.map_map, Option.map_eq_some_iff] at ha hb
  obtain ⟨x, -, ha⟩ := ha
  obtain ⟨y, -, hb⟩ := hb
  exact ha.trans hb.symm

namespace Ending

variable {f wv : Nat} {job : Job V m} {locked : List NodeId} {us : List (IndexUpdate m)}

/-- The pointers in what is left of a `TXend` are to nodes below `f`. -/
def Within (f : Nat) (e : Ending V m) : Prop :=
  (∀ n ∈ e.held, n < f) ∧
    match e with
    | .lock job _ _ _ | .check job _ _ _ | .increment job _ | .write job _ _ _ _ => job.Within f
    | .unlock _ us _ => ∀ u ∈ us, u.Within f
    | .index u us => ∀ x ∈ u :: us, x.Within f
    | .moveOn _ _ | .clearMark _ _ | .done _ | .stopped _ => True

theorem within_done (f : Nat) (b : Bool) : (done b : Ending V m).Within f :=
  ⟨fun _ hn => absurd hn List.not_mem_nil, trivial⟩

theorem within_stopped (f : Nat) (e : Fault) : (stopped e : Ending V m).Within f :=
  ⟨fun _ hn => absurd hn List.not_mem_nil, trivial⟩

theorem within_indexing : ∀ {us : List (IndexUpdate m)}, (∀ u ∈ us, u.Within f) →
    (indexing us : Ending V m).Within f
  | [], _ => within_done f true
  | _ :: _, h => ⟨fun _ hn => absurd hn List.not_mem_nil, h⟩

theorem within_unlocking {b : Bool} (hl : ∀ n ∈ locked, n < f) (h : ∀ u ∈ us, u.Within f) :
    (unlocking locked us b : Ending V m).Within f := by
  unfold unlocking
  split_ifs
  · exact within_indexing h
  · exact within_done f false
  · exact ⟨hl, h⟩

theorem within_aborting (hl : ∀ n ∈ locked, n < f) : (aborting locked : Ending V m).Within f :=
  within_unlocking hl fun _ hu => absurd hu List.not_mem_nil

theorem within_writing (hl : ∀ n ∈ locked, n < f) (hj : job.Within f) :
    ∀ ws, (writing job wv locked ws).Within f
  | [] => within_unlocking hl hj.updates
  | _ :: _ => ⟨hl, hj⟩

theorem within_checking (hl : ∀ n ∈ locked, n < f) (hj : job.Within f) :
    ∀ ns, (checking job locked ns).Within f
  | [] => by
    unfold checking
    split_ifs
    · exact within_unlocking hl fun _ hu => absurd hu List.not_mem_nil
    · exact ⟨hl, hj⟩
  | _ :: _ => ⟨hl, hj⟩

theorem within_locking (hl : ∀ n ∈ locked, n < f) (hj : job.Within f) :
    ∀ ns, (locking job locked ns).Within f
  | [] => within_checking hl hj _
  | _ :: _ => ⟨hl, hj⟩

theorem within_start (hj : job.Within f) : (start job).Within f := by
  unfold start
  split_ifs
  · exact within_locking (fun n hn => absurd hn List.not_mem_nil) hj _
  · exact within_aborting fun n hn => absurd hn List.not_mem_nil

theorem Within.mono {g : Nat} {e : Ending V m} (h : e.Within f) (hfg : f ≤ g) : e.Within g := by
  have hjob : ∀ {job : Job V m}, job.Within f → job.Within g := fun hj =>
    ⟨fun x hx => ⟨(hj.1 x hx).1.trans_le hfg, (hj.1 x hx).2.mono hfg⟩,
      fun x hx => (hj.2 x hx).trans_le hfg⟩
  have hups : ∀ {us : List (IndexUpdate m)}, (∀ u ∈ us, u.Within f) → ∀ u ∈ us, u.Within g := by
    intro us hus u hu
    have h := hus u hu
    cases u with
    | add l n => exact Nat.lt_of_lt_of_le h hfg
    | remove l n | retire n => trivial
  refine ⟨fun n hn => (h.1 n hn).trans_le hfg, ?_⟩
  cases e with
  | lock job n todo locked | check job n todo locked | increment job locked
  | write job v w ws locked => exact hjob h.2
  | unlock locked us b | index u us => exact hups h.2
  | moveOn n locked | clearMark n locked | done b | stopped f => trivial

variable [LinearOrder K] {s : Shared K V m} {p : Pick} {e e' : Ending V m} {eff : Effect K V m}

/-- A step writes only pointers to allocated nodes, and allocates none. -/
theorem Within.step (hw : e.Within s.fresh) (hp : e.Proper) (hs : s.Closed)
    (h : e.step s p = some (eff, e')) :
    eff.Within s ∧ (eff.apply s).fresh = s.fresh ∧ e'.Within s.fresh := by
  obtain ⟨hheld, hjob⟩ := hw
  cases e with
  | lock job n todo locked =>
    simp only [Ending.step, Option.some.injEq] at h
    split_ifs at h <;> obtain ⟨rfl, rfl⟩ := Prod.mk.inj h
    · exact ⟨trivial, rfl, within_aborting hheld⟩
    · refine ⟨trivial, rfl, within_locking (fun k hk => ?_) hjob _⟩
      rcases List.mem_cons.1 hk with rfl | hk
      · exact hjob.keys _ (by rw [← hp.2]; simp)
      · exact hheld k hk
  | check job n todo locked =>
    simp only [Ending.step, Option.some.injEq] at h
    obtain ⟨rfl, he⟩ := Prod.mk.inj h
    refine ⟨trivial, rfl, ?_⟩
    split_ifs at he <;> subst he
    · exact within_aborting hheld
    · exact within_aborting hheld
    · exact ⟨hheld, trivial⟩
    · exact within_checking hheld hjob _
  | moveOn n locked =>
    obtain ⟨rfl, rfl⟩ := Prod.mk.inj (Option.some.inj h)
    exact ⟨trivial, rfl, hheld, trivial⟩
  | clearMark n locked =>
    simp only [Ending.step, Option.some.injEq] at h
    split_ifs at h <;> obtain ⟨rfl, rfl⟩ := Prod.mk.inj h
    · exact ⟨trivial, rfl, within_aborting hheld⟩
    · exact ⟨trivial, rfl, within_stopped _ _⟩
  | increment job locked =>
    simp only [Ending.step, Option.some.injEq] at h
    obtain ⟨rfl, he⟩ := Prod.mk.inj h
    refine ⟨trivial, rfl, ?_⟩
    split_ifs at he <;> subst he
    · exact within_writing hheld hjob _
    · exact within_stopped _ _
  | write job wv w ws locked =>
    cases w with
    | next n o =>
      obtain ⟨rfl, rfl⟩ := Prod.mk.inj (Option.some.inj h)
      exact ⟨hjob.next (hp.2.2.subset (List.mem_cons_self ..)), rfl, within_writing hheld hjob _⟩
    | val n v =>
      obtain ⟨rfl, rfl⟩ := Prod.mk.inj (Option.some.inj h)
      exact ⟨trivial, rfl, within_writing hheld hjob _⟩
    | set n f =>
      simp only [Ending.step, Option.some.injEq] at h
      split_ifs at h <;> obtain ⟨rfl, rfl⟩ := Prod.mk.inj h
      · exact ⟨trivial, rfl, within_writing hheld hjob _⟩
      · exact ⟨trivial, rfl, within_stopped _ _⟩
  | unlock locked us b =>
    simp only [Ending.step, Option.ite_none_right_eq_some, Option.some.injEq] at h
    obtain ⟨-, h⟩ := h
    split_ifs at h <;> obtain ⟨rfl, rfl⟩ := Prod.mk.inj h
    · exact ⟨trivial, rfl, within_unlocking (fun k hk => hheld k (List.mem_of_mem_erase hk)) hjob⟩
    · exact ⟨trivial, rfl, within_stopped _ _⟩
  | index u us =>
    have hus : ∀ x ∈ us, x.Within s.fresh := fun x hx => hjob x (List.mem_cons_of_mem _ hx)
    cases u with
    | add l n =>
      obtain ⟨ix, hix, he⟩ := Option.map_eq_some_iff.1 h
      obtain ⟨rfl, rfl⟩ := Prod.mk.inj he
      refine ⟨fun i => ?_, rfl, within_indexing hus⟩
      rcases Index.nodes_add hix i with ⟨j, hj⟩ | hi
      · rw [hj]
        exact hs.index l j
      · rw [hi]
        exact hjob (.add l n) (List.mem_cons_self ..)
    | remove l n =>
      obtain ⟨ix, hix, he⟩ := Option.map_eq_some_iff.1 h
      obtain ⟨rfl, rfl⟩ := Prod.mk.inj he
      refine ⟨fun i => ?_, rfl, within_indexing hus⟩
      rw [Index.node_remove hix i]
      exact hs.index l i
    | retire n =>
      obtain ⟨rfl, rfl⟩ := Prod.mk.inj (Option.some.inj h)
      exact ⟨trivial, rfl, within_indexing hus⟩
  | done b | stopped f => simp [Ending.step] at h

omit [LinearOrder K] in
theorem wrote_of_drawn {e : Ending V m} (h : e.drawn = none) (n : NodeId) : e.wrote n = [] := by
  cases e <;> first | rfl | simp [drawn] at h

omit [LinearOrder K] in
/-- What a thread is about to write to `m_next`. -/
theorem mem_wrote {n : NodeId} {x : Nat × Option NodeId} (hx : x ∈ e.wrote n) :
    ∃ job ws locked, e = .write job x.1 (.next n x.2) ws locked := by
  cases e with
  | write job wv w ws locked =>
    cases w with
    | next k o =>
      simp only [wrote, List.mem_ite_nil_right, List.mem_singleton] at hx
      obtain ⟨rfl, rfl⟩ := hx
      exact ⟨job, ws, locked, rfl⟩
    | val k v | set k f => simp [wrote] at hx
  | _ => simp [wrote] at hx

/-- A node's `m_next` after a step. -/
theorem next_step (h : e.step s p = some (eff, e')) (hp : e.Proper)
    (hl : ∀ n ∈ e.held, (s.mem n).word.lock = true) (n : NodeId) :
    ((eff.apply s).mem n).next = ((e.wrote n).head?.map Prod.snd).getD (s.mem n).next := by
  obtain ⟨job, k, todo, locked, rfl, hk, rfl, rfl⟩ | ⟨locked, us, b, rfl, hk, rfl, rfl⟩ |
    ⟨job, locked, rfl, rfl, he⟩ | ⟨job, wv, w, ws, locked, rfl, rfl, rfl⟩ | ⟨hq, -, hpend, -⟩ :=
    step_cases h hp hl
  · simp only [Effect.apply, Shared.mem_setNode]
    split_ifs with hn
    · rw [hn]; rfl
    · rfl
  · simp only [Effect.apply, Shared.mem_setNode]
    split_ifs with hn
    · rw [hn]; rfl
    · rfl
  · rfl
  · by_cases hn : n = w.node
    · subst hn
      cases w <;> simp [Write.effect, Effect.apply, Shared.mem_setNode, Write.node, wrote]
    · rw [Write.mem_effect_of_ne hn]
      cases w with
      | next k o => simp [wrote, show k ≠ n from Ne.symm hn]
      | val k v | set k f => rfl
  · rw [wrote_of_drawn (drawn_of_pending hpend)]
    rcases hq n with hmem | hmem <;> rw [hmem] <;> rfl

/-- A node whose `m_next` is written is stamped later. -/
theorem stamps_later (h : e.step s p = some (eff, e')) (hp : e.Proper)
    (hl : ∀ n ∈ e.held, (s.mem n).word.lock = true) {n : NodeId} {x : Nat × Option NodeId}
    (hx : x ∈ e.wrote n) : e'.drawn = some x.1 ∧ .set n (.setVersion x.1) ∈ e'.pending := by
  obtain ⟨job, ws, locked, rfl⟩ := mem_wrote hx
  have hmem := Job.stamp_of_write (by simp) (by simp) _ hp.2.2
  obtain ⟨w, ws', hpend, -, rfl, hd⟩ := write_step h hp hl rfl
  obtain ⟨-, rfl⟩ := List.cons_eq_cons.1 hpend
  exact ⟨hd (List.ne_nil_of_mem hmem), hmem⟩

end Ending

/-! ## What is settled -/

namespace Pieces

/-- What the thread has left of a `TXend`. -/
def ending (P : Pieces K V m) (t : ThreadId) : Ending V m :=
  match P.doing t with
  | .ending e => e
  | _ => .done false

/-- The thread is between the steps of no `TXend`. -/
theorem ending_of_resting {P : Pieces K V m} {t : ThreadId} (h : (P.doing t).resting = true) :
    ∃ b, P.ending t = .done b := by
  unfold ending
  revert h
  rcases P.doing t with _ | e | r <;> intro h
  · exact ⟨false, rfl⟩
  · cases e with
    | done b => exact ⟨b, rfl⟩
    | _ => simp [Doing.resting] at h
  · exact ⟨false, rfl⟩

theorem ending_of_reading {P : Pieces K V m} {t : ThreadId} {r : Reading} (h : P.doing t = .reading r) :
    P.ending t = .done false := by
  unfold ending
  rw [h]

section Shapes

variable (P : Pieces K V m) (t : ThreadId) (σ : Sys K V m) (eff : Effect K V m) (e : Ending V m)
  (r : Reading)

theorem ending_ended : (P.ended t eff e).ending = Function.update P.ending t e := by
  funext u
  by_cases hu : u = t
  · subst hu
    simp [ending, ended]
  · simp [ending, ended, hu]

theorem ending_called : (P.called t σ).ending = Function.update P.ending t (.done false) := by
  funext u
  by_cases hu : u = t
  · subst hu
    simp [ending, called]
  · simp [ending, called, hu]

theorem ending_read : (P.read t eff r).ending = Function.update P.ending t (.done false) := by
  funext u
  by_cases hu : u = t
  · subst hu
    simp [ending, read]
  · simp [ending, read, hu]

theorem wrote_ended (n : NodeId) :
    (P.ended t eff e).wrote n = (P.ending t).wrote n ++ P.wrote n := by
  unfold ended ending
  rcases P.doing t <;> rfl

end Shapes

/-- Between two states, what is settled for `readVersion` stays as it is. -/
structure Keeps (readVersion : Nat) (P P' : Pieces K V m) : Prop where
  fresh : P.sys.shared.fresh ≤ P'.sys.shared.fresh
  settled : ∀ n, Settled P.ending n readVersion → Settled P'.ending n readVersion
  wrote : ∀ n, ∃ xs, P'.wrote n = xs ++ P.wrote n ∧
    (Settled P.ending n readVersion → ∀ x ∈ xs, readVersion < x.1)
  first : ∀ n < P.sys.shared.fresh, P'.first n = P.first n
  version : ∀ n < P.sys.shared.fresh,
    readVersion < (P.sys.shared.mem n).getVersion → readVersion < (P'.sys.shared.mem n).getVersion

theorem Keeps.asOf {P P' : Pieces K V m} {rv : Nat} (h : Keeps rv P P') {n : NodeId}
    (hn : n < P.sys.shared.fresh) (hs : Settled P.ending n rv) : P'.asOf n rv = P.asOf n rv := by
  obtain ⟨xs, hxs, hlt⟩ := h.wrote n
  have hnone : xs.find? (fun x => x.1 ≤ rv) = none :=
    List.find?_eq_none.2 fun x hx => by simpa using hlt hs x hx
  simp only [Pieces.asOf, hxs, List.find?_append, hnone, Option.none_or, h.first n hn]

/-- What a thread in `getNext` knows of what it has read. -/
def Sound (P : Pieces K V m) (readVersion : Nat) : Reading → Prop
  | .lockBit n => n < P.sys.shared.fresh
  | .next n => n < P.sys.shared.fresh ∧ Settled P.ending n readVersion
  | .lockAgain n o => n < P.sys.shared.fresh ∧ Settled P.ending n readVersion ∧
      (o = P.asOf n readVersion ∨ ∃ x ∈ P.wrote n, readVersion < x.1)
  | .version n o => n < P.sys.shared.fresh ∧ Settled P.ending n readVersion ∧
      (o = P.asOf n readVersion ∨ readVersion < (P.sys.shared.mem n).getVersion)
  | .singleton n o | .returned n o =>
    n < P.sys.shared.fresh ∧ Settled P.ending n readVersion ∧ o = P.asOf n readVersion
  | .nextLock n y | .nextVersion n y | .nextSingleton n y =>
    n < P.sys.shared.fresh ∧ Settled P.ending n readVersion ∧ some y = P.asOf n readVersion
  | .moveOn _ | .thrown => True

theorem Sound.keeps {P P' : Pieces K V m} {rv : Nat} (h : Keeps rv P P') :
    ∀ {r : Reading}, P.Sound rv r → P'.Sound rv r := by
  intro r hr
  cases r with
  | lockBit n => exact Nat.lt_of_lt_of_le hr h.fresh
  | next n => exact ⟨hr.1.trans_le h.fresh, h.settled n hr.2⟩
  | lockAgain n o =>
    obtain ⟨hn, hs, ho⟩ := hr
    refine ⟨hn.trans_le h.fresh, h.settled n hs, ho.imp (fun ho => ?_) ?_⟩
    · rw [h.asOf hn hs, ho]
    · rintro ⟨x, hx, hlt⟩
      obtain ⟨xs, hxs, -⟩ := h.wrote n
      exact ⟨x, by rw [hxs]; exact List.mem_append_right _ hx, hlt⟩
  | version n o =>
    obtain ⟨hn, hs, ho⟩ := hr
    refine ⟨hn.trans_le h.fresh, h.settled n hs, ho.imp (fun ho => ?_) (h.version n hn)⟩
    rw [h.asOf hn hs, ho]
  | singleton n o | returned n o | nextLock n y | nextVersion n y | nextSingleton n y =>
    obtain ⟨hn, hs, ho⟩ := hr
    exact ⟨hn.trans_le h.fresh, h.settled n hs, by rw [h.asOf hn hs, ho]⟩
  | moveOn n | thrown => trivial

/-! ## What every state is like -/

/-- The locks and the versions are in order, what commits have written to a node is stamped on it or
about to be, and a thread in `getNext` knows what it should. -/
structure Inv (P : Pieces K V m) : Prop where
  closed : P.sys.shared.Closed
  storage : ∀ t, (P.sys.threads t).storage.Closed P.sys.shared.fresh
  within : ∀ t, (P.ending t).Within P.sys.shared.fresh
  orderly : Orderly P.sys.shared P.ending
  readVersion : ∀ t, (P.sys.threads t).transaction.readVersion ≤ P.sys.shared.gvc
  stamped : ∀ n, ∀ x ∈ P.wrote n, x.1 ≤ (P.sys.shared.mem n).getVersion ∨
    ∃ u, (P.ending u).drawn = some x.1 ∧ .set n (.setVersion x.1) ∈ (P.ending u).pending
  latest : ∀ n < P.sys.shared.fresh,
    (P.sys.shared.mem n).next = ((P.wrote n).head?.map Prod.snd).getD (P.first n)
  unwritten : ∀ n, P.sys.shared.fresh ≤ n → P.wrote n = []
  reading : ∀ t r, P.doing t = .reading r →
    P.Sound (P.sys.threads t).transaction.readVersion r

theorem inv_init (minKey : K) (dflt : V) : (init minKey dflt : Pieces K V m).Inv where
  closed := ⟨le_rfl, by rintro n y ⟨⟩, fun l _ => l.isLt⟩
  storage _ := LocalStorage.closed_empty _
  within _ := Ending.within_done _ _
  orderly := ⟨fun _ => le_rfl, fun _ => trivial, fun _ n hn => absurd hn List.not_mem_nil,
    fun hn => absurd hn List.not_mem_nil, fun hd => by simp [ending, init, Ending.drawn] at hd⟩
  readVersion _ := le_rfl
  stamped n x hx := by simp [init] at hx
  latest _ _ := rfl
  unwritten _ _ := rfl
  reading t r h := by simp [init] at h

variable {P P' : Pieces K V m} {t : ThreadId} {rv : Nat}

/-- Thread `t` does something other than a step of `TXend`: the memory there is stays. -/
structure Aside (P P' : Pieces K V m) (t : ThreadId) (e : Ending V m) : Prop where
  ending : P'.ending = Function.update P.ending t e
  idle : (P.ending t).drawn = none
  drawn : e.drawn = none
  held : e.held = []
  wrote : ∀ n, P'.wrote n = P.wrote n
  first : ∀ n < P.sys.shared.fresh, P'.first n = P.first n
  new : ∀ n, P.sys.shared.fresh ≤ n → n < P'.sys.shared.fresh →
    P'.first n = (P'.sys.shared.mem n).next
  gvc : P.sys.shared.gvc ≤ P'.sys.shared.gvc
  fresh : P.sys.shared.fresh ≤ P'.sys.shared.fresh
  mem : ∀ n < P.sys.shared.fresh, P'.sys.shared.mem n = P.sys.shared.mem n
  version : ∀ n, (P'.sys.shared.mem n).word.version ≤ (P.sys.shared.mem n).word.version
  others : ∀ u ≠ t, P'.doing u = P.doing u ∧ P'.sys.threads u = P.sys.threads u

theorem Aside.keeps {e : Ending V m} (h : Aside P P' t e) (rv : Nat) : Keeps rv P P' where
  fresh := h.fresh
  settled n hs := by
    rw [h.ending]
    exact hs.update h.drawn
  wrote n := ⟨[], h.wrote n, fun _ _ hx => absurd hx List.not_mem_nil⟩
  first := h.first
  version n hn hlt := by rwa [h.mem n hn]

/-- What such a step has to show of its own thread. -/
theorem Aside.inv {e : Ending V m} (h : Aside P P' t e) (hP : P.Inv) (hp : e.Proper)
    (hw : e.Within P'.sys.shared.fresh) (hclosed : P'.sys.shared.Closed)
    (hstorage : (P'.sys.threads t).storage.Closed P'.sys.shared.fresh)
    (hrv : (P'.sys.threads t).transaction.readVersion ≤ P'.sys.shared.gvc)
    (hreading : ∀ r, P'.doing t = .reading r →
      P'.Sound (P'.sys.threads t).transaction.readVersion r) : P'.Inv := by
  refine ⟨hclosed, fun u => ?_, fun u => ?_, ?_, fun u => ?_, fun n x hx => ?_, fun n hn => ?_,
    fun n hn => ?_, fun u r hr => ?_⟩
  · by_cases hu : u = t
    · rw [hu]
      exact hstorage
    · rw [(h.others u hu).2]
      exact (hP.storage u).mono h.fresh
  · rw [h.ending]
    by_cases hu : u = t
    · rw [hu, Function.update_self]
      exact hw
    · rw [Function.update_of_ne hu]
      exact (hP.within u).mono h.fresh
  · rw [h.ending]
    exact (hP.orderly.congr h.gvc (fun u n hn => by rw [h.mem n ((hP.within u).1 n hn)])
      h.version).update hp h.held h.drawn
  · by_cases hu : u = t
    · rw [hu]
      exact hrv
    · rw [(h.others u hu).2]
      exact (hP.readVersion u).trans h.gvc
  · rw [h.wrote] at hx
    have hn : n < P.sys.shared.fresh := by
      by_contra hn
      rw [hP.unwritten n (not_lt.1 hn)] at hx
      simp at hx
    rw [h.mem n hn]
    refine (hP.stamped n x hx).imp id ?_
    rintro ⟨u, hd, hmem⟩
    have hu : u ≠ t := fun hu => by simp [hu, h.idle] at hd
    exact ⟨u, by rwa [h.ending, Function.update_of_ne hu], by rwa [h.ending, Function.update_of_ne hu]⟩
  · rw [h.wrote]
    by_cases hn' : n < P.sys.shared.fresh
    · rw [h.mem n hn', h.first n hn']
      exact hP.latest n hn'
    · rw [hP.unwritten n (not_lt.1 hn')]
      exact (h.new n (not_lt.1 hn') hn).symm
  · rw [h.wrote]
    exact hP.unwritten n (h.fresh.trans hn)
  · by_cases hu : u = t
    · rw [hu] at hr ⊢
      exact hreading r hr
    · obtain ⟨hdoing, hthread⟩ := h.others u hu
      rw [hdoing] at hr
      rw [hthread]
      exact (hP.reading u r hr).keeps (h.keeps _)

section End

variable [LinearOrder K] {p : Pick} {e' : Ending V m} {eff : Effect K V m}

theorem keeps_ended (h : P.Inv) (hs : (P.ending t).step P.sys.shared p = some (eff, e'))
    (hrv : rv ≤ P.sys.shared.gvc) : Keeps rv P (P.ended t eff e') := by
  refine ⟨Effect.fresh_le, fun n hn => ?_, fun n => ⟨_, wrote_ended P t eff e' n, ?_⟩, fun _ _ => rfl,
    fun n _ hlt => hlt.trans_le (h.orderly.version_le_step hs n)⟩
  · rw [ending_ended]
    exact h.orderly.settled_step hs hrv hn
  · intro hset x hx
    obtain ⟨job, ws, locked, he⟩ := Ending.mem_wrote hx
    exact hset t x.1 (by rw [he]; rfl) ⟨_, by rw [he]; exact List.mem_cons_self .., rfl⟩

/-- A step of a `TXend`. -/
theorem inv_ended (h : P.Inv) {e : Ending V m} (he : P.doing t = .ending e)
    (hs : e.step P.sys.shared p = some (eff, e')) : (P.ended t eff e').Inv := by
  have hPe : P.ending t = e := by simp [ending, he]
  subst hPe
  have hp := h.orderly.proper t
  have hl := h.orderly.locked t
  obtain ⟨heff, hfresh, hw⟩ := (h.within t).step hp h.closed hs
  have hfresh' : (P.ended t eff e').sys.shared.fresh = P.sys.shared.fresh := hfresh
  have hE := ending_ended P t eff e'
  have hth : ∀ u, ((P.ended t eff e').sys.threads u).transaction.readVersion =
      (P.sys.threads u).transaction.readVersion := by
    intro u
    by_cases hu : u = t
    · subst hu
      cases e' <;> simp [ended, Local.after]
    · simp [ended, hu]
  refine ⟨h.closed.apply heff, fun u => ?_, fun u => ?_, ?_, fun u => ?_, fun n x hx => ?_,
    fun n hn => ?_, fun n hn => ?_, fun u r hr => ?_⟩
  · rw [hfresh']
    by_cases hu : u = t
    · subst hu
      cases e' <;> simp only [ended, Local.after, Function.update_self]
      case done b => exact LocalStorage.closed_empty _
      all_goals exact h.storage u
    · simpa [ended, hu] using h.storage u
  · rw [hE, hfresh']
    by_cases hu : u = t
    · subst hu
      simpa using hw
    · simpa [hu] using h.within u
  · rw [hE]
    exact h.orderly.step hs
  · rw [hth]
    exact (h.readVersion u).trans Effect.gvc_le
  · rw [wrote_ended] at hx
    rcases List.mem_append.1 hx with hx | hx
    · obtain ⟨hd, hmem⟩ := Ending.stamps_later hs hp hl hx
      exact .inr ⟨t, by rwa [hE, Function.update_self], by rwa [hE, Function.update_self]⟩
    · rcases h.stamped n x hx with hle | ⟨u, hd, hmem⟩
      · exact .inl (hle.trans (h.orderly.version_le_step hs n))
      · by_cases hu : u = t
        · subst hu
          obtain ⟨w, ws, hpend, rfl, rfl, hd'⟩ := Ending.write_step hs hp hl hd
          rw [hpend] at hmem
          rcases List.mem_cons.1 hmem with rfl | hmem
          · refine .inl (le_of_eq ?_)
            simp [ended, Write.effect, Effect.apply, LNode.getVersion, Setter.apply]
          · exact .inr ⟨u, by rw [hE, Function.update_self]; exact hd' (List.ne_nil_of_mem hmem),
              by rwa [hE, Function.update_self]⟩
        · exact .inr ⟨u, by rwa [hE, Function.update_of_ne hu], by rwa [hE, Function.update_of_ne hu]⟩
  · have hnext := Ending.next_step hs hp hl n
    rw [wrote_ended]
    refine hnext.trans ?_
    rw [h.latest n (hfresh' ▸ hn)]
    rcases (P.ending t).wrote n with _ | ⟨x, xs⟩ <;> rfl
  · rw [hfresh'] at hn
    rw [wrote_ended, h.unwritten n hn, List.append_nil]
    refine List.eq_nil_iff_forall_not_mem.2 fun x hx => ?_
    obtain ⟨job, ws, locked, he'⟩ := Ending.mem_wrote hx
    have hheld : n ∈ (P.ending t).held := hp.holds (w := .next n x.2) (by rw [he']; exact List.mem_cons_self ..)
    exact absurd ((h.within t).1 n hheld) (not_lt.2 hn)
  · have hu : u ≠ t := by
      rintro rfl
      simp [ended] at hr
    have hr' : P.doing u = .reading r := by simpa [ended, hu] using hr
    rw [hth]
    exact (h.reading u r hr').keeps (keeps_ended h hs (h.readVersion u))

end End

section Reading

variable [LinearOrder K] {r r' : Reading} {eff : Effect K V m} {n : NodeId}

omit [LinearOrder K] in
/-- What commits have written to an unlocked node is stamped on it. -/
theorem Inv.version_of_unlocked (h : P.Inv) (hn : (P.sys.shared.mem n).isLocked = false)
    {x : Nat × Option NodeId} (hx : x ∈ P.wrote n) : x.1 ≤ (P.sys.shared.mem n).getVersion := by
  rcases h.stamped n x hx with hle | ⟨u, -, hmem⟩
  · exact hle
  · have hlock : (P.sys.shared.mem n).isLocked = true := h.orderly.locked_of_pending hmem
    rw [hn] at hlock
    simp at hlock

omit [LinearOrder K] in
/-- `m_next` is what the last commit up to the read version has left, or a later one has written it. -/
theorem Inv.next_asOf (h : P.Inv) (hn : n < P.sys.shared.fresh) (rv : Nat) :
    (P.sys.shared.mem n).next = P.asOf n rv ∨ ∃ x ∈ P.wrote n, rv < x.1 := by
  rw [h.latest n hn, asOf]
  rcases P.wrote n with _ | ⟨x, xs⟩
  · exact .inl rfl
  · by_cases hx : x.1 ≤ rv
    · exact .inl (by simp [hx])
    · exact .inr ⟨x, List.mem_cons_self .., not_le.1 hx⟩

omit [LinearOrder K] in
/-- One step of `getNext`. -/
theorem Sound.step (h : P.Inv) (hr : P.Sound rv r) (hs : r.step P.sys.shared rv = some (eff, r')) :
    P.Sound rv r' := by
  cases r with
  | lockBit n =>
    simp only [Reading.step, Option.some.injEq] at hs
    obtain ⟨-, rfl⟩ := Prod.mk.inj hs
    split_ifs with hlock
    · trivial
    · exact ⟨hr, h.orderly.settled_of_unlocked (by simpa using hlock) rv⟩
  | next n =>
    obtain ⟨-, rfl⟩ := Prod.mk.inj (Option.some.inj hs)
    exact ⟨hr.1, hr.2, h.next_asOf hr.1 rv⟩
  | lockAgain n o =>
    simp only [Reading.step, Option.some.injEq] at hs
    obtain ⟨-, rfl⟩ := Prod.mk.inj hs
    split_ifs with hlock
    · trivial
    · refine ⟨hr.1, hr.2.1, hr.2.2.imp id ?_⟩
      rintro ⟨x, hx, hlt⟩
      exact hlt.trans_le (h.version_of_unlocked (by simpa using hlock) hx)
  | version n o =>
    simp only [Reading.step, Option.some.injEq] at hs
    obtain ⟨-, rfl⟩ := Prod.mk.inj hs
    split_ifs with hv
    · trivial
    · exact ⟨hr.1, hr.2.1, hr.2.2.resolve_right hv⟩
  | singleton n o =>
    simp only [Reading.step, Option.some.injEq] at hs
    obtain ⟨-, rfl⟩ := Prod.mk.inj hs
    split_ifs
    · trivial
    · cases o with
      | none => exact hr
      | some y => exact hr
  | nextLock n y | nextVersion n y =>
    simp only [Reading.step, Option.some.injEq] at hs
    obtain ⟨-, rfl⟩ := Prod.mk.inj hs
    split_ifs
    · trivial
    · exact hr
  | nextSingleton n y =>
    simp only [Reading.step, Option.some.injEq] at hs
    obtain ⟨-, rfl⟩ := Prod.mk.inj hs
    split_ifs
    · trivial
    · exact hr
  | moveOn n =>
    obtain ⟨-, rfl⟩ := Prod.mk.inj (Option.some.inj hs)
    trivial
  | returned n o | thrown => simp [Reading.step] at hs

end Reading

section Aside

variable {r r' : Reading} {eff : Effect K V m} {n : NodeId}

/-- Effects that leave the nodes alone. -/
theorem aside_read (h : (P.ending t).drawn = none) (hmem : (eff.apply P.sys.shared).mem = P.sys.shared.mem)
    (hfresh : (eff.apply P.sys.shared).fresh = P.sys.shared.fresh) (r : Reading) :
    Aside P (P.read t eff r) t (.done false) where
  ending := ending_read P t eff r
  idle := h
  drawn := rfl
  held := rfl
  wrote _ := rfl
  first _ _ := rfl
  new n hn hn' := absurd hn (not_le.2 (hfresh ▸ hn'))
  gvc := Effect.gvc_le
  fresh := Effect.fresh_le
  mem n _ := congrFun hmem n
  version n := (congrArg (fun x => x.word.version) (congrFun hmem n)).le
  others u hu := by simp [read, hu]

theorem inv_read (h : P.Inv) (hd : (P.ending t).drawn = none) (heff : eff = .none ∨ eff = .increment)
    (hr : P.Sound (P.sys.threads t).transaction.readVersion r) : (P.read t eff r).Inv := by
  have hmem : (eff.apply P.sys.shared).mem = P.sys.shared.mem := by rcases heff with rfl | rfl <;> rfl
  have hfresh : (eff.apply P.sys.shared).fresh = P.sys.shared.fresh := by
    rcases heff with rfl | rfl <;> rfl
  have hw : eff.Within P.sys.shared := by rcases heff with rfl | rfl <;> trivial
  have ha := aside_read hd hmem hfresh r
  have hth : (P.read t eff r).sys.threads t = (P.sys.threads t).afterReading r := by simp [read]
  have hst : ((P.sys.threads t).afterReading r).storage = (P.sys.threads t).storage := by cases r <;> rfl
  have hrv : ((P.sys.threads t).afterReading r).transaction.readVersion =
      (P.sys.threads t).transaction.readVersion := by cases r <;> rfl
  refine ha.inv h trivial (Ending.within_done _ _) (h.closed.apply hw) ?_ ?_ fun r' hr' => ?_
  · rw [hth, hst]
    exact (h.storage t).mono ha.fresh
  · rw [hth, hrv]
    exact (h.readVersion t).trans ha.gvc
  · obtain rfl : r = r' := by simpa [read] using hr'
    rw [hth, hrv]
    exact hr.keeps (ha.keeps _)

theorem aside_start (h : (P.ending t).drawn = none) (job : Job V m) :
    Aside P (P.ended t .none (.start job)) t (.start job) where
  ending := ending_ended P t .none _
  idle := h
  drawn := Ending.drawn_of_pending (Ending.pending_start job)
  held := Ending.held_start job
  wrote n := by rw [wrote_ended, Ending.wrote_of_drawn h, List.nil_append]
  first _ _ := rfl
  new n hn hn' := absurd hn (not_le.2 hn')
  gvc := le_rfl
  fresh := le_rfl
  mem _ _ := rfl
  version _ := le_rfl
  others u hu := by simp [ended, hu]

theorem inv_start (h : P.Inv) (hd : (P.ending t).drawn = none) {ch : Choice}
    (ho : ch.Orders (P.sys.threads t).storage) :
    (P.ended t .none (.start ((P.sys.threads t).job ch))).Inv := by
  set job := (P.sys.threads t).job ch with hjob
  have ha := aside_start hd job
  have hth : (P.ended t .none (.start job)).sys.threads t = (P.sys.threads t).after (.start job) := by
    simp [ended]
  refine ha.inv h (Ending.proper_start (Local.keys_job _ ho))
    (Ending.within_start ((h.storage t).job ch)) h.closed ?_ ?_ fun r hr => by simp [ended] at hr
  · rw [hth]
    cases Ending.start job <;> first | exact LocalStorage.closed_empty _ | exact h.storage t
  · rw [hth]
    cases Ending.start job <;> exact h.readVersion t

theorem aside_called {c : Ctx K V m} (h : (P.ending t).drawn = none)
    (hc : (P.sys.ctx t).Moves c) : Aside P (P.called t (P.sys.put t c)) t (.done false) where
  ending := ending_called P t _
  idle := h
  drawn := rfl
  held := rfl
  wrote _ := rfl
  first n hn := if_pos hn
  new n hn _ := if_neg (not_lt.2 hn)
  gvc := hc.gvc
  fresh := hc.fresh
  mem := hc.mem
  version := hc.version
  others u hu := by simp [called, Sys.put, hu]

theorem inv_called {c : Ctx K V m} (h : P.Inv) (hd : (P.ending t).drawn = none)
    (hc : (P.sys.ctx t).Moves c) : (P.called t (P.sys.put t c)).Inv := by
  have hth : (P.called t (P.sys.put t c)).sys.threads t = ⟨c.storage, c.transaction⟩ :=
    Sys.put_threads_self _ _ _
  refine (aside_called hd hc).inv h trivial (Ending.within_done _ _) hc.closed ?_ ?_
    fun r hr => by simp [called] at hr
  · rw [hth]
    exact hc.storage
  · rw [hth]
    exact hc.readVersion

end Aside

section Runs

variable [LinearOrder K] {minKey : K} {dflt : V} {p : Piece K V m} {n : NodeId} {o : Option NodeId}

/-- A call that is one step. -/
theorem Inv.call (h : P.Inv) {op : Op K V m} {ch : Choice} {x : Sys K V m × Ret V}
    (ha : P.Allows t op) (hx : P.sys.step t op ch = some x) :
    ∃ c, x.1 = P.sys.put t c ∧ (P.sys.ctx t).Moves c := by
  obtain ⟨-, hop, hT⟩ := ha
  have hrefl : (P.sys.ctx t).Moves (P.sys.ctx t) :=
    ⟨h.closed, h.storage t, le_rfl, h.readVersion t, le_rfl, fun _ _ => rfl, fun _ => le_rfl⟩
  obtain ⟨c, hc, hmoves | ⟨-, hmoves⟩⟩ := Sys.step_of_ends (call_moves hrefl hop hT) hx
  · exact ⟨c, hc, hmoves⟩
  · exact ⟨c, hc, hmoves⟩

/-- A step keeps the invariant and what is settled. -/
theorem Inv.step (h : P.Inv) (hs : P.next t p = some P') :
    P'.Inv ∧ ∀ rv ≤ P.sys.shared.gvc, Keeps rv P P' ∧ rv ≤ P'.sys.shared.gvc := by
  have hrest : (P.doing t).resting = true → (P.ending t).drawn = none := fun hr => by
    obtain ⟨b, hb⟩ := ending_of_resting hr
    rw [hb]
    rfl
  cases p with
  | call op ch =>
    simp only [next, Option.ite_none_right_eq_some, Option.map_eq_some_iff] at hs
    obtain ⟨ha, x, hx, rfl⟩ := hs
    obtain ⟨c, hc, hmoves⟩ := h.call ha hx
    rw [hc]
    exact ⟨inv_called h (hrest ha.1) hmoves, fun rv hrv =>
      ⟨(aside_called (hrest ha.1) hmoves).keeps rv, hrv.trans hmoves.gvc⟩⟩
  | txEnd ch =>
    simp only [next, Option.ite_none_right_eq_some, Option.some.injEq] at hs
    obtain ⟨⟨hr, ho⟩, rfl⟩ := hs
    exact ⟨inv_start h (hrest hr) ho, fun rv hrv => ⟨(aside_start (hrest hr) _).keeps rv, hrv⟩⟩
  | getNext n =>
    simp only [next, Option.ite_none_right_eq_some, Option.some.injEq] at hs
    obtain ⟨⟨hr, -, hn, -⟩, rfl⟩ := hs
    exact ⟨inv_read h (hrest hr) (.inl rfl) hn, fun rv hrv =>
      ⟨(aside_read (hrest hr) rfl rfl _).keeps rv, hrv⟩⟩
  | go p =>
    rcases hd : P.doing t with _ | e | r
    · simp [next, hd] at hs
    · simp only [next, hd, Option.map_eq_some_iff] at hs
      obtain ⟨⟨eff, e'⟩, he, rfl⟩ := hs
      have he' : (P.ending t).step P.sys.shared p = some (eff, e') := by simpa [ending, hd] using he
      exact ⟨inv_ended h hd he, fun rv hrv => ⟨keeps_ended h he' hrv, hrv.trans Effect.gvc_le⟩⟩
    · simp only [next, hd, Option.map_eq_some_iff] at hs
      obtain ⟨⟨eff, r'⟩, hr, rfl⟩ := hs
      have hdrawn : (P.ending t).drawn = none := by rw [ending_of_reading hd]; rfl
      have heff : eff = .none ∨ eff = .increment := by
        cases r <;> simp only [Reading.step, Option.some.injEq, Prod.mk.injEq, reduceCtorEq] at hr
        case moveOn n => exact .inr hr.1.symm
        all_goals exact .inl hr.1.symm
      refine ⟨inv_read h hdrawn heff (Sound.step h (h.reading t r hd) hr), fun rv hrv => ⟨?_, ?_⟩⟩
      · rcases heff with rfl | rfl <;> exact (aside_read hdrawn rfl rfl r').keeps rv
      · exact hrv.trans Effect.gvc_le

theorem Reach.inv (hr : Reach minKey dflt P) : P.Inv := by
  induction hr with
  | refl => exact inv_init minKey dflt
  | step _ hs ih => exact (ih.step hs).1

/-- What is settled stays so over a run. -/
theorem Inv.run (h : P.Inv) (hrv : rv ≤ P.sys.shared.gvc) (hn : Settled P.ending n rv) (hr : P.Run P') :
    P'.Inv ∧ rv ≤ P'.sys.shared.gvc ∧ Settled P'.ending n rv := by
  induction hr with
  | refl => exact ⟨h, hrv, hn⟩
  | step _ hs ih =>
    obtain ⟨hinv, hle, hset⟩ := ih
    obtain ⟨hinv', hkeeps⟩ := hinv.step hs
    exact ⟨hinv', (hkeeps rv hle).2, (hkeeps rv hle).1.settled n hset⟩

/-- `getNext` returns the `m_next` that the last commit with a write version up to the transaction's
read version has left, and no commit with such a version writes the node afterwards. -/
theorem Reach.getNext_reads_snapshot (hr : Reach minKey dflt P)
    (hd : P.doing t = .reading (.returned n o)) (hrun : P.Run P') :
    o = P.asOf n (P.sys.threads t).transaction.readVersion ∧
      ∀ u wv, P'.Writes u n wv → (P.sys.threads t).transaction.readVersion < wv := by
  have h := hr.inv
  obtain ⟨-, hset, ho⟩ := h.reading t _ hd
  refine ⟨ho, ?_⟩
  rintro u wv ⟨job, w, ws, locked, hdoing, hnode⟩
  have he : P'.ending u = .write job wv w ws locked := by rw [ending, hdoing]
  exact (h.run (h.readVersion t) hset hrun).2.2 u wv (by rw [he]; rfl)
    ⟨w, by rw [he]; exact List.mem_cons_self .., hnode⟩

/-- What the thread's `getNext` has returned. -/
def got (P : Pieces K V m) (t : ThreadId) : Option (NodeId × Option NodeId) :=
  match P.doing t with
  | .reading (.returned n next) => some (n, next)
  | _ => none

omit [LinearOrder K] in
theorem doing_of_got (h : P.got t = some (n, o)) : P.doing t = .reading (.returned n o) := by
  unfold got at h
  split at h
  · rename_i hd
    obtain ⟨rfl, rfl⟩ := Prod.mk.inj (Option.some.inj h)
    exact hd
  · simp at h

/-- Take steps in turn. -/
def play (P : Pieces K V m) : List (ThreadId × Piece K V m) → Option (Pieces K V m)
  | [] => some P
  | (t, p) :: ps => (P.next t p).bind fun P' => P'.play ps

theorem Run.play {P₀ : Pieces K V m} : ∀ {ps : List (ThreadId × Piece K V m)} {P P' : Pieces K V m},
    Run P₀ P → P.play ps = some P' → Run P₀ P'
  | [], P, P', hr, h => by
    obtain rfl : P = P' := by simpa [Pieces.play] using h
    exact hr
  | (t, p) :: ps, P, P', hr, h => by
    obtain ⟨P₁, hn, h⟩ := Option.bind_eq_some_iff.1 h
    exact Run.play (hr.step hn) h

/-- A thread commits a `put`, and another one reads past it. -/
theorem getNext_reads_snapshot_two : ∃ P : Pieces Nat Nat 1, Reach 0 0 P ∧
    P.doing 0 = .reading (.returned 0 (some 1)) ∧
    some 1 = P.asOf 0 (P.sys.threads 0).transaction.readVersion ∧
      ∀ u wv, P.Writes u 0 wv → (P.sys.threads 0).transaction.readVersion < wv := by
  have h : ((init 0 0 : Pieces Nat Nat 1).play ([(1, .call .txBegin { fuel := 9 }),
      (1, .call (.put 0 5 50) { fuel := 9 }), (1, .txEnd { fuel := 9, writeOrder := [0], readOrder := [0] })] ++
      List.replicate 9 (1, .go { fuel := 9 }) ++
      [(0, .call .txBegin { fuel := 9 }), (0, .getNext 0)] ++ List.replicate 8 (0, .go {}))).any
        (fun P : Pieces Nat Nat 1 => decide (P.got 0 = some (0, some 1))) = true := by
    decide +kernel
  obtain ⟨P, hP, hgot⟩ := Option.any_eq_true _ _ |>.1 h
  have hr : Reach 0 0 P := Run.refl.play hP
  have hd := doing_of_got (of_decide_eq_true hgot)
  exact ⟨P, hr, hd, hr.getNext_reads_snapshot hd .refl⟩

end Runs

end Pieces

end TxList
