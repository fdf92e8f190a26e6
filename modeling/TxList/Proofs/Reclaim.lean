import TxList.Reclaim
import TxList.Proofs.Retiring

/-!
# What has been freed is out of reach

A node is retired when no list and no index leads to it. So a call gets to a retired node by a pointer
that its transaction has kept from an earlier call, and by no other.
-/

namespace TxList

open Prog

variable {K V : Type} {m : Nat}

/-! ## What a transaction keeps -/

section Kept

variable {ls : LocalStorage V m} {σ : Sys K V m} {t : ThreadId} {n : NodeId} {D : Region m}

theorem LocalStorage.mem_pointers : n ∈ ls.pointers ↔ n ∈ ls.readSet ∨ n ∈ ls.writeSet ∨
    (∃ k we, ls.writeSet.lookup k = some we ∧ we.next = some n) ∨
      ∃ l, n ∈ ls.indexAdd l ∨ n ∈ ls.indexRemove l := by
  have hnext : (∃ e ∈ ls.writeSet.entries, e.2.next = some n) ↔
      ∃ k we, ls.writeSet.lookup k = some we ∧ we.next = some n := by
    constructor
    · rintro ⟨⟨k, we⟩, he, hn⟩
      exact ⟨k, we, AList.mem_lookup_iff.2 he, hn⟩
    · rintro ⟨k, we, he, hn⟩
      exact ⟨⟨k, we⟩, AList.mem_lookup_iff.1 he, hn⟩
  rw [← hnext]
  simp [LocalStorage.pointers, AList.mem_keys]

theorem Sys.mem_kept : n ∈ σ.kept t ↔ n ∈ (σ.threads t).storage.pointers ∨
    ∃ k ∈ (σ.threads t).pending, σ.shared.next k = some n := by
  simp only [Sys.kept, Local.pending, Finset.mem_union, Finset.mem_biUnion, Finset.mem_univ, true_and,
    List.mem_toFinset, List.mem_filterMap, Set.mem_ofPred_eq]
  refine or_congr_right ⟨?_, ?_⟩
  · rintro ⟨l, k, hk, hn⟩
    exact ⟨k, ⟨l, hk⟩, hn⟩
  · rintro ⟨k, ⟨l, hk⟩, hn⟩
    exact ⟨l, k, hk, hn⟩

/-- A region with every list holds the storage if all its pointers lead there. -/
theorem Region.holds_iff (hD : D.lists = Set.univ) : D.Holds ls ↔ ∀ n ∈ ls.pointers, n ∈ D.nodes := by
  constructor
  · intro h n hn
    rcases LocalStorage.mem_pointers.1 hn with hn | hn | ⟨k, we, hk, hn⟩ | ⟨l, hn | hn⟩
    · exact h.read n hn
    · obtain ⟨we, hwe⟩ := Option.isSome_iff_exists.1 (AList.lookup_isSome.2 hn)
      exact (h.written n we hwe).1
    · exact (h.written k we hk).2 n hn
    · exact (h.added l n hn).2
    · exact (h.removed l n hn).2
  · intro h
    refine ⟨fun n we hn => ⟨h n ?_, fun y hy => h y ?_⟩, fun n hn => h n ?_,
      fun l n hn => ⟨hD ▸ trivial, h n ?_⟩, fun l n hn => ⟨hD ▸ trivial, h n ?_⟩⟩ <;>
      rw [LocalStorage.mem_pointers]
    · exact .inr (.inl (AList.lookup_isSome.1 (by rw [hn]; rfl)))
    · exact .inr (.inr (.inl ⟨n, we, hn, hy⟩))
    · exact .inl hn
    · exact .inr (.inr (.inr ⟨l, .inl hn⟩))
    · exact .inr (.inr (.inr ⟨l, .inr hn⟩))

end Kept

/-! ## A call within a region -/

section Avoiding

variable [LinearOrder K] {σ : Sys K V m} {t : ThreadId} {op : Op K V m} {ch : Choice} {D : Region m}
  {F : Finset NodeId}

/-- What a call within a region does is the same whatever the nodes outside hold. -/
theorem Sys.accessesNone_of_region (hD : D.Closes σ.shared) (hH : D.Holds (σ.threads t).storage)
    (hl : D.lists = Set.univ) (hfresh : σ.shared.fresh ∈ D.nodes) (hF : ∀ n ∈ F, n ∉ D.nodes)
    (ho : op = .txEnd → ch.Orders (σ.threads t).storage) : AccessesNone (call ch op) (σ.ctx t) F := by
  intro y
  have hmem : ∀ {n}, n ∈ D.nodes → ((σ.ctx t).refill F y).shared.mem n = σ.shared.mem n := fun {n} hn =>
    if_neg fun hf => hF n hf hn
  have hstart : Apart True D σ.shared ((σ.ctx t).refill F y).shared D.Held 1 (σ.ctx t)
      ((σ.ctx t).refill F y) := by
    refine ⟨hD, fun i hi => ?_, ⟨rfl, rfl, rfl, fun n hn => hmem hn, fun _ _ => rfl⟩, .refl _, .refl _,
      rfl, hH, rfl, rfl, fun _ => rfl, fun _ => rfl⟩
    obtain rfl : i = 0 := Nat.lt_one_iff.1 hi
    exact hfresh
  have hend : ∀ {c c' : Ctx K V m}, Apart True D σ.shared ((σ.ctx t).refill F y).shared D.Held 0 c c' →
      c' = c.refill F y := by
    rintro ⟨s, ls, lt⟩ ⟨s', ls', lt'⟩ h
    have hs' : s' = (Ctx.refill ⟨s, ls, lt⟩ F y).shared := by
      have hm : s'.mem = (Ctx.refill ⟨s, ls, lt⟩ F y).shared.mem := by
        funext n
        by_cases hf : n ∈ F
        · rw [h.spares'.mem n (hF n hf)]
          simp [Ctx.refill, hf]
        by_cases hn : n ∈ D.nodes
        · simpa [Ctx.refill, hf] using h.same.mem n hn
        · rw [h.spares'.mem n hn]
          have he : s.mem n = (σ.ctx t).shared.mem n := h.spares.mem n hn
          simp [Ctx.refill, hf, he]
      have hix : s'.index = s.index := funext fun l => h.same.index l (hl ▸ trivial)
      obtain ⟨g, f, hr⟩ : s'.gvc = s.gvc ∧ s'.fresh = s.fresh ∧ s'.retired = s.retired :=
        ⟨h.same.gvc, h.same.fresh, h.same.retired⟩
      rcases s' with ⟨_, _, _, _, _⟩
      simp only at hm hix g f hr
      subst hm hix g f hr
      rfl
    obtain rfl := hs'
    obtain rfl : ls' = ls := h.storage
    obtain rfl : lt' = lt := h.whole trivial
    rfl
  have halike : EndsAlike (call ch op) (σ.ctx t) ((σ.ctx t).refill F y) _ _ :=
    hstart.call (Region.takes_of_univ hl op) (fun _ => zero_lt_one) ho
  simp only [EndsAlike] at halike
  rcases hx : call ch op (σ.ctx t) with ⟨a, c⟩ | ⟨e, c⟩ <;>
    rcases hx' : call ch op ((σ.ctx t).refill F y) with ⟨a', c'⟩ | ⟨e', c'⟩ <;>
    simp only [hx, hx'] at halike
  · obtain ⟨rfl, h⟩ := halike
    rw [hend h]
  · obtain ⟨rfl, h⟩ := halike
    rw [hend h]

end Avoiding

/-! ## The ground a transaction stands on -/

section Ground

variable [LinearOrder K] {σ : Sys K V m} {C : Conf K V m} {S : ListId m → Finset NodeId} {t : ThreadId}
  {n : NodeId} {l : ListId m}

omit [LinearOrder K] in
variable (σ t) in
/-- The nodes on the lists, those the thread is to add, and what is not allocated yet. -/
def Sys.ground : Region m where
  nodes := {n | σ.shared.Reaches n ∨ n ∈ (σ.threads t).pending ∨ σ.shared.fresh ≤ n}
  lists := Set.univ
  idx := fun _ => ∅

/-- What is retired is off the lists, and a transaction keeps pointers to what is on them, to its own
new nodes and to what has been retired since. -/
structure Conf.Custody (C : Conf K V m) : Prop where
  unreached : ∀ n ∈ C.sys.shared.retired, ¬ C.sys.shared.Reaches n
  kept : ∀ t, ∀ n ∈ C.sys.kept t, C.sys.shared.Reaches n ∨ n ∈ (C.sys.threads t).pending ∨
    n ∈ C.sys.shared.retired
  blank : ∀ n, C.sys.shared.fresh ≤ n → C.sys.shared.next n = none

/-- The levels of an index in order lead to what they hold. -/
theorem Index.Indexed.within {v : NodeView K} {rank : NodeId → WithBot K} {hn : NodeId} {ix : Index}
    {A : Finset NodeId} {N : Set NodeId} (h : Index.Indexed v rank hn ix A) (hN : ∀ n ∈ insert hn A, n ∈ N) :
    ∃ S H, ix.Within N S H := by
  obtain ⟨top, hd, row, hSh, hA⟩ := h
  refine ⟨{i | ∃ l ≤ top, i ∈ row l}, {i | ∃ l ≤ top, i = hd l}, ?_, ⟨top, le_rfl, ?_⟩,
    ⟨0, Nat.zero_le _, hSh.bottom⟩, ?_, ?_, ?_, ?_⟩
  · rintro i ⟨l, hl, hi⟩
    by_cases hne : i = hd l
    · rw [hne, hSh.hd_node l hl]
      exact hN hn (Finset.mem_insert_self _ _)
    · exact hN _ (Finset.mem_insert_of_mem (hSh.node_mem hA l hl i hi hne))
  · rw [hSh.top_eq]
    exact hSh.hd_mem le_rfl
  · rintro _ ⟨l, hl, rfl⟩
    exact ⟨l, hl, hSh.hd_mem hl⟩
  · rintro i ⟨l, hl, hi⟩ j hj
    exact ⟨l, hl, (hSh.path l hl).next_mem hi hj⟩
  · rintro i ⟨l, hl, hi⟩ j hj
    rcases l with _ | l
    · rw [hSh.down_zero i hi] at hj
      simp at hj
    · obtain ⟨j', hj', hd, -⟩ := hSh.down_succ l hl i hi
      rw [hd] at hj
      obtain rfl := Option.some.inj hj
      exact ⟨l, Nat.le_of_succ_le hl, hj'⟩
  · rintro _ ⟨l, hl, rfl⟩ j hj
    rw [hSh.hd_up l hl] at hj
    split_ifs at hj with htop
    obtain rfl := Option.some.inj hj
    exact ⟨l + 1, lt_of_le_of_ne hl htop, rfl⟩

theorem Lists.reaches_of_holds {s : Shared K V m} (hL : Lists s S) (h : (s.index l).Holds n) :
    s.Reaches n := hL.reaches_iff.2 ⟨l, (hL.indexed l).mem_of_holds h⟩

variable (hL : Lists C.sys.shared S) (hC : C.Custody)
  (hkeep : ∀ n ∈ C.sys.shared.retired, n ∉ C.sys.kept t)

include hC hkeep

omit [LinearOrder K] in
theorem Conf.Custody.kept_ground (hn : n ∈ C.sys.kept t) : n ∈ (C.sys.ground t).nodes := by
  rcases hC.kept t n hn with hr | hp | hr
  · exact .inl hr
  · exact .inr (.inl hp)
  · exact absurd hn (hkeep n hr)

omit [LinearOrder K] in
theorem Conf.Custody.holds : (C.sys.ground t).Holds (C.sys.threads t).storage :=
  (Region.holds_iff rfl).2 fun _ hn => hC.kept_ground hkeep (Sys.mem_kept.2 (.inl hn))

include hL in
/-- No pointer leads off the ground while nothing the transaction keeps a pointer to is retired. -/
theorem Conf.Custody.closes : (C.sys.ground t).Closes C.sys.shared := by
  refine ⟨fun l _ => .inl (.head l), ?_, fun l _ => ?_⟩
  · rintro n (hr | hp | hf) y hy
    · exact .inl (.next hr hy)
    · exact hC.kept_ground hkeep (Sys.mem_kept.2 (.inr ⟨n, hp, hy⟩))
    · have hnone : (C.sys.shared.mem n).next = none := hC.blank n hf
      rw [hnone] at hy
      simp at hy
  · obtain ⟨S', H, hw⟩ := (hL.indexed l).within (N := (C.sys.ground t).nodes) fun n hn =>
      .inl (hL.reaches_iff.2 ⟨l, hn⟩)
    exact ⟨S', H, Set.empty_subset _, hw⟩

include hL in
/-- Pointers lead a call to the ground only. -/
theorem Conf.Custody.getsTo (h : C.sys.GetsTo t n) : n ∈ (C.sys.ground t).nodes := by
  induction h with
  | head l => exact .inl (.head l)
  | index hh => exact .inl (hL.reaches_of_holds hh)
  | storage hn => exact hC.kept_ground hkeep (Sys.mem_kept.2 (.inl hn))
  | next _ hy ih => exact (hC.closes hL hkeep).next _ ih _ hy

end Ground

/-! ## Steps -/

section Steps

variable [LinearOrder K] {C C' : Conf K V m} {t u : ThreadId} {op : Op K V m} {ret : Ret V} {n : NodeId}

omit [LinearOrder K] in
theorem Shared.reaches_congr {s s' : Shared K V m} (h : ∀ n, s.Reaches n → s'.next n = s.next n) :
    s'.Reaches n ↔ s.Reaches n := by
  constructor
  · intro hr
    induction hr with
    | head l => exact .head l
    | next _ hy ih => exact .next ih (h _ ih ▸ hy)
  · intro hr
    induction hr with
    | head l => exact .head l
    | next hr hy ih => exact .next ih ((h _ hr).trans hy)

omit [LinearOrder K] in
theorem Sane.lt_of_reaches {c : Ctx K V m} (hs : Sane c) (h : c.shared.Reaches n) : n < c.shared.fresh := by
  induction h with
  | head l => exact (head_lt l).trans_le hs.heads
  | next _ hy _ => exact hs.next _ _ hy

omit [LinearOrder K] in
/-- An access in a transaction leaves the lists as they are. -/
theorem Ctx.Accessed.reaches_iff {c c' : Ctx K V m} (h : c.Accessed c') (hs : Sane c) :
    c'.shared.Reaches n ↔ c.shared.Reaches n := by
  refine Shared.reaches_congr fun k hk => ?_
  rcases h.mem k with he | ⟨rfl, -⟩
  · rw [Shared.next, he, Shared.next]
  · exact absurd (hs.lt_of_reaches hk) (lt_irrefl _)

omit [LinearOrder K] in
theorem TxClient.open_of_access (hG : TxClient C t op) (hop : op.isAccess = true) : C.inTX t = true := by
  cases op with
  | put | remove | get | containsKey => exact hG.2
  | txBegin | txEnd | handleAbort => simp [Op.isAccess] at hop

theorem Conf.Step.begins_keeps (hst : C.Step t .txBegin ret C') :
    C'.sys.shared = C.sys.shared ∧ (C'.sys.threads t).storage = (C.sys.threads t).storage := by
  obtain ⟨ch, -, hstep, -⟩ := hst
  obtain ⟨c, he, hc⟩ := Sys.step_of_ends (Q := fun _ c => c.shared = C.sys.shared ∧
    c.storage = (C.sys.threads t).storage) (P := fun _ => False) (by
      simp only [call, TXbegin, Ends_bind, Ends_getVersion, Ends_modifyTransaction, Ends_pure]
      exact ⟨rfl, rfl⟩) hstep
  rw [he]
  simpa using hc.resolve_right And.right

/-- `TXend` and `handle_abort` leave the storage empty. -/
theorem Conf.Step.empties (hst : C.Step t op ret C') (hs : C.sys.Sane)
    (hop : op = .txEnd ∨ op = .handleAbort) : (C'.sys.threads t).storage = {} := by
  obtain ⟨ch, ho, hstep, -⟩ := hst
  have hends : Ends (call ch op) (C.sys.ctx t) (fun _ c => c.storage = {})
      (OnAbort fun c => c.storage = {}) := by
    rcases hop with rfl | rfl <;> simp only [call, Ends_bind, Ends_pure]
    · exact TXend_empties (hs t) (ho rfl)
    · exact handle_abort_ends fun r => rfl
  obtain ⟨c, he, hc⟩ := Sys.step_of_ends hends hstep
  rw [he, Sys.put_threads_self]
  exact hc.elim id And.right

theorem Conf.Step.access (hst : C.Step t op ret C') (hop : op.isAccess = true) (hT : C.inTX t = true) :
    ∃ c, C'.sys = C.sys.put t c ∧ (C.sys.ctx t).Accessed c := by
  obtain ⟨ch, -, hstep, -⟩ := hst
  obtain ⟨c, he, hc⟩ := Sys.step_of_ends
    (call_accessed hop (show (C.sys.ctx t).transaction.TX = true from hT)) hstep
  exact ⟨c, he, hc.elim And.left And.right⟩

/-- Of the nodes on the lists, a step retires those that it takes off; and it retires no others that
stay on them. -/
structure Conf.Moves (C C' : Conf K V m) : Prop where
  left : ∀ n, C.sys.shared.Reaches n → C'.sys.shared.Reaches n ∨ n ∈ C'.sys.shared.retired
  kept : ∀ n ∈ C.sys.shared.retired, n ∈ C'.sys.shared.retired
  unreached : (∀ n ∈ C.sys.shared.retired, ¬ C.sys.shared.Reaches n) →
    ∀ n ∈ C'.sys.shared.retired, ¬ C'.sys.shared.Reaches n

omit [LinearOrder K] in
/-- The lists and what is retired are as they were. -/
theorem Conf.Moves.of_same (hr : ∀ n, C'.sys.shared.Reaches n ↔ C.sys.shared.Reaches n)
    (hret : C'.sys.shared.retired = C.sys.shared.retired) : C.Moves C' :=
  ⟨fun n hn => .inl ((hr n).2 hn), fun n hn => hret ▸ hn, fun h n hn => by
    rw [hr n]
    exact h n (hret ▸ hn)⟩

theorem Tracked.moves (hT : Tracked C) (hs : C.sys.Steady) (hG : TxClient C t op)
    (hst : C.Step t op ret C') : C.Moves C' := by
  have hw := hs.withheld.withholds t
  rcases hacc : op.isAccess with _ | _
  · cases op with
    | txBegin =>
      have he := hst.begins_keeps.1
      exact .of_same (fun n => by rw [he]) (by rw [he])
    | txEnd =>
      by_cases hret : ret = .aborted
      · subst hret
        have hd := hst.drops hs.sane
        exact .of_same (fun n => Shared.reaches_congr fun k _ => hd.next k) hd.retired
      · obtain ⟨⟨rs, hrs, -, hmem⟩, hback⟩ := hT.commit hst hret
        refine ⟨fun n hn => ?_, fun n hn => ?_, fun h n hn hr => ?_⟩
        · by_cases hr : C'.sys.shared.Reaches n
          · exact .inl hr
          · exact .inr (hrs ▸ List.mem_append_left _ ((hmem n).2 ⟨.inl hn, hr⟩))
        · exact hrs ▸ List.mem_append_right _ hn
        · rw [hrs] at hn
          rcases List.mem_append.1 hn with hn | hn
          · exact ((hmem n).1 hn).2 hr
          · exact (hback n hr).elim (h n hn) fun hp => hw.unretired n hp hn
    | handleAbort =>
      obtain ⟨hmem, hret⟩ := hst.handles
      have hr : ∀ n, C'.sys.shared.Reaches n ↔ C.sys.shared.Reaches n := fun n =>
        Shared.reaches_congr fun k _ => by rw [Shared.next, hmem, Shared.next]
      refine ⟨fun n hn => .inl ((hr n).2 hn), fun n hn => hret ▸ List.mem_append_right _ hn,
        fun h n hn => ?_⟩
      rw [hr]
      rw [hret] at hn
      rcases List.mem_append.1 hn with hn | hn
      · exact hw.hides.unreached (Local.mem_toAdd.1 (List.mem_reverse.1 hn))
      · exact h n hn
    | put | remove | get | containsKey => simp [Op.isAccess] at hacc
  · obtain ⟨c, he, ha⟩ := hst.access hacc (hG.open_of_access hacc)
    exact .of_same (fun n => by rw [he]; exact ha.reaches_iff (hs.sane t)) (by rw [he]; exact ha.retired)

/-- What is not allocated yet leads nowhere. -/
theorem Conf.Step.blank (hst : C.Step t op ret C') (hs : C.sys.Steady) (hG : TxClient C t op)
    (h : ∀ n, C.sys.shared.fresh ≤ n → C.sys.shared.next n = none) :
    ∀ n, C'.sys.shared.fresh ≤ n → C'.sys.shared.next n = none := by
  intro n hn
  have hfresh := (hst.framed hs.sane).framed.grows.fresh
  have hmem : C'.sys.shared.mem n = C.sys.shared.mem n := by
    rcases hacc : op.isAccess with _ | _
    · obtain ⟨ch, ho, hstep, -⟩ := hst
      obtain ⟨-, -, hspare⟩ := Sys.step_apart (hs.sane.closes t) (hs.sane.holds t (hs.withheld.removed t))
        (Region.takes_of_univ rfl op) (fun hk => by cases op <;> simp_all [Op.inserts, Op.isAccess]) ho hstep
      exact hspare.mem n (not_lt.2 (hfresh.trans hn))
    · obtain ⟨c, he, ha⟩ := hst.access hacc (hG.open_of_access hacc)
      rw [he] at hn ⊢
      rcases ha.mem n with hm | ⟨rfl, hf, -⟩
      · exact hm
      · have hn : c.shared.fresh ≤ (C.sys.ctx t).shared.fresh := hn
        exact absurd hn (by rw [hf]; exact not_le.2 (Nat.lt_succ_self _))
  rw [Shared.next, hmem]
  exact h n (hfresh.trans hn)

omit [LinearOrder K] in
/-- An empty storage keeps no pointer. -/
theorem Sys.kept_empty {σ : Sys K V m} (h : (σ.threads t).storage = {}) : n ∉ σ.kept t := by
  rw [Sys.mem_kept, LocalStorage.mem_pointers]
  simp [Local.pending, h]

/-- Another thread's step leaves the pointers of a transaction as they are. -/
theorem Conf.Step.kept_ne (hst : C.Step t op ret C') (hs : C.sys.Steady) (hu : u ≠ t) :
    C'.sys.threads u = C.sys.threads u ∧ (n ∈ C'.sys.kept u ↔ n ∈ C.sys.kept u) := by
  have hth := hst.threads_ne hu
  have hw := hs.withheld.withholds u
  obtain ⟨ch, ho, hstep, -⟩ := hst
  obtain ⟨-, -, hspare⟩ := Sys.step_apart hw.hides.shared (hw.hides.others t (Ne.symm hu))
    (Region.takes_of_univ rfl op) (fun _ hn => lt_irrefl _ (hw.hides.allocated _ hn)) ho hstep
  refine ⟨hth, ?_⟩
  rw [Sys.mem_kept, Sys.mem_kept, hth]
  refine or_congr_right (exists_congr fun k => and_congr_right fun hk => ?_)
  rw [Shared.next, hspare.mem k (fun hout => hout hk), Shared.next]

/-- What an access adds to the pointers leads to the ground. -/
theorem Conf.Custody.access (hC : C.Custody) (hT : Tracked C) (hs : C.sys.Steady)
    (hG : TxClient C t op) (hop : op.isAccess = true)
    (hkeep : ∀ n ∈ C.sys.shared.retired, n ∉ C.sys.kept t) (hst : C.Step t op ret C')
    (hn : n ∈ C'.sys.kept t) : C'.sys.shared.Reaches n ∨ n ∈ (C'.sys.threads t).pending := by
  obtain ⟨S, hInv⟩ := hT.txOnly.inv
  have hs' := hst.steady hs
  obtain ⟨c, he, ha⟩ := hst.access hop (hG.open_of_access hop)
  have hadd := (hst.accessed hop (hG.open_of_access hop)).1
  -- the call stays on the ground, so its new pointers do
  obtain ⟨ch, ho, hstep, -⟩ := hst
  obtain ⟨hclose, hhold, -⟩ := Sys.step_apart (hC.closes hInv.lists hkeep) (hC.holds hkeep)
    (Region.takes_of_univ rfl op) (fun _ => .inr (.inr le_rfl)) ho hstep
  have hground : n ∈ (C.sys.ground t).nodes := by
    rcases Sys.mem_kept.1 hn with hn | ⟨k, ⟨l, hk⟩, hn⟩
    · exact (Region.holds_iff rfl).1 hhold n hn
    · exact hclose.next k (hhold.added l k hk).2 n hn
  have hlt : n < C'.sys.shared.fresh := by
    rcases Sys.mem_kept.1 hn with hn | ⟨k, -, hn⟩
    · exact (Region.holds_iff rfl).1 (hs'.sane.holds t (hs'.withheld.removed t)) n hn
    · exact (hs'.sane t).next k n hn
  rcases hground with hr | hp | hf
  · left
    rw [he]
    exact (ha.reaches_iff (hs.sane t)).2 hr
  · exact .inr ((hadd n).2 (.inl hp))
  · have hf : C.sys.shared.fresh ≤ n := hf
    refine .inr ((hadd n).2 (.inr ?_))
    rw [Conf.allocated, List.mem_range'_1]
    exact ⟨hf, hlt.trans_eq (Nat.add_sub_cancel' (hf.trans hlt.le)).symm⟩

theorem Conf.Custody.step (hC : C.Custody) (hT : Tracked C) (hs : C.sys.Steady)
    (hG : TxClient C t op) (hN : NoneRetired C t op) (hst : C.Step t op ret C') : C'.Custody := by
  have hM := hT.moves hs hG hst
  refine ⟨hM.unreached hC.unreached, fun u n hn => ?_, hst.blank hs hG hC.blank⟩
  have hthen : n ∈ C.sys.kept u → (C'.sys.threads u).pending = (C.sys.threads u).pending →
      C'.sys.shared.Reaches n ∨ n ∈ (C'.sys.threads u).pending ∨ n ∈ C'.sys.shared.retired := by
    intro hk hp
    rw [hp]
    rcases hC.kept u n hk with hr | hp | hr
    · exact (hM.left n hr).imp id .inr
    · exact .inr (.inl hp)
    · exact .inr (.inr (hM.kept n hr))
  by_cases hu : u = t
  · subst hu
    cases op with
    | txBegin =>
      obtain ⟨hshared, hstor⟩ := hst.begins_keeps
      have hp : (C'.sys.threads u).pending = (C.sys.threads u).pending := by
        rw [Local.pending, hstor]
        rfl
      refine hthen ?_ hp
      rw [Sys.mem_kept, hp, hshared, hstor] at hn
      exact Sys.mem_kept.2 hn
    | txEnd => exact absurd hn (Sys.kept_empty (hst.empties hs.sane (.inl rfl)))
    | handleAbort => exact absurd hn (Sys.kept_empty (hst.empties hs.sane (.inr rfl)))
    | put | remove | get | containsKey =>
      exact (hC.access hT hs hG rfl (hN rfl) hst hn).imp id .inl
  · obtain ⟨hth, hiff⟩ := hst.kept_ne (n := n) hs hu
    exact hthen (hiff.1 hn) (by rw [hth])

omit [LinearOrder K] in
theorem Conf.custody_init (minKey : K) (dflt : V) : (Conf.init minKey dflt : Conf K V m).Custody :=
  ⟨fun n hn => by simp [Conf.init, Sys.init] at hn, fun t n hn => absurd hn (Sys.kept_empty rfl),
    fun _ _ => rfl⟩

end Steps

/-! ## Runs with the record manager -/

namespace RecordMgr

variable {r : RecordMgr} {t : ThreadId} {op : Op K V m} {ns : List NodeId} {n : NodeId}

/-- The nodes that have been retired. -/
def retired (r : RecordMgr) : Set NodeId := {n | n ∈ r.freed ∨ n ∈ r.limbo.map Prod.fst}

theorem foldr_retire : ∀ (ns : List NodeId) (r : RecordMgr),
    ns.foldr retire r = { r with limbo := ns.map (·, r.guards) ++ r.limbo }
  | [], _ => rfl
  | n :: ns, r => by
    rw [List.foldr_cons, foldr_retire ns r]
    rfl

theorem call_freed : (r.call t op ns).freed = r.freed := by
  simp only [call]
  split_ifs <;> simp [foldr_retire, closeGuard, getGuard]

theorem call_limbo : (r.call t op ns).limbo.map Prod.fst = ns ++ r.limbo.map Prod.fst := by
  simp only [call]
  split_ifs <;> simp [foldr_retire, closeGuard, getGuard, Function.comp_def]

theorem mem_retired_call : n ∈ (r.call t op ns).retired ↔ n ∈ ns ∨ n ∈ r.retired := by
  simp only [retired, Set.mem_ofPred_eq, call_freed, call_limbo, List.mem_append]
  tauto

theorem mem_retired_of_free (h : (n, ∅) ∈ r.limbo) {k : NodeId} (hk : k ∈ (r.free n).retired) :
    k ∈ r.retired := by
  rcases hk with hk | hk
  · rcases Finset.mem_insert.1 hk with rfl | hk
    · exact .inr (List.mem_map_of_mem h)
    · exact .inl hk
  · exact .inr (List.map_subset _ List.erase_subset hk)

end RecordMgr

section Managed

variable [LinearOrder K] {minKey : K} {dflt : V} {M : Managed K V m} {G : Conf.Guard K V m}

/-- The record manager has the nodes only that have been retired. -/
theorem Managed.Reach.retired (h : Managed.Reach minKey dflt G M) :
    Conf.Reach minKey dflt G M.conf ∧ ∀ n ∈ M.mgr.retired, n ∈ M.conf.sys.shared.retired := by
  induction h with
  | init => exact ⟨.refl, fun n hn => by simp [RecordMgr.retired] at hn⟩
  | call _ hg hst hret ih =>
    refine ⟨ih.1.step hg hst, fun n hn => ?_⟩
    rw [hret]
    exact (RecordMgr.mem_retired_call.1 hn).elim (fun hn => List.mem_append_left _ hn) fun hn =>
      List.mem_append_right _ (ih.2 n hn)
  | free _ hn ih => exact ⟨ih.1, fun k hk => ih.2 k (RecordMgr.mem_retired_of_free hn hk)⟩

/-- Transactions, each call made while nothing the transaction keeps a pointer to has been retired. -/
def Kept : Conf.Guard K V m := fun C t op => TxClient C t op ∧ NoneRetired C t op

theorem Conf.Reach.custody {C : Conf K V m} (hr : Conf.Reach minKey dflt Kept C) : Tracked C ∧ C.Custody := by
  have h0 : Tracked (Conf.init minKey dflt : Conf K V m) ∧ (Conf.init minKey dflt : Conf K V m).Custody ∧
      (Conf.init minKey dflt : Conf K V m).sys.Steady :=
    ⟨.of_reach .refl, Conf.custody_init minKey dflt, Conf.Reach.steady (G := Kept) .refl⟩
  obtain ⟨hT, hC, -⟩ := hr.keeps (J := fun C => Tracked C ∧ C.Custody ∧ C.sys.Steady) h0
    fun ⟨hT, hC, hs⟩ hG hst => ⟨hT.step hG.1 hst, hC.step hT hs hG.1 hG.2 hst, hst.steady hs⟩
  exact ⟨hT, hC⟩

/-- While nothing that a transaction keeps a pointer to has been retired, its calls get to no node that
has been freed, and access none. -/
theorem Managed.Reach.accesses_none_freed (h : Managed.Reach minKey dflt Kept M) {t : ThreadId}
    {op : Op K V m} (hop : op.guarded = true) (hG : Kept M.conf t op) :
    (∀ n ∈ M.mgr.freed, ¬ M.conf.sys.GetsTo t n) ∧ ∀ ch : Choice,
      (op = .txEnd → ch.Orders (M.conf.sys.threads t).storage) →
      AccessesNone (TxList.call ch op) (M.conf.sys.ctx t) M.mgr.freed := by
  obtain ⟨hr, hret⟩ := h.retired
  obtain ⟨hT, hC⟩ := hr.custody
  obtain ⟨S, hInv⟩ := hT.txOnly.inv
  have hs := hr.steady
  have hkeep := hG.2 hop
  have hout : ∀ n ∈ M.mgr.freed, n ∉ (M.conf.sys.ground t).nodes := by
    intro n hn
    have hn := hret n (.inl hn)
    rintro (hr | hp | hf)
    · exact hC.unreached n hn hr
    · exact (hs.withheld.withholds t).unretired n hp hn
    · exact absurd (hs.withheld.retired n hn) (not_lt.2 hf)
  exact ⟨fun n hn hg => hout n hn (hC.getsTo hInv.lists hkeep hg), fun ch ho =>
    Sys.accessesNone_of_region (hC.closes hInv.lists hkeep) (hC.holds hkeep) rfl (.inr (.inr le_rfl)) hout ho⟩

/-- Every step retires at most more nodes. -/
theorem Conf.Step.retired_append {C C' : Conf K V m} {t : ThreadId} {op : Op K V m} {ret : Ret V}
    (hst : C.Step t op ret C') : ∃ ns, C'.sys.shared.retired = ns ++ C.sys.shared.retired := by
  obtain ⟨ch, ho, hstep, -⟩ := hst
  have hall := C.sys.hides_empty (t + 1)
  obtain ⟨-, -, hspare⟩ := Sys.step_apart hall.shared (hall.others t (Nat.lt_succ_self t).ne)
    (Region.takes_of_univ rfl op) (fun _ => Set.notMem_empty _) ho hstep
  obtain ⟨ns, hns, -⟩ := hspare.retired
  exact ⟨ns, hns⟩

/-- A run of calls in which the record manager has freed nothing, though it may free all it was given. -/
theorem Managed.of_reach {C : Conf K V m} (h : Conf.Reach minKey dflt G C) : ∃ r : RecordMgr,
    Managed.Reach minKey dflt G ⟨C, r⟩ ∧ r.guards = ∅ ∧ r.freed = ∅ ∧
      r.limbo = C.sys.shared.retired.map (·, ∅) := by
  induction h with
  | refl => exact ⟨{}, .init, rfl, rfl, rfl⟩
  | @step C₁ C₂ t op ret _ hg hst ih =>
    obtain ⟨r, hr, hguards, hfreed, hlimbo⟩ := ih
    obtain ⟨ns, hns⟩ := hst.retired_append
    refine ⟨_, hr.call hg hst hns, ?_, RecordMgr.call_freed.trans hfreed, ?_⟩ <;>
      simp only [RecordMgr.call] <;> split_ifs
    · simp [RecordMgr.foldr_retire, RecordMgr.closeGuard, RecordMgr.getGuard, hguards]
    · simp [RecordMgr.foldr_retire, hguards]
    · simp [RecordMgr.foldr_retire, RecordMgr.closeGuard, RecordMgr.getGuard, hguards, hlimbo, hns,
        Function.comp_def]
    · simp [RecordMgr.foldr_retire, hguards, hlimbo, hns]

theorem Managed.free_of_reach {C : Conf K V m} (h : Conf.Reach minKey dflt G C) {n : NodeId}
    (hn : n ∈ C.sys.shared.retired) : ∃ M : Managed K V m, Managed.Reach minKey dflt G M ∧ M.conf = C ∧
      M.mgr.freed = {n} := by
  obtain ⟨r, hr, -, hfreed, hlimbo⟩ := Managed.of_reach h
  have hmem : (n, ∅) ∈ r.limbo := hlimbo ▸ List.mem_map_of_mem hn
  exact ⟨_, hr.free hmem, rfl, by simp [RecordMgr.free, hfreed]⟩

omit [LinearOrder K] in
/-- Such a call throws the same whatever the nodes hold. -/
theorem AccessesNone.thrown_eq {α : Type} {x : Call K V m α} {c : Ctx K V m} {F : Finset NodeId}
    (h : AccessesNone x c F) (y : NodeId → LNode K V) : thrown (x (c.refill F y)) = thrown (x c) := by
  rw [h y]
  rcases x c with ⟨a, c'⟩ | ⟨e, c'⟩ <;> rfl

instance [DecidableEq V] (C : Conf K V m) (t : ThreadId) (op : Op K V m) : Decidable (Kept C t op) :=
  inferInstanceAs (Decidable (_ ∧ _))

/-- The node before the one that a transaction has read is removed and freed. -/
theorem Managed.Reach.accesses_none_freed_removing : ∃ M : Managed Nat Nat 1,
    Managed.Reach 0 0 Kept M ∧ M.mgr.freed = {1} ∧ Kept M.conf 0 .txEnd ∧
    (∀ n ∈ M.mgr.freed, ¬ M.conf.sys.GetsTo 0 n) ∧ ∀ ch : Choice,
      ((Op.txEnd : Op Nat Nat 1) = .txEnd → ch.Orders (M.conf.sys.threads 0).storage) →
      AccessesNone (TxList.call ch .txEnd) (M.conf.sys.ctx 0) M.mgr.freed := by
  obtain ⟨C, hr, -, hp⟩ := Conf.exists_reach_of_decidable (G := Kept) 0 0 2
    [(1, .txBegin), (1, .put 0 3 1), (1, .put 0 5 1), (1, .put 0 7 1), (1, .txEnd), (0, .txBegin),
      (0, .get 0 7), (1, .txBegin), (1, .remove 0 3), (1, .txEnd)]
    (fun C : Conf Nat Nat 1 => decide (1 ∈ C.sys.shared.retired) && decide (Kept C 0 .txEnd))
    (by decide +kernel)
  rw [Bool.and_eq_true, decide_eq_true_eq, decide_eq_true_eq] at hp
  obtain ⟨M, hM, rfl, hfreed⟩ := Managed.free_of_reach hr hp.1
  exact ⟨M, hM, hfreed, hp.2, hM.accesses_none_freed rfl hp.2⟩

/-- A node in a transaction's read set is removed and freed, and `TXend` reads its version. -/
theorem freed_node_read : ¬ ∀ (M : Managed Nat Nat 1) (t : ThreadId) (op : Op Nat Nat 1),
    Managed.Reach 0 0 TxClient M → TxClient M.conf t op → op.guarded = true → ∀ ch : Choice,
      (op = .txEnd → ch.Orders (M.conf.sys.threads t).storage) →
      AccessesNone (call ch op) (M.conf.sys.ctx t) M.mgr.freed := by
  intro h
  obtain ⟨C, hr, -, hp⟩ := Conf.exists_reach_of_decidable (G := TxClient) 0 0 2
    [(1, .txBegin), (1, .put 0 3 1), (1, .put 0 5 1), (1, .txEnd), (0, .txBegin), (0, .get 0 5),
      (1, .txBegin), (1, .remove 0 3), (1, .txEnd)]
    (fun C : Conf Nat Nat 1 => decide (1 ∈ C.sys.shared.retired ∧ TxClient C 0 .txEnd ∧
      (C.choice 0).Orders (C.sys.threads 0).storage ∧
      thrown (call (C.choice 0) .txEnd ((C.sys.ctx 0).refill {1} fun _ => { key := 0 })) ≠
        thrown (call (C.choice 0) .txEnd (C.sys.ctx 0)))) (by decide +kernel)
  obtain ⟨hret, hG, ho, hne⟩ := of_decide_eq_true hp
  obtain ⟨M, hM, rfl, hfreed⟩ := Managed.free_of_reach hr hret
  have hav := h M 0 .txEnd hM hG rfl (M.conf.choice 0) fun _ => ho
  rw [hfreed] at hav
  exact hne (hav.thrown_eq _)

end Managed

end TxList
