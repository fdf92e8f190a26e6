import TxList.Proofs.Scripts
import TxList.Proofs.Withheld

/-!
# What an abort gives back

An attempt that `put`, `remove` or `get` aborts leaves its new nodes in the storage, where
`handle_abort` finds and retires them. `TXend` empties the storage before it throws, so then
`handle_abort` retires none of them.
-/

namespace TxList

open Prog

variable {K V : Type} [LinearOrder K] {m : Nat}

namespace Conf

/-- The nodes that a step has allocated. -/
def allocated (C C' : Conf K V m) : List NodeId :=
  List.range' C.sys.shared.fresh (C'.sys.shared.fresh - C.sys.shared.fresh)

/-- An attempt of thread `t`, begun in `C₀`, none of whose calls has thrown so far. They have allocated
the nodes `ns`; the other threads' calls come in between. -/
inductive Attempting (t : ThreadId) (C₀ : Conf K V m) : List NodeId → Conf K V m → Prop
  | begin {ret : Ret V} {C : Conf K V m} : C₀.Step t .txBegin ret C → Attempting t C₀ [] C
  | access {ns : List NodeId} {op : Op K V m} {ret : Ret V} {C C' : Conf K V m} :
      Attempting t C₀ ns C → op.isAccess = true → ret ≠ .aborted → C.Step t op ret C' →
      Attempting t C₀ (ns ++ C.allocated C') C'
  | other {ns : List NodeId} {u : ThreadId} {op : Op K V m} {ret : Ret V} {C C' : Conf K V m} :
      Attempting t C₀ ns C → u ≠ t → C.Step u op ret C' → Attempting t C₀ ns C'

/-- The steps are other threads'. -/
def NotBy (t : ThreadId) : Guard K V m := fun _ u _ => u ≠ t

/-- The attempt, which has allocated `ns`, ends with `op` throwing; the thread's next call is
`handle_abort`, from `C` to `C'`. -/
def GivesUp (t : ThreadId) (C₀ : Conf K V m) (op : Op K V m) (ns : List NodeId) (C C' : Conf K V m) :
    Prop :=
  ∃ ns₁ C₁ C₂, Attempting t C₀ ns₁ C₁ ∧ (op.isAccess = true ∨ op = .txEnd) ∧
    C₁.Step t op .aborted C₂ ∧ ns = ns₁ ++ C₁.allocated C₂ ∧ C₂.Run (NotBy t) C ∧
    ∃ ret, C.Step t .handleAbort ret C'

/-- Each of the nodes has been retired once after the step, and the step retires no node that is on
a list. -/
structure GivesBack (ns : List NodeId) (C C' : Conf K V m) : Prop where
  once : ∀ n ∈ ns, C'.sys.shared.retired.count n = 1
  unreached : ∀ n, C.sys.shared.retired.count n < C'.sys.shared.retired.count n →
    ¬ C'.sys.shared.Reaches n

end Conf

section Steps

variable {C C' : Conf K V m} {t : ThreadId} {op : Op K V m} {ret : Ret V} {X : Set NodeId}

/-- The nodes are hidden and none of them has been retired. -/
structure Conf.Keeps (C : Conf K V m) (t : ThreadId) (X : Set NodeId) : Prop where
  steady : C.sys.Steady
  hides : C.sys.Hides t X
  unretired : ∀ n ∈ X, n ∉ C.sys.shared.retired

/-- Other threads do nothing about hidden nodes. -/
theorem Conf.Keeps.run (h : C.Keeps t X) (hr : C.Run (NotBy t) C') : C'.Keeps t X := by
  refine hr.keeps (J := fun C' => C'.Keeps t X) h ?_
  intro C₁ u op ret C₂ h₁ hu hst
  have hs := hst.steady h₁.steady
  obtain ⟨ch, ho, hstep, -⟩ := hst
  obtain ⟨hhide, rs, hrs, hout⟩ := h₁.hides.other h₁.steady.sane hu ho hstep
  refine ⟨hs, hhide, fun n hn hr => ?_⟩
  rw [hrs] at hr
  exact (List.mem_append.1 hr).elim (fun hr => hout n hr hn) (h₁.unretired n hn)

omit [LinearOrder K] in
theorem Sys.Hides.unreached {σ : Sys K V m} (h : σ.Hides t X) {n : NodeId} (hn : n ∈ X) :
    ¬ σ.shared.Reaches n := by
  have hout : ∀ y, σ.shared.Reaches y → y ∉ X := by
    intro y hy
    induction hy with
    | head l => exact h.shared.head l trivial
    | next _ hy ih => exact h.shared.next _ ih _ hy
  exact fun hr => hout n hr hn

/-- A thread's own access adds what it allocates to what the thread has to add. -/
theorem Conf.Step.accessed (hst : C.Step t op ret C') (hop : op.isAccess = true) (hT : C.inTX t = true) :
    (∀ n, n ∈ (C'.sys.threads t).pending ↔
      n ∈ (C.sys.threads t).pending ∨ n ∈ C.allocated C') ∧
      (ret ≠ .aborted → C'.inTX t = true) := by
  obtain ⟨ch, -, hs, -⟩ := hst
  obtain ⟨c, he, hc⟩ := Sys.step_of_ends
    (call_accessed hop (show (C.sys.ctx t).transaction.TX = true from hT)) hs
  have hac : (C.sys.ctx t).Accessed c := hc.elim (·.1) And.right
  have hpend : (C'.sys.threads t).pending = {n | ∃ l, n ∈ c.storage.indexAdd l} := by
    simp [he, Local.pending]
  have hfresh : C'.sys.shared.fresh = c.shared.fresh := by rw [he]; rfl
  refine ⟨fun n => ⟨fun hn => ?_, fun hn => ?_⟩, fun hret => ?_⟩
  · rw [hpend] at hn
    obtain ⟨l, hn⟩ := hn
    refine (hac.mem_added hn).imp (fun hn => ⟨l, hn⟩) ?_
    rintro ⟨rfl, hf, -⟩
    rw [Conf.allocated, hfresh, hf]
    show _ ∈ List.range' C.sys.shared.fresh (C.sys.shared.fresh + 1 - C.sys.shared.fresh)
    rw [Nat.add_sub_cancel_left]
    exact List.mem_singleton.2 rfl
  · rw [hpend]
    rcases hn with ⟨l, hn⟩ | hn
    · exact ⟨l, hac.keeps_added hn⟩
    · rw [Conf.allocated, hfresh, List.mem_range'_1] at hn
      have hne : c.shared.fresh ≠ C.sys.shared.fresh := by
        rintro heq
        rw [heq, Nat.sub_self, Nat.add_zero] at hn
        exact absurd hn.2 (not_lt.2 hn.1)
      obtain ⟨hf, l, hl⟩ := hac.adds_new hne
      have hf : c.shared.fresh = C.sys.shared.fresh + 1 := hf
      rw [hf, Nat.add_sub_cancel_left] at hn
      obtain rfl : n = C.sys.shared.fresh := le_antisymm (Nat.lt_succ_iff.1 hn.2) hn.1
      exact ⟨l, hl⟩
  · have hopen := (hc.resolve_right fun h => hret h.1).2
    simpa [Conf.inTX, he] using hopen

omit [LinearOrder K] in
/-- An aborting `TXend` clears at most a mark. -/
theorem Shared.clearMark_next (s : Shared K V m) (x n : NodeId) :
    ((s.clearMark x).mem n).next = (s.mem n).next := by
  by_cases hn : n = x
  · subst hn
    simp [Shared.clearMark, LNode.setSingleton]
  · simp [Shared.clearMark, hn]

/-- `TXend` that throws allocates and retires nothing, leaves the pointers as they are and empties the
storage. -/
structure Conf.Drops (C C' : Conf K V m) (t : ThreadId) : Prop where
  fresh : C'.sys.shared.fresh = C.sys.shared.fresh
  retired : C'.sys.shared.retired = C.sys.shared.retired
  next : ∀ n, (C'.sys.shared.mem n).next = (C.sys.shared.mem n).next
  index : C'.sys.shared.index = C.sys.shared.index
  storage : (C'.sys.threads t).storage = {}

theorem Conf.Step.drops (hst : C.Step t .txEnd .aborted C') (hs : C.sys.Sane) : C.Drops C' t := by
  obtain ⟨ch, ho, hstep, -⟩ := hst
  have hend : Ends (call ch .txEnd) (C.sys.ctx t) (fun r _ => r ≠ Ret.aborted) (OnAbort fun c =>
      c.storage = {} ∧ (c.shared = C.sys.shared ∨ ∃ n, c.shared = C.sys.shared.clearMark n)) := by
    simp only [call, Ends_bind, Ends_pure]
    refine TXend_ends (ho rfl) (fun _ _ _ => ?_) (fun _ _ _ => by simp) (fun _ => ⟨rfl, .inl rfl⟩)
      (fun n _ _ _ _ _ => ⟨rfl, .inr ⟨n, rfl⟩⟩) (fun _ _ _ _ _ _ _ => trivial) fun _ _ => trivial
    exact (updateIndex_onward (commit_onward (hs t))).mono (fun _ _ _ => by simp)
      fun _ _ he => he.mono False.elim
  obtain ⟨c, he, hc⟩ := Sys.step_of_ends hend hstep
  obtain ⟨hstor, hsh⟩ := (hc.resolve_left fun h => h rfl).2
  have hsh' : C'.sys.shared = c.shared := by rw [he]; rfl
  refine ⟨?_, ?_, fun n => ?_, ?_, by simp [he, hstor]⟩ <;> rw [hsh'] <;>
    rcases hsh with hsh | ⟨x, hsh⟩ <;> rw [hsh]
  all_goals try rfl
  exact Shared.clearMark_next _ x n

/-- `handle_abort` retires what the storage was to add. -/
theorem Conf.Step.handles (hst : C.Step t .handleAbort ret C') :
    C'.sys.shared.mem = C.sys.shared.mem ∧
      C'.sys.shared.retired = (C.sys.threads t).storage.toAdd.reverse ++ C.sys.shared.retired := by
  obtain ⟨ch, -, hstep, -⟩ := hst
  obtain ⟨c, he, hc⟩ := Sys.step_of_ends (P := fun _ => False) (Q := fun _ c =>
    c.shared.mem = C.sys.shared.mem ∧
      c.shared.retired = (C.sys.threads t).storage.toAdd.reverse ++ C.sys.shared.retired) (by
        simp only [call, Ends_bind, Ends_pure]
        exact handle_abort_retires ⟨rfl, rfl⟩) hstep
  rw [he]
  exact hc.resolve_right And.right

omit [LinearOrder K] in
theorem Local.mem_toAdd {x : Local V m} {n : NodeId} : n ∈ x.storage.toAdd ↔ n ∈ x.pending := by
  simp [LocalStorage.toAdd, Local.pending]

end Steps

variable {C₀ C C' : Conf K V m} {t : ThreadId} {op : Op K V m} {ns : List NodeId} {minKey : K} {dflt : V}

/-- What the attempt has allocated so far, the thread has to add. -/
theorem Conf.Attempting.pending (h : Conf.Attempting t C₀ ns C) (hs : C₀.sys.Steady) :
    C.sys.Steady ∧ C.inTX t = true ∧ ∀ n ∈ ns, n ∈ (C.sys.threads t).pending := by
  induction h with
  | begin hst =>
    refine ⟨hst.steady hs, ?_, by simp⟩
    obtain ⟨ch, -, hstep, -⟩ := hst
    obtain ⟨c, he, hc⟩ := Sys.step_of_ends (P := fun _ => False)
      (Q := fun _ c => c.transaction.TX = true) (by
        simp only [call, TXbegin, Ends_bind, Ends_getVersion, Ends_modifyTransaction, Ends_pure]) hstep
    simpa [Conf.inTX, he] using hc
  | access _ hop hret hst ih =>
    obtain ⟨hs₁, hT, hns⟩ := ih
    obtain ⟨hadd, hopen⟩ := hst.accessed hop hT
    refine ⟨hst.steady hs₁, hopen hret, fun n hn => (hadd n).2 ?_⟩
    exact (List.mem_append.1 hn).imp (hns n) id
  | other _ hu hst ih =>
    obtain ⟨hs₁, hT, hns⟩ := ih
    have he := hst.threads_ne (Ne.symm hu)
    refine ⟨hst.steady hs₁, ?_, fun n hn => ?_⟩
    · rw [Conf.inTX, he]
      exact hT
    · rw [he]
      exact hns n hn

theorem Conf.Attempting.others (h : Conf.Attempting t C₀ ns C) (hr : C.Run (Conf.NotBy t) C') :
    Conf.Attempting t C₀ ns C' :=
  hr.keeps (J := Conf.Attempting t C₀ ns) h fun h hu hst => .other h hu hst

/-- A thread's own nodes to add are listed once. -/
theorem Sys.Steady.nodup {σ : Sys K V m} (h : σ.Steady) (t : ThreadId) :
    (σ.threads t).storage.toAdd.Nodup := by
  refine List.nodup_flatMap.2 ⟨fun l _ => (h.sound.storage t).nodup l, ?_⟩
  refine (List.nodup_finRange m).imp fun {l l'} hne n hn hn' => ?_
  exact (h.withheld.withholds t).once l l' hne n hn hn'

theorem Conf.Run.threads_eq {G : Conf.Guard K V m} (hG : ∀ {C u op}, G C u op → u ≠ t)
    (hr : C.Run G C') : C'.sys.threads t = C.sys.threads t :=
  hr.keeps (J := fun C' => C'.sys.threads t = C.sys.threads t) rfl fun he hg hst =>
    (hst.threads_ne (Ne.symm (hG hg))).trans he

/-- `handle_abort` gives the nodes back when they are still in the storage. -/
theorem Conf.Step.gives_back {ret : Ret V} (hst : C.Step t .handleAbort ret C') (hs : C.sys.Steady)
    (hns : ∀ n ∈ ns, n ∈ (C.sys.threads t).pending) : Conf.GivesBack ns C C' := by
  obtain ⟨hmem, hret⟩ := hst.handles
  have hw := hs.withheld.withholds t
  refine ⟨fun n hn => ?_, fun n hn hr => ?_⟩
  · have hp := hns n hn
    rw [hret, List.count_append, List.count_reverse, List.count_eq_zero.2 (hw.unretired n hp),
      List.count_eq_one_of_mem (hs.nodup t) (Local.mem_toAdd.2 hp)]
  · have hp : n ∈ (C.sys.threads t).pending := by
      rw [hret, List.count_append, List.count_reverse] at hn
      refine Local.mem_toAdd.1 (List.count_pos_iff.1 ?_)
      omega
    refine hw.hides.unreached hp ?_
    clear hn hp
    induction hr with
    | head l => exact .head l
    | next _ hy ih =>
      refine .next ih ?_
      simpa only [Shared.next, hmem] using hy

/-- An abort gives back what the attempt has allocated exactly if `TXend` did not throw it, or there is
nothing to give back. -/
theorem abort_gives_back_iff (hr : Conf.Reach minKey dflt Conf.anyStep C₀)
    (hg : Conf.GivesUp t C₀ op ns C C') : Conf.GivesBack ns C C' ↔ op ≠ .txEnd ∨ ns = [] := by
  obtain ⟨ns₁, C₁, C₂, hatt, hop, hst, rfl, hrun, ret, hhandle⟩ := hg
  obtain ⟨hs₁, hT, hns⟩ := hatt.pending (Conf.Reach.steady hr)
  have hs₂ := hst.steady hs₁
  have he : C.sys.threads t = C₂.sys.threads t := hrun.threads_eq (fun hu => hu)
  rcases hop with hop | rfl
  · refine ⟨fun _ => .inl (by rintro rfl; simp [Op.isAccess] at hop), fun _ => ?_⟩
    refine hhandle.gives_back (hrun.steady hs₂) fun n hn => ?_
    rw [he]
    exact ((hst.accessed hop hT).1 n).2 ((List.mem_append.1 hn).imp (hns n) id)
  · have hd := hst.drops hs₁.sane
    have hnone : C₁.allocated C₂ = [] := by simp [Conf.allocated, hd.fresh]
    have hw := hs₁.withheld.withholds t
    have hkeep : C₂.Keeps t (C₁.sys.threads t).pending := by
      refine ⟨hs₂, ⟨fun n hn => ?_, ⟨hw.hides.shared.head, fun n hn y hy => ?_, ?_⟩, fun u hu => ?_⟩,
        fun n hn => ?_⟩
      · rw [hd.fresh]
        exact hw.hides.allocated n hn
      · rw [hd.next] at hy
        exact hw.hides.shared.next n hn y hy
      · rw [hd.index]
        exact hw.hides.shared.index
      · rw [hst.threads_ne hu]
        exact hw.hides.others u hu
      · rw [hd.retired]
        exact hw.unretired n hn
    obtain ⟨-, hret⟩ := hhandle.handles
    have hstor : (C.sys.threads t).storage.toAdd = [] := by
      rw [he, hd.storage]
      simp [LocalStorage.toAdd]
    rw [hstor, List.reverse_nil, List.nil_append] at hret
    rw [hnone, List.append_nil]
    refine ⟨fun h => .inr (List.eq_nil_iff_forall_not_mem.2 fun n hn => ?_), fun h => ?_⟩
    · have hone := h.once n hn
      rw [hret, List.count_eq_zero.2 ((hkeep.run hrun).unretired n (hns n hn))] at hone
      omega
    · obtain rfl := h.resolve_left fun h => h rfl
      exact ⟨by simp, fun n hn => by rw [hret] at hn; exact absurd hn (lt_irrefl _)⟩

instance (t : ThreadId) (C : Conf K V m) (u : ThreadId) (op : Op K V m) :
    Decidable (Conf.NotBy t C u op) :=
  inferInstanceAs (Decidable (u ≠ t))

/-- A `get` that throws after another transaction's commit: the new node is given back. -/
theorem abort_gives_back_get : ∃ C₀ C C' : Conf Nat Nat 1, Conf.Reach 0 0 Conf.anyStep C₀ ∧
    Conf.GivesUp 1 C₀ (.get 0 5) [1] C C' ∧
    (Conf.GivesBack [1] C C' ↔ (Op.get 0 5 : Op Nat Nat 1) ≠ .txEnd ∨ [1] = []) := by
  obtain ⟨C₀, h₀, hI, hp⟩ := Conf.exists_reach_of_decidable (G := Conf.anyStep) 0 0 2 []
    (fun C₀ : Conf Nat Nat 1 => C₀.after 1 .txBegin .unit fun C₁ : Conf Nat Nat 1 =>
      C₁.after 1 (.put 0 5 3) (.val none) fun C₂ : Conf Nat Nat 1 => decide (C₁.allocated C₂ = [1]) &&
        (C₂.script (fun C u op => decide (Conf.NotBy 1 C u op)) 2
          [(0, .txBegin), (0, .put 0 6 3), (0, .txEnd)]).any fun C₃ : Conf Nat Nat 1 =>
            C₃.after 1 (.get 0 5) .aborted fun C₄ : Conf Nat Nat 1 =>
              decide (C₃.allocated C₄ = []) && C₄.returns 1 .handleAbort .unit) (by decide +kernel)
  obtain ⟨C₁, hst₁, hI₁, hp₁⟩ := Conf.exists_step hI (by decide) hp
  obtain ⟨C₂, hst₂, hI₂, hp₂⟩ := Conf.exists_step hI₁ (by decide) hp₁
  rw [Bool.and_eq_true, decide_eq_true_eq] at hp₂
  obtain ⟨C₃, hr, hI₃, hp₃⟩ := Conf.exists_run_of_decidable (G := Conf.NotBy 1) hI₂ _ _ hp₂.2
  obtain ⟨C₄, hst₄, -, hp₄⟩ := Conf.exists_step hI₃ (by decide) hp₃
  rw [Bool.and_eq_true, decide_eq_true_eq] at hp₄
  obtain ⟨C₅, hst₅⟩ := Conf.step_of_returns hp₄.2
  have hg : Conf.GivesUp 1 C₀ (.get 0 5) [1] C₄ C₅ :=
    ⟨_, C₃, C₄, ((Conf.Attempting.begin hst₁).access rfl (by simp) hst₂).others hr, .inl rfl, hst₄,
      by rw [hp₂.1, hp₄.1]; rfl, .refl, _, hst₅⟩
  exact ⟨C₀, C₄, C₅, h₀, hg, abort_gives_back_iff h₀ hg⟩

/-- `TXend` throws after another transaction's commit: the new node is not given back. -/
theorem abort_leaks : ¬ ∀ (C₀ C C' : Conf Nat Nat 1) (t : ThreadId) (op : Op Nat Nat 1)
    (ns : List NodeId), Conf.Reach 0 0 Conf.anyStep C₀ → Conf.GivesUp t C₀ op ns C C' →
    Conf.GivesBack ns C C' := by
  intro h
  obtain ⟨C₀, h₀, hI, hp⟩ := Conf.exists_reach_of_decidable (G := Conf.anyStep) 0 0 2 []
    (fun C₀ : Conf Nat Nat 1 => C₀.after 1 .txBegin .unit fun C₁ : Conf Nat Nat 1 =>
      C₁.after 1 (.put 0 5 3) (.val none) fun C₂ : Conf Nat Nat 1 => decide (C₁.allocated C₂ = [1]) &&
        (C₂.script (fun C u op => decide (Conf.NotBy 1 C u op)) 2
          [(0, .txBegin), (0, .put 0 6 3), (0, .txEnd)]).any fun C₃ : Conf Nat Nat 1 =>
            C₃.after 1 .txEnd .aborted fun C₄ : Conf Nat Nat 1 => decide (C₃.allocated C₄ = []) &&
              C₄.after 1 .handleAbort .unit fun C₅ : Conf Nat Nat 1 =>
                decide (C₅.sys.shared.retired = [])) (by decide +kernel)
  obtain ⟨C₁, hst₁, hI₁, hp₁⟩ := Conf.exists_step hI (by decide) hp
  obtain ⟨C₂, hst₂, hI₂, hp₂⟩ := Conf.exists_step hI₁ (by decide) hp₁
  rw [Bool.and_eq_true, decide_eq_true_eq] at hp₂
  obtain ⟨C₃, hr, hI₃, hp₃⟩ := Conf.exists_run_of_decidable (G := Conf.NotBy 1) hI₂ _ _ hp₂.2
  obtain ⟨C₄, hst₄, hI₄, hp₄⟩ := Conf.exists_step hI₃ (by decide) hp₃
  rw [Bool.and_eq_true, decide_eq_true_eq] at hp₄
  obtain ⟨C₅, hst₅, -, hp₅⟩ := Conf.exists_step hI₄ (by decide) hp₄.2
  have hg : Conf.GivesUp 1 C₀ .txEnd [1] C₄ C₅ :=
    ⟨_, C₃, C₄, ((Conf.Attempting.begin hst₁).access rfl (by simp) hst₂).others hr, .inr rfl, hst₄,
      by rw [hp₂.1, hp₄.1]; rfl, .refl, _, hst₅⟩
  have hone := (h C₀ C₄ C₅ 1 .txEnd [1] h₀ hg).once 1 (by simp)
  rw [of_decide_eq_true hp₅] at hone
  simp at hone

end TxList
