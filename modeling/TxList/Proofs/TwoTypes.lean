import TxList.TwoTypes
import TxList.Proofs.Withheld

/-!
# Atomicity over two types

The first `TXend` closes the transaction that both types share, so the second one aborts: whatever it
was to write is lost.
-/

namespace TxList

open Prog

section TXend

variable {K V : Type} {m : Nat} [LinearOrder K] {c : Ctx K V m} {ch : Choice}

omit [LinearOrder K] in
theorem Ctx.Live.not_contended (h : c.Live) (hu : ∀ n, (c.shared.mem n).isLocked = false) :
    ¬ c.Contended := by
  rintro ⟨n, ⟨-, hl⟩ | ⟨hn, hv⟩⟩
  · rw [hu n] at hl
    simp at hl
  · exact h.2 n hn (.inl hv)

/-- What `TXend` does to the nodes when none is locked. -/
theorem TXend_outcome (hu : ∀ n, (c.shared.mem n).isLocked = false) (ho : ch.Orders c.storage) :
    Ends (TXend ch) c (fun _ c' => c.Live ∧ c'.transaction.TX = false ∧ c'.shared.mem =
        if c.transaction.readOnly then c.shared.mem else (c.shared.commit c.storage.writeSet).mem)
      (OnAbort fun c' => ¬ c.Live ∧ c'.transaction.TX = false ∧ ∀ n, c'.shared.mem n = c.shared.mem n ∨
        c'.shared.mem n = (c.shared.mem n).setSingleton false) := by
  refine TXend_ends ho (fun hT hv hro => ?_) (fun hT hv hro => ⟨⟨hT, hv⟩, rfl, by rw [hro]; rfl⟩)
    (fun hb => ⟨fun hl => hl.not_contended hu (hb hl.1), rfl, fun n => .inl rfl⟩)
    (fun n hr _ hT hv hs => ⟨fun hl => hl.2 n hr (.inr ⟨hv, hs⟩), rfl, fun k => ?_⟩)
    (fun _ _ _ _ _ _ _ => trivial) fun _ _ => trivial
  · refine updateIndex_updated.mono (fun _ c' h => ⟨⟨hT, hv⟩, rfl, ?_⟩) fun _ _ he => he.mono False.elim
    rw [hro]
    exact h.mem
  · by_cases hk : k = n
    · subst hk
      exact .inr (by simp [Ctx.cleaned, Shared.clearMark])
    · exact .inl (by simp [Ctx.cleaned, Shared.clearMark, hk])

end TXend

theorem Ty.other_ne (b : Ty) : b.other ≠ b := by cases b <;> simp [Ty.other]

namespace TwoTypes

variable {K V : Ty → Type} {m : Ty → Nat} [∀ b, LinearOrder (K b)] {σ σ' : TwoTypes K V m}
  {t u : ThreadId} {b : Ty} {op : Op (K b) (V b) (m b)} {ret : Ret (V b)}

section Put

variable {c : Ctx (K b) (V b) (m b)}

omit [∀ b, LinearOrder (K b)] in
@[simp] theorem put_ctx_self : (σ.put t b c).ctx t b = c := by
  simp [put, ctx]

omit [∀ b, LinearOrder (K b)] in
theorem put_ctx_thread (h : u ≠ t) : (σ.put t b c).ctx u b = { σ.ctx u b with shared := c.shared } := by
  simp [put, ctx, h]

omit [∀ b, LinearOrder (K b)] in
/-- The other type's lists. -/
theorem put_ctx_other {b' : Ty} (h : b' ≠ b) : (σ.put t b c).ctx u b' =
    ⟨{ (σ.ctx u b').shared with gvc := c.shared.gvc }, (σ.ctx u b').storage,
      (σ.put t b c).transaction u⟩ := by
  by_cases hu : u = t
  · subst hu
    simp [put, ctx, h]
  · simp [put, ctx, h, hu]

end Put

/-- A step is a call that ends in a value or throws `TxAbortException`. -/
theorem of_step {ch : Choice} {Q : Ret (V b) → Ctx (K b) (V b) (m b) → Prop}
    {P : Ctx (K b) (V b) (m b) → Prop} (h : Ends (call ch op) (σ.ctx t b) Q (OnAbort P))
    (hs : σ.step t b op ch = some (σ', ret)) : ∃ c, σ' = σ.put t b c ∧ (Q ret c ∨ ret = .aborted ∧ P c) := by
  simp only [step] at hs
  rcases hc : call ch op (σ.ctx t b) with ⟨r, c⟩ | ⟨e, c⟩
  · simp only [hc, Option.some.injEq, Prod.mk.injEq] at hs
    obtain ⟨rfl, rfl⟩ := hs
    exact ⟨c, rfl, .inl (h.ok hc)⟩
  · have hE := h.error hc
    rcases e with _ | _ | _ | _ <;> simp only [hc] at hs
    · simp only [Option.some.injEq, Prod.mk.injEq] at hs
      obtain ⟨rfl, rfl⟩ := hs
      exact ⟨c, rfl, .inr ⟨rfl, hE⟩⟩
    all_goals simp at hs

/-- Every thread's state is sane for both types. -/
def AllSane (σ : TwoTypes K V m) : Prop := ∀ t b, Sane (σ.ctx t b)

omit [∀ b, LinearOrder (K b)] in
theorem allSane_init (minKey : ∀ b, K b) (dflt : ∀ b, V b) : (init minKey dflt : TwoTypes K V m).AllSane := by
  intro t b
  exact Sys.sane_init (minKey b) (dflt b) t

theorem Step.sane (hst : σ.Step t b op ret σ') (h : σ.AllSane) : σ'.AllSane := by
  obtain ⟨ch, ho, hs⟩ := hst
  obtain ⟨c, rfl, hc⟩ := of_step (call_framed op (h t b) ho) hs
  have hsane : Sane c := hc.elim (·.1.sane) (·.2.sane)
  have hgrows : ∃ X, Grows X (σ.ctx t b).shared c.shared := hc.elim (⟨_, ·.1.grows⟩) (⟨_, ·.2.grows⟩)
  obtain ⟨X, hg⟩ := hgrows
  intro u b'
  by_cases hb : b' = b
  · subst hb
    by_cases hu : u = t
    · subst hu
      rw [put_ctx_self]
      exact hsane
    · rw [put_ctx_thread hu]
      exact (h u b').of_grows hsane rfl hg
  · have hd := h u b'
    rw [put_ctx_other hb]
    refine ⟨hd.heads, hd.next, hd.index, fun n => (hd.version n).trans hg.gvc, hd.unlocked, ?_,
      hd.readSet, hd.write_read, hd.write_next, hd.indexAdd⟩
    by_cases hu : u = t
    · subst hu
      simpa [put] using hsane.readVersion
    · simp only [put, Function.update_of_ne hu]
      exact hd.readVersion.trans hg.gvc

theorem Run.sane {P : ThreadId → Prop} (hr : σ.Run P σ') (h : σ.AllSane) : σ'.AllSane := by
  induction hr with
  | refl => exact h
  | step _ _ hst ih => exact hst.sane ih

/-- What a step leaves of the other threads' state and of the thread's own for the other type. -/
structure Framed (σ σ' : TwoTypes K V m) (t : ThreadId) (b : Ty) : Prop where
  storage : ∀ u, u ≠ t → σ'.storage u = σ.storage u
  transaction : ∀ u, u ≠ t → σ'.transaction u = σ.transaction u
  own : ∀ b', b' ≠ b → σ'.storage t b' = σ.storage t b'
  shared : ∀ b', b' ≠ b → σ'.shared b' = σ.shared b'

omit [∀ b, LinearOrder (K b)] in
theorem put_framed {c : Ctx (K b) (V b) (m b)} : Framed σ (σ.put t b c) t b :=
  ⟨fun u hu => by simp [put, hu], fun u hu => by simp [put, hu], fun b' hb => by simp [put, hb],
    fun b' hb => by simp [put, hb]⟩

theorem Step.framed (hst : σ.Step t b op ret σ') : Framed σ σ' t b := by
  obtain ⟨ch, -, hs⟩ := hst
  simp only [step] at hs
  rcases hc : call ch op (σ.ctx t b) with ⟨r, c⟩ | ⟨e, c⟩
  · simp only [hc, Option.some.injEq, Prod.mk.injEq] at hs
    rw [← hs.1]
    exact put_framed
  · rcases e with _ | _ | _ | _ <;> simp only [hc] at hs
    · simp only [Option.some.injEq, Prod.mk.injEq] at hs
      rw [← hs.1]
      exact put_framed
    all_goals simp at hs

theorem Run.others (hr : σ.Run (· ≠ t) σ') :
    σ'.storage t = σ.storage t ∧ σ'.transaction t = σ.transaction t := by
  induction hr with
  | refl => exact ⟨rfl, rfl⟩
  | step _ hu hst ih =>
    exact ⟨(hst.framed.storage t (Ne.symm hu)).trans ih.1, (hst.framed.transaction t (Ne.symm hu)).trans ih.2⟩

/-- No node has a singleton's mark of the clock's version. -/
def Unmarked (σ : TwoTypes K V m) : Prop :=
  ∀ b n, ((σ.shared b).mem n).word.version = σ.gvc → ((σ.shared b).mem n).word.singleton = false

/-- No node is marked for the thread's transaction. -/
def Clear (σ : TwoTypes K V m) (t : ThreadId) : Prop :=
  ∀ b n, ¬ Marked ((σ.shared b).mem n) (σ.transaction t).readVersion

theorem Step.begins (hst : σ.Step t b .txBegin ret σ') :
    (σ'.transaction t).TX = true ∧ (σ'.transaction t).readVersion = σ.gvc ∧
      σ'.shared b = { σ.shared b with gvc := σ.gvc } := by
  obtain ⟨ch, -, hs⟩ := hst
  obtain ⟨c, rfl, hc⟩ := of_step (P := fun _ => False) (Q := fun _ c =>
    c.transaction = { σ.transaction t with TX := true, readVersion := σ.gvc } ∧
      c.shared = (σ.ctx t b).shared) (by
      simp only [call, TXbegin, Ends_bind, Ends_getVersion, Ends_modifyTransaction, Ends_pure]
      exact ⟨rfl, trivial⟩) hs
  obtain ⟨htr, hsh⟩ := hc.resolve_right And.right
  simp [put, ctx, htr, hsh]

theorem Step.accesses (hst : σ.Step t b op ret σ') (h : σ.AllSane) (hop : op.isAccess = true)
    (hret : ret ≠ .aborted) (hT : (σ.transaction t).TX = true) :
    (σ'.transaction t).TX = true ∧ (σ'.transaction t).readVersion = (σ.transaction t).readVersion ∧
      ∀ n, (σ'.shared b).mem n = (σ.shared b).mem n ∨ ((σ'.shared b).mem n).word = {} := by
  obtain ⟨ch, ho, hs⟩ := hst
  have hT : (σ.ctx t b).transaction.TX = true := hT
  have hends := (call_accessed hop hT).and (call_framed op (h t b) ho)
  obtain ⟨c, rfl, hc⟩ := of_step (P := fun _ => True) (hends.mono (fun _ _ hc => hc) fun e c _ => by
    rcases e with _ | _ | _ | _ <;> trivial) hs
  obtain ⟨⟨hacc, hopen⟩, hfr, -⟩ := hc.resolve_right fun hc => hret hc.1
  refine ⟨by simpa [put] using hopen, by simpa [put, ctx] using (hfr.access hop).2.1, fun n => ?_⟩
  simpa [put, ctx] using (hacc.mem n).imp id fun hn => hn.2.2

variable {σ₀ σ₁ σ₂ σ₃ σ₄ : TwoTypes K V m} {alone : Bool}

/-- A transaction none of whose calls has thrown is open. Alone, it has met no mark. -/
theorem Transaction.opened (h : Transaction t σ₀ alone σ) (hs : σ₀.AllSane) :
    σ.AllSane ∧ (σ.transaction t).TX = true ∧ (alone = true → σ₀.Unmarked → σ.Clear t) := by
  induction h with
  | @begin b₁ _ τ hst =>
    obtain ⟨hT, hrv, hsh⟩ := hst.begins
    refine ⟨hst.sane hs, hT, fun _ hu b' n => ?_⟩
    have hmem : (τ.shared b').mem n = (σ₀.shared b').mem n := by
      by_cases hb : b' = b₁
      · subst hb
        rw [hsh]
      · rw [hst.framed.shared b' hb]
    rw [hmem, hrv]
    rintro (hlt | ⟨he, hm⟩)
    · exact absurd ((hs t b').version n) (not_le.2 hlt)
    · rw [hu b' n he] at hm
      simp at hm
  | @access _ b₁ _ _ _ _ _ hop hret hst ih =>
    obtain ⟨hs₁, hT, hclear⟩ := ih
    obtain ⟨hT', hrv, hmem⟩ := hst.accesses hs₁ hop hret hT
    refine ⟨hst.sane hs₁, hT', fun ha hu b' n => ?_⟩
    rw [hrv]
    by_cases hb : b' = b₁
    · subst hb
      rcases hmem n with he | he
      · rw [he]
        exact hclear ha hu b' n
      · rintro (hlt | ⟨-, hm⟩)
        · rw [he] at hlt
          exact absurd hlt (Nat.not_lt_zero _)
        · rw [he] at hm
          simp at hm
    · rw [hst.framed.shared b' hb]
      exact hclear ha hu b' n
  | other _ hu hst ih =>
    obtain ⟨hs₁, hT, -⟩ := ih
    refine ⟨hst.sane hs₁, ?_, fun ha => by simp at ha⟩
    rw [hst.framed.transaction t (Ne.symm hu)]
    exact hT

/-- The two halves take effect together or not at all; both do when no other thread takes a step and no
node had a singleton's mark of the version the transaction began at. -/
structure Atomic (t : ThreadId) (b : Ty) (σ₀ : TwoTypes K V m) (alone : Bool)
    (σ₁ σ₂ σ₃ σ₄ : TwoTypes K V m) : Prop where
  all_or_nothing : TakesEffect t b σ₁ σ₂ ∧ TakesEffect t b.other σ₃ σ₄ ∨
    NoEffect b σ₁ σ₂ ∧ NoEffect b.other σ₃ σ₄
  lone : alone = true → σ₀.Unmarked → TakesEffect t b σ₁ σ₂ ∧ TakesEffect t b.other σ₃ σ₄

/-- A transaction that writes and would pass its first `TXend` has updates for one type only, and when
it is alone none for the type that is ended last. -/
structure OneSided (t : ThreadId) (b : Ty) (σ₀ : TwoTypes K V m) (alone : Bool) (σ₁ : TwoTypes K V m) :
    Prop where
  valid : (σ₁.ctx t b).Live → (σ₁.transaction t).readOnly = false →
    (σ₁.storage t b).writeSet = ∅ ∨ (σ₁.storage t b.other).writeSet = ∅
  lone : alone = true → σ₀.Unmarked → (σ₁.storage t b.other).writeSet = ∅ ∧
    ((σ₁.transaction t).readOnly = true → (σ₁.storage t b).writeSet = ∅)

/-- What a `TXend` does to the nodes of its type. -/
theorem Step.ends (hst : σ.Step t b .txEnd ret σ') (h : σ.AllSane) : (σ'.transaction t).TX = false ∧
    ((σ.ctx t b).Live ∧ (σ'.shared b).mem = (if (σ.transaction t).readOnly then (σ.shared b).mem
        else ((σ.ctx t b).shared.commit (σ.storage t b).writeSet).mem) ∨
      ¬ (σ.ctx t b).Live ∧ NoEffect b σ σ') := by
  obtain ⟨ch, ho, hs⟩ := hst
  have hends := TXend_outcome (h t b).unlocked (ho rfl)
  obtain ⟨c, rfl, hc⟩ := of_step (Q := fun _ c => (σ.ctx t b).Live ∧
      c.transaction.TX = false ∧ c.shared.mem = if (σ.ctx t b).transaction.readOnly then
        (σ.ctx t b).shared.mem else ((σ.ctx t b).shared.commit (σ.ctx t b).storage.writeSet).mem) (by
    simp only [call, Ends_bind, Ends_pure]
    exact hends) hs
  rcases hc with ⟨hl, hT, hmem⟩ | ⟨-, hl, hT, hmem⟩
  · exact ⟨by simpa [put] using hT, .inl ⟨hl, by
      simp only [put, Function.update_self]
      exact hmem⟩⟩
  · exact ⟨by simpa [put] using hT, .inr ⟨hl, fun n => by simpa [put, ctx] using hmem n⟩⟩

omit [∀ b, LinearOrder (K b)] in
theorem takesEffect_of_empty (h : (σ.storage t b).writeSet = ∅) : TakesEffect t b σ σ' := by
  intro n we hwe
  simp [h] at hwe

omit [∀ b, LinearOrder (K b)] in
/-- What is written back gets a new version. -/
theorem TakesEffect.empty (h : TakesEffect t b σ σ') (hno : NoEffect b σ σ') (hs : σ.AllSane) :
    (σ.storage t b).writeSet = ∅ := by
  refine AList.ext (List.eq_nil_iff_forall_not_mem.2 ?_)
  rintro ⟨n, we⟩ hn
  have hwe : (σ.storage t b).writeSet.lookup n = some we := AList.mem_lookup_iff.2 hn
  have hv : ((σ'.shared b).mem n).word.version = ((σ.shared b).mem n).word.version := by
    rcases hno n with he | he <;> rw [he]
    rfl
  have hold : ((σ.shared b).mem n).word.version ≤ σ.gvc := (hs t b).version n
  rw [h n we hwe] at hv
  have hnew : (((σ.shared b).mem n).writeBack we (σ.gvc + 1)).word.version = σ.gvc + 1 := rfl
  omega

/-- What the two `TXend`s do: the first one takes effect if the transaction is valid and writes, the
second one never. -/
theorem Ended.effects (h : Ended t b σ₀ alone σ₁ σ₂ σ₃ σ₄) (hs : σ₁.AllSane) :
    ((σ₁.ctx t b).Live → (σ₁.transaction t).readOnly = false → TakesEffect t b σ₁ σ₂) ∧
      (((σ₁.ctx t b).Live → (σ₁.transaction t).readOnly = false → (σ₁.storage t b).writeSet = ∅) →
        NoEffect b σ₁ σ₂) ∧
      NoEffect b.other σ₃ σ₄ ∧ σ₃.AllSane ∧
      (σ₃.storage t b.other).writeSet = (σ₁.storage t b.other).writeSet := by
  obtain ⟨ret₁, hst₁⟩ := h.first
  obtain ⟨ret₂, hst₂⟩ := h.second
  obtain ⟨hT, hout⟩ := hst₁.ends hs
  obtain ⟨hstor, htr⟩ := h.between.others
  have hs₃ := h.between.sane (hst₁.sane hs)
  refine ⟨fun hl hro n we hwe => ?_, fun hempty => ?_, ?_, hs₃, ?_⟩
  · rcases hout with ⟨-, hmem⟩ | ⟨hno, -⟩
    · rw [hmem, hro]
      exact Shared.commit_mem (σ₁.ctx t b).shared hwe
    · exact absurd hl hno
  · rcases hout with ⟨hl, hmem⟩ | ⟨-, hno⟩
    · intro n
      refine .inl ?_
      rcases hro : (σ₁.transaction t).readOnly with _ | _
      · rw [hmem, hro]
        refine Shared.commit_mem_of_notMem (σ₁.ctx t b).shared ?_
        rw [hempty hl hro]
        exact AList.notMem_empty n
      · rw [hmem, hro]
        rfl
    · exact hno
  · refine ((hst₂.ends hs₃).2.resolve_left ?_).2
    rintro ⟨⟨hopen, -⟩, -⟩
    have hclosed : (σ₃.transaction t).TX = false := by rw [htr]; exact hT
    exact absurd (hclosed.symm.trans hopen) (by simp)
  · rw [hstor, hst₁.framed.own _ (Ty.other_ne b)]

/-- A transaction over two types is atomic exactly if it has updates for one type only, and these for the
type that is ended first if no other thread keeps it from committing. -/
theorem two_types_atomic_iff {minKey : ∀ b, K b} {dflt : ∀ b, V b}
    (hr : (init minKey dflt).Run (fun _ => True) σ₀) (h : Ended t b σ₀ alone σ₁ σ₂ σ₃ σ₄) :
    Atomic t b σ₀ alone σ₁ σ₂ σ₃ σ₄ ↔ OneSided t b σ₀ alone σ₁ := by
  obtain ⟨alone₁, htrans, halone⟩ := h.transaction
  obtain ⟨hs, hT, hclear⟩ := htrans.opened (hr.sane (allSane_init minKey dflt))
  obtain ⟨htakes, hnone, hother, hs₃, hW⟩ := h.effects hs
  constructor
  · intro ha
    refine ⟨fun hl hro => ?_, fun hal hu => ?_⟩
    · rcases ha.all_or_nothing with ⟨-, ho⟩ | ⟨hb, -⟩
      · exact .inr (hW ▸ ho.empty hother hs₃)
      · exact .inl ((htakes hl hro).empty hb hs)
    · obtain ⟨hb, ho⟩ := ha.lone hal hu
      refine ⟨hW ▸ ho.empty hother hs₃, fun hro => hb.empty (hnone fun _ hro' => ?_) hs⟩
      rw [hro] at hro'
      simp at hro'
  · intro ha
    have hlast : (σ₁.storage t b.other).writeSet = ∅ → TakesEffect t b.other σ₃ σ₄ := fun he =>
      takesEffect_of_empty (hW.trans he)
    refine ⟨?_, fun hal hu => ?_⟩
    · by_cases hl : (σ₁.ctx t b).Live ∧ (σ₁.transaction t).readOnly = false
      · rcases ha.valid hl.1 hl.2 with he | he
        · exact .inr ⟨hnone fun _ _ => he, hother⟩
        · exact .inl ⟨htakes hl.1 hl.2, hlast he⟩
      · exact .inr ⟨hnone fun hl₁ hro => absurd ⟨hl₁, hro⟩ hl, hother⟩
    · obtain ⟨he, hro⟩ := ha.lone hal hu
      refine ⟨?_, hlast he⟩
      rcases hr : (σ₁.transaction t).readOnly with _ | _
      · exact htakes ⟨hT, fun n _ => hclear (halone hal) hu b n⟩ hr
      · exact takesEffect_of_empty (hro hr)

/-- A call that is played to its end and passes a test. -/
theorem exists_step {ch : Choice} {p : TwoTypes K V m × Ret (V b) → Bool}
    (ho : op = .txEnd → ch.Orders (σ.storage t b)) (h : (σ.step t b op ch).any p = true) :
    ∃ σ' ret, σ.Step t b op ret σ' ∧ p (σ', ret) = true := by
  rcases hs : σ.step t b op ch with _ | ⟨σ', ret⟩
  · simp [hs] at h
  · exact ⟨σ', ret, ⟨ch, ho, hs⟩, by simpa [hs] using h⟩

/-- Unsigned numbers for the one type, signed ones for the other. -/
def MixedVal : Ty → Type
  | .one => Nat
  | .two => Int

abbrev Mixed := TwoTypes (fun _ => Nat) MixedVal fun _ => 1

def mixed : Mixed := init (fun _ => 0) fun
  | .one => (0 : Nat)
  | .two => (0 : Int)

/-- The orders a `TXend` draws when the head is what there is to read, and to write if `b` says so. -/
def headOnly (b : Bool) : Choice :=
  { fuel := 20, writeOrder := if b then [0] else [], readOrder := [0] }

theorem two_types_atomic_one_sided : ∃ σ₁ σ₂ σ₃ σ₄ : Mixed,
    mixed.Run (fun _ => True) mixed ∧ Ended 0 .one mixed true σ₁ σ₂ σ₃ σ₄ ∧
    (Atomic 0 .one mixed true σ₁ σ₂ σ₃ σ₄ ↔ OneSided 0 .one mixed true σ₁) := by
  have h : (mixed.step 0 .one .txBegin (headOnly true)).any (fun x =>
      (x.1.step 0 .one (.put 0 5 (3 : Nat)) (headOnly true)).any fun x => !x.2.isAborted &&
        (x.1.step 0 .two (.get 0 5) (headOnly true)).any fun x => !x.2.isAborted &&
          decide ((headOnly true).Orders (x.1.storage 0 .one)) &&
          (x.1.step 0 .one .txEnd (headOnly true)).any fun x =>
            decide ((headOnly false).Orders (x.1.storage 0 .two)) &&
            (x.1.step 0 .two .txEnd (headOnly false)).any fun _ => true) = true := by
    decide +kernel
  obtain ⟨τ₁, r₁, hst₁, h⟩ := exists_step (by simp) h
  obtain ⟨τ₂, r₂, hst₂, h⟩ := exists_step (by simp) h
  simp only [Bool.and_eq_true, Bool.not_eq_true'] at h
  obtain ⟨ha₂, h⟩ := h
  obtain ⟨σ₁, r₃, hst₃, h⟩ := exists_step (by simp) h
  simp only [Bool.and_eq_true, Bool.not_eq_true', decide_eq_true_eq] at h
  obtain ⟨⟨ha₃, ho₁⟩, h⟩ := h
  obtain ⟨σ₂, r₄, hst₄, h⟩ := exists_step (fun _ => ho₁) h
  simp only [Bool.and_eq_true, decide_eq_true_eq] at h
  obtain ⟨σ₄, r₅, hst₅, -⟩ := exists_step (fun _ => h.1) h.2
  have htrans : Transaction 0 mixed true σ₁ :=
    ((Transaction.begin hst₁).access rfl (by rintro rfl; simp [Ret.isAborted] at ha₂) hst₂).access rfl
      (by rintro rfl; simp [Ret.isAborted] at ha₃) hst₃
  have hend : Ended 0 .one mixed true σ₁ σ₂ σ₂ σ₄ :=
    ⟨⟨true, htrans, id⟩, ⟨r₄, hst₄⟩, .refl, ⟨r₅, hst₅⟩, fun _ => rfl⟩
  exact ⟨σ₁, σ₂, σ₂, σ₄, .refl, hend, two_types_atomic_iff .refl hend⟩

/-- A transaction puts to a list of each type: the first half is committed, the second is lost. -/
theorem two_types_torn : ¬ ∀ (t : ThreadId) (b : Ty) (alone : Bool) (σ₀ σ₁ σ₂ σ₃ σ₄ : Mixed),
    mixed.Run (fun _ => True) σ₀ → Ended t b σ₀ alone σ₁ σ₂ σ₃ σ₄ →
    Atomic t b σ₀ alone σ₁ σ₂ σ₃ σ₄ := by
  intro hall
  have h : (mixed.step 0 .one .txBegin (headOnly true)).any (fun x =>
      (x.1.step 0 .one (.put 0 5 (3 : Nat)) (headOnly true)).any fun x => !x.2.isAborted &&
        (x.1.step 0 .two (.put 0 5 (7 : Int)) (headOnly true)).any fun x => !x.2.isAborted &&
          decide ((headOnly true).Orders (x.1.storage 0 .one)) &&
          decide (((x.1.shared .one).mem 0).word.version = 0) &&
          (x.1.step 0 .one .txEnd (headOnly true)).any fun x =>
            decide (((x.1.shared .one).mem 0).word.version = 1) &&
            decide ((headOnly true).Orders (x.1.storage 0 .two)) &&
            ((x.1.storage 0 .two).writeSet.lookup 0).isSome &&
            (x.1.step 0 .two .txEnd (headOnly true)).any fun x =>
              decide (((x.1.shared .two).mem 0).word.version = 0)) = true := by
    decide +kernel
  obtain ⟨τ₁, r₁, hst₁, h⟩ := exists_step (by simp) h
  obtain ⟨τ₂, r₂, hst₂, h⟩ := exists_step (by simp) h
  simp only [Bool.and_eq_true, Bool.not_eq_true'] at h
  obtain ⟨ha₂, h⟩ := h
  obtain ⟨σ₁, r₃, hst₃, h⟩ := exists_step (by simp) h
  simp only [Bool.and_eq_true, Bool.not_eq_true', decide_eq_true_eq] at h
  obtain ⟨⟨⟨ha₃, ho₁⟩, hv₁⟩, h⟩ := h
  obtain ⟨σ₂, r₄, hst₄, h⟩ := exists_step (fun _ => ho₁) h
  simp only [Bool.and_eq_true, decide_eq_true_eq] at h
  obtain ⟨⟨⟨hv₂, ho₂⟩, hwrite⟩, h⟩ := h
  obtain ⟨σ₄, r₅, hst₅, h⟩ := exists_step (fun _ => ho₂) h
  have htrans : Transaction 0 mixed true σ₁ :=
    ((Transaction.begin hst₁).access rfl (by rintro rfl; simp [Ret.isAborted] at ha₂) hst₂).access rfl
      (by rintro rfl; simp [Ret.isAborted] at ha₃) hst₃
  have hatomic := hall 0 .one true mixed σ₁ σ₂ σ₂ σ₄ .refl
    ⟨⟨true, htrans, id⟩, ⟨r₄, hst₄⟩, .refl, ⟨r₅, hst₅⟩, fun _ => rfl⟩
  rcases hatomic.all_or_nothing with ⟨-, htwo⟩ | ⟨hone, -⟩
  · obtain ⟨we, hwe⟩ := Option.isSome_iff_exists.1 hwrite
    have hv : ((σ₄.shared Ty.one.other).mem 0).word.version = σ₂.gvc + 1 := by
      rw [htwo 0 we hwe]
      rfl
    exact absurd (hv.symm.trans (of_decide_eq_true h)) (Nat.succ_ne_zero _)
  · have hv : ((σ₂.shared .one).mem 0).word.version = ((σ₁.shared .one).mem 0).word.version := by
      rcases hone 0 with he | he <;> rw [he]
      rfl
    rw [hv₁, hv₂] at hv
    simp at hv

end TwoTypes

end TxList
