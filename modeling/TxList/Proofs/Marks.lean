import TxList.Proofs.Scripts

/-!
# What a singleton changes is noticed

A singleton does not move the clock on: what it changes it stamps with the clock's version and the
singleton bit, which together tell every running transaction that the node is not what it was. The
mark holds until the node is committed to or an aborting `TXend` clears the bit. That `TXend` may
belong to another transaction of the same read version, and then the mark is lost to the rest.
-/

namespace TxList

open Prog

variable {K V : Type} {m : Nat} [LinearOrder K] {C C' C₀ C₁ C₂ C₃ : Conf K V m} {s t T : ThreadId}
  {op : Op K V m} {ret : Ret V} {x : NodeId} {minKey : K} {dflt : V}

/-- The call, made outside transactions, adds no node to a list: a `remove`, or a `put` that
overwrites. -/
def ChangesInPlace (C C' : Conf K V m) : Op K V m → Prop
  | .remove _ _ => True
  | .put _ _ _ => C'.sys.shared.fresh = C.sys.shared.fresh
  | .get _ _ | .containsKey _ _ | .txBegin | .txEnd | .handleAbort => False

/-- The step does not end `T`'s transaction or start a new one, and is no `TXend` of another
transaction with `T`'s read version that is to write to `x` and finds a singleton's mark there. -/
def KeepsMark (T : ThreadId) (x : NodeId) : Conf.Guard K V m := fun C t op =>
  if t = T then op.isAccess = true
  else op = .txEnd → C.inTX t = true → x ∈ (C.sys.threads t).storage.readSet →
    x ∈ (C.sys.threads t).storage.writeSet → (C.sys.shared.mem x).word.singleton = true →
    (C.sys.shared.mem x).word.version = (C.sys.threads t).transaction.readVersion →
    (C.sys.threads t).transaction.readVersion ≠ (C.sys.threads T).transaction.readVersion

/-- A singleton stamps what it changes. -/
theorem Conf.Step.stamps (hst : C.Step t op ret C') (h : C.sys.Sane) (hF : C.inTX t = false)
    (hop : ChangesInPlace C C' op) : Stamps C.sys.shared C'.sys.shared := by
  obtain ⟨ch, -, hs, -⟩ := hst
  have hF : (C.sys.ctx t).transaction.TX = false := hF
  have hstart : Searching (C.sys.ctx t) (C.sys.ctx t) (C.sys.ctx t) := ⟨.refl (h t), .refl _⟩
  cases op with
  | put l key val =>
    have hends : Ends (call ch (.put l key val)) (C.sys.ctx t) (fun _ => Single (C.sys.ctx t))
        (OnAbort fun _ => False) := by
      simp only [call, put, Ends_bind, Ends_get, hF, Bool.false_eq_true, if_false, Ends_pure]
      exact putSingletonLoop_single ch.fuel hstart
    obtain ⟨c, hc, hS | ⟨-, hS⟩⟩ := Sys.step_of_ends hends hs
    · rw [hc]
      refine hS.stamps ?_
      rw [ChangesInPlace, hc] at hop
      exact hop
    · exact hS.elim
  | remove l key =>
    have hends : Ends (call ch (.remove l key)) (C.sys.ctx t)
        (fun _ c => Single (C.sys.ctx t) c ∧ c.shared.fresh = (C.sys.ctx t).shared.fresh)
        (OnAbort fun _ => False) := by
      simp only [call, remove, Ends_bind, Ends_get, hF, Bool.false_eq_true, if_false, Ends_pure]
      exact removeSingletonLoop_single ch.fuel hstart
    obtain ⟨c, hc, hS | ⟨-, hS⟩⟩ := Sys.step_of_ends hends hs
    · rw [hc]
      exact hS.1.stamps hS.2
    · exact hS.elim
  | txBegin | get | containsKey | txEnd | handleAbort => exact hop.elim

/-- `T`'s transaction has been closed, or `x` is in its read set and marked for it. -/
def Noticed (T : ThreadId) (x : NodeId) (C : Conf K V m) : Prop :=
  C.inTX T = false ∨ x ∈ (C.sys.threads T).storage.readSet ∧
    Marked (C.sys.shared.mem x) (C.sys.threads T).transaction.readVersion

theorem Noticed.of_change (hst : C.Step s op ret C') (h : C.sys.Sane) (hF : C.inTX s = false)
    (hop : ChangesInPlace C C' op) (hT : C.inTX T = true)
    (hx : x ∈ (C.sys.threads T).storage.readSet) (hne : C'.sys.shared.mem x ≠ C.sys.shared.mem x) :
    Noticed T x C' := by
  have hTs : T ≠ s := by
    rintro rfl
    rw [hF] at hT
    simp at hT
  rw [Noticed, (hst.framed h).threads T hTs]
  refine .inr ⟨hx, ?_⟩
  rcases hst.stamps h hF hop x with he | ⟨hv, hs⟩
  · exact absurd he hne
  · rcases ((h T).readVersion : (C.sys.threads T).transaction.readVersion ≤ _).lt_or_eq with hlt | he
    · exact .inl (hv ▸ hlt)
    · exact .inr ⟨hv.trans he.symm, hs⟩

/-- A step keeps the mark, but for the `TXend` that clears it. -/
theorem Noticed.step (h : Noticed T x C) (hs : C.sys.Sane) (hG : KeepsMark T x C t op)
    (hst : C.Step t op ret C') : Noticed T x C' := by
  have hf := hst.framed hs
  rw [KeepsMark] at hG
  split_ifs at hG with hT
  · subst hT
    obtain ⟨hsub, hrv, hopen⟩ := hf.framed.access hG
    rcases h with h | ⟨hx, hm⟩
    · refine .inl ?_
      rcases hT : C'.inTX t with _ | _
      · rfl
      · exact absurd (h.symm.trans (hopen hT)) (by simp)
    · refine .inr ⟨hsub hx, ?_⟩
      rw [show (C'.sys.threads t).transaction.readVersion = _ from hrv]
      refine hf.framed.grows.marked x ((hs t).readSet x hx) _ (hs t).readVersion ?_ hm
      rintro ⟨-, rfl, -⟩
      simp [Op.isAccess] at hG
  · have hthr := hf.threads T (Ne.symm hT)
    rcases h with h | ⟨hx, hm⟩
    · exact .inl (by rw [Conf.inTX, hthr]; exact h)
    · rw [Noticed, hthr]
      refine .inr ⟨hx, hf.framed.grows.marked x ((hs T).readSet x hx) _ (hs T).readVersion ?_ hm⟩
      rintro ⟨-, hop, hr, hw, hTX, hrv, hv⟩
      have hsing : (C.sys.shared.mem x).word.singleton = true := by
        rcases hm with hlt | hm
        · exact absurd hv hlt.ne'
        · exact hm.2
      exact hG hop hTX hr hw hsing (hv.trans hrv) hrv.symm

/-- After a singleton `remove` or an overwriting singleton `put` has changed a node that an open
transaction has read, that transaction does not commit, unless the mark was cleared in between. -/
theorem singleton_change_noticed (hr : Conf.Reach minKey dflt Conf.anyStep C₀)
    (hT : C₀.inTX T = true) (hx : x ∈ (C₀.sys.threads T).storage.readSet) (hF : C₀.inTX s = false)
    (hst : C₀.Step s op ret C₁) (hop : ChangesInPlace C₀ C₁ op)
    (hne : C₁.sys.shared.mem x ≠ C₀.sys.shared.mem x) (hrun : C₁.Run (KeepsMark T x) C₂)
    {ret' : Ret V} (hend : C₂.Step T .txEnd ret' C₃) : ret' = .aborted := by
  have hs₀ := hr.sane (Sys.sane_init minKey dflt)
  have h₁ : C₁.sys.Sane ∧ Noticed T x C₁ :=
    ⟨(hst.framed hs₀).sane, .of_change hst hs₀ hF hop hT hx hne⟩
  obtain ⟨hs₂, h₂⟩ := hrun.keeps (J := fun C => C.sys.Sane ∧ Noticed T x C) h₁
    fun h hG hst => ⟨(hst.framed h.1).sane, h.2.step h.1 hG hst⟩
  by_contra hret
  obtain ⟨hTX, hv⟩ := (hend.framed hs₂).valid rfl hret
  rcases h₂ with h₂ | ⟨hx₂, hm⟩
  · exact absurd (h₂.symm.trans hTX) (by simp)
  · exact hv x hx₂ hm

instance [DecidableEq V] (T : ThreadId) (x : NodeId) (C : Conf K V m) (t : ThreadId)
    (op : Op K V m) : Decidable (KeepsMark T x C t op) := by
  unfold KeepsMark
  infer_instance

/-- Two transactions of one read version and a singleton overwrite a value. The singleton is
noticed as long as neither of the two has ended. -/
theorem singleton_change_noticed_put : ∃ C₀ C₁ C₂ C₃ : Conf Nat Nat 1,
    Conf.Reach 0 0 Conf.anyStep C₀ ∧ C₀.inTX 0 = true ∧ 1 ∈ (C₀.sys.threads 0).storage.readSet ∧
    C₀.inTX 2 = false ∧ C₀.Step 2 (.put 0 5 12) (.val (some 3)) C₁ ∧
    C₁.sys.shared.mem 1 ≠ C₀.sys.shared.mem 1 ∧ C₁.Run (KeepsMark 0 1) C₂ ∧
    ∃ ret, C₂.Step 0 .txEnd ret C₃ ∧ ret = .aborted := by
  obtain ⟨C₀, h₀, hI, hp⟩ := Conf.exists_reach_of_decidable (G := Conf.anyStep) 0 0 3
    [(1, .txBegin), (1, .put 0 5 3), (1, .txEnd), (0, .txBegin), (1, .txBegin), (0, .put 0 5 10),
      (1, .put 0 5 11)]
    (fun C₀ : Conf Nat Nat 1 => C₀.inTX 0 && decide (1 ∈ (C₀.sys.threads 0).storage.readSet) &&
      !C₀.inTX 2 && C₀.after 2 (.put 0 5 12) (.val (some 3)) fun C₁ : Conf Nat Nat 1 =>
        decide (C₁.sys.shared.fresh = C₀.sys.shared.fresh) &&
        decide (C₁.sys.shared.mem 1 ≠ C₀.sys.shared.mem 1) &&
        (C₁.script (fun C t op => decide (KeepsMark 0 1 C t op)) 3 [(1, .handleAbort)]).any
          fun C₂ : Conf Nat Nat 1 => C₂.returns 0 .txEnd .aborted) (by decide +kernel)
  simp only [Bool.and_eq_true, Bool.not_eq_true', decide_eq_true_eq] at hp
  obtain ⟨⟨⟨hT, hx⟩, hF⟩, hp⟩ := hp
  obtain ⟨C₁, hst, hI₁, hp₁⟩ := Conf.exists_step hI (by decide) hp
  simp only [Bool.and_eq_true, decide_eq_true_eq] at hp₁
  obtain ⟨⟨hfresh, hne⟩, hp₁⟩ := hp₁
  obtain ⟨C₂, hr, -, hp₂⟩ := Conf.exists_run_of_decidable (G := KeepsMark 0 1) hI₁ _ _ hp₁
  obtain ⟨C₃, hend⟩ := Conf.step_of_returns hp₂
  exact ⟨C₀, C₁, C₂, C₃, h₀, hT, hx, hF, hst, hne, hr, _, hend,
    singleton_change_noticed h₀ hT hx hF hst hfresh hne hr hend⟩

/-- Two transactions of one read version and a singleton overwrite a value. The first `TXend`
clears the mark as it aborts, and the other transaction commits over the singleton's value. -/
theorem cleared_mark_missed : ¬ ∀ (C₀ C₁ C₂ C₃ : Conf Nat Nat 1) (s T : ThreadId) (x : NodeId)
    (op : Op Nat Nat 1) (ret ret' : Ret Nat), Conf.Reach 0 0 Conf.anyStep C₀ → C₀.inTX T = true →
    x ∈ (C₀.sys.threads T).storage.readSet → C₀.inTX s = false → C₀.Step s op ret C₁ →
    ChangesInPlace C₀ C₁ op → C₁.sys.shared.mem x ≠ C₀.sys.shared.mem x →
    C₁.Run (fun _ t op => t = T → op.isAccess = true) C₂ → C₂.Step T .txEnd ret' C₃ →
    ret' = .aborted := by
  intro h
  obtain ⟨C₀, h₀, hI, hp⟩ := Conf.exists_reach_of_decidable (G := Conf.anyStep) 0 0 3
    [(1, .txBegin), (1, .put 0 5 3), (1, .txEnd), (0, .txBegin), (1, .txBegin), (0, .put 0 5 10),
      (1, .put 0 5 11)]
    (fun C₀ : Conf Nat Nat 1 => C₀.inTX 0 && decide (1 ∈ (C₀.sys.threads 0).storage.readSet) &&
      !C₀.inTX 2 && C₀.after 2 (.put 0 5 12) (.val (some 3)) fun C₁ : Conf Nat Nat 1 =>
        decide (C₁.sys.shared.fresh = C₀.sys.shared.fresh) &&
        decide (C₁.sys.shared.mem 1 ≠ C₀.sys.shared.mem 1) &&
        (C₁.script (fun _ t op => decide (t = 0 → op.isAccess = true)) 3 [(1, .txEnd)]).any
          fun C₂ : Conf Nat Nat 1 => C₂.returns 0 .txEnd (.bool true)) (by decide +kernel)
  simp only [Bool.and_eq_true, Bool.not_eq_true', decide_eq_true_eq] at hp
  obtain ⟨⟨⟨hT, hx⟩, hF⟩, hp⟩ := hp
  obtain ⟨C₁, hst, hI₁, hp₁⟩ := Conf.exists_step hI (by decide) hp
  simp only [Bool.and_eq_true, decide_eq_true_eq] at hp₁
  obtain ⟨⟨hfresh, hne⟩, hp₁⟩ := hp₁
  obtain ⟨C₂, hr, -, hp₂⟩ := Conf.exists_run_of_decidable
    (G := fun _ t op => t = 0 → op.isAccess = true) hI₁ _ _ hp₁
  obtain ⟨C₃, hend⟩ := Conf.step_of_returns hp₂
  have := h C₀ C₁ C₂ C₃ 2 0 1 _ _ _ h₀ hT hx hF hst hfresh hne hr hend
  simp at this

end TxList
