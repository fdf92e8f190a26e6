import TxList.Proofs.Invariant

/-!
# Reachable states

The invariant holds of the lists as constructed, so it holds of every state that safe runs reach.
Runs of transactions only and runs of singletons only are safe: the first never mark a node as a
singleton does, the second never have a transaction open.
-/

namespace TxList

open Prog Chain

variable {K V : Type} {m : Nat} [LinearOrder K]

section Run

variable {C C' : Conf K V m} {G G' : Conf.Guard K V m}

/-- A property that every guarded step keeps holds after every guarded run, and a guard that
follows from it is met all along. -/
theorem Conf.Run.induct {J : Conf K V m → Prop} (hr : C.Run G C') (h0 : J C)
    (hG : ∀ {C₁ t op}, J C₁ → G C₁ t op → G' C₁ t op)
    (hstep : ∀ {C₁ t op ret C₂}, J C₁ → G C₁ t op → C₁.Step t op ret C₂ → J C₂) :
    C.Run G' C' ∧ J C' := by
  induction hr with
  | refl => exact ⟨.refl, h0⟩
  | step _ hg hst ih => exact ⟨.step ih.1 (hG ih.2 hg) hst, hstep ih.2 hg hst⟩

theorem Conf.Run.keeps {J : Conf K V m → Prop} (hr : C.Run G C') (h0 : J C)
    (hstep : ∀ {C₁ t op ret C₂}, J C₁ → G C₁ t op → C₁.Step t op ret C₂ → J C₂) : J C' :=
  (hr.induct h0 (fun _ hg => hg) hstep).2

theorem Conf.Run.mono {G' : Conf.Guard K V m} (hr : C.Run G C')
    (hG : ∀ {C t op}, G C t op → G' C t op) : C.Run G' C' := by
  induction hr with
  | refl => exact .refl
  | step _ hg hst ih => exact .step ih (hG hg) hst

theorem Conf.Run.trans {C'' : Conf K V m} (h : C.Run G C') (h' : C'.Run G C'') : C.Run G C'' := by
  induction h' with
  | refl => exact h
  | step _ hg hst ih => exact .step ih hg hst

theorem Conf.Step.framed {t : ThreadId} {op : Op K V m} {ret : Ret V} (hst : C.Step t op ret C')
    (h : C.sys.Sane) : StepFramed C.sys C'.sys t op ret := by
  obtain ⟨ch, ho, hs, -⟩ := hst
  exact Sys.step_framed h ho hs

theorem Conf.Run.sane (hr : C.Run G C') (h : C.sys.Sane) : C'.sys.Sane :=
  hr.keeps (J := fun C => C.sys.Sane) h fun h _ hst => (hst.framed h).sane

omit [LinearOrder K] in
/-- A node that has left its list for good. -/
def Shared.Dead (s : Shared K V m) (n : NodeId) : Prop :=
  n < s.fresh ∧ (s.mem n).isDeleted = true ∧ (s.mem n).val = none

theorem Mutates.dead_of_dead {s s' : Shared K V m} {S D F : ListId m → Finset NodeId}
    {W : Set NodeId} {n : NodeId} (hM : Mutates s s' S D F W) (h : s.Dead n) : s'.Dead n := by
  obtain ⟨hlt, hd, hv⟩ := h
  have hW : n ∉ W := fun hW => by
    rw [hM.alive n hlt (.inl hW)] at hd
    simp at hd
  obtain ⟨-, hval, hdel⟩ := hM.same n hlt hW
  exact ⟨hlt.trans_le hM.fresh, hdel.trans hd, hval.trans hv⟩

/-- A step: the nodes of a list stay on it or are dead. -/
theorem Inv.step_nodes {S : ListId m → Finset NodeId} {t : ThreadId} {op : Op K V m} {ret : Ret V}
    (h : Inv C S) (hG : Safe C t op) (hst : C.Step t op ret C') : ∃ S', Inv C' S' ∧
      (∀ l, ∀ n ∈ S l, n ∈ S' l ∨ C'.sys.shared.Dead n) ∧
      ∀ n, C.sys.shared.Dead n → C'.sys.shared.Dead n := by
  obtain ⟨c', D, F, W, hc', -, hC, -, hInv⟩ := h.step hG hst
  have hM : Mutates C.sys.shared C'.sys.shared S D F W := by
    rw [hc']
    exact hC.mutates
  refine ⟨_, hInv, fun l n hn => ?_, fun n hd => hM.dead_of_dead hd⟩
  by_cases hD : n ∈ D l
  · exact .inr ⟨(h.lists.bound l n hn).2.trans_le hM.fresh, hM.dead l n hD⟩
  · exact .inl (mem_patched.2 (.inl ⟨hn, hD⟩))

/-- A run: the nodes of a list stay on it or are dead. -/
theorem Inv.run {S : ListId m → Finset NodeId} (h : Inv C S) (hr : C.Run Safe C') :
    ∃ S', Inv C' S' ∧ ∀ l, ∀ n ∈ S l, n ∈ S' l ∨ C'.sys.shared.Dead n := by
  induction hr with
  | refl => exact ⟨S, h, fun l n hn => .inl hn⟩
  | step _ hg hst ih =>
    obtain ⟨S₁, h₁, hn₁⟩ := ih
    obtain ⟨S₂, h₂, hn₂, hd₂⟩ := h₁.step_nodes hg hst
    refine ⟨S₂, h₂, fun l n hn => ?_⟩
    rcases hn₁ l n hn with hn | hn
    · exact hn₂ l n hn
    · exact .inr (hd₂ n hn)

theorem Inv.init (minKey : K) (dflt : V) :
    Inv (Conf.init minKey dflt : Conf K V m) fun _ => ∅ := by
  have hclosed : ∀ t, ¬ ((Conf.init minKey dflt : Conf K V m).sys.ctx t).Live := fun t h => by
    simpa [Conf.init, Sys.init, Sys.ctx] using h.1
  refine ⟨Sys.sane_init minKey dflt, ⟨fun l => ⟨⟨fun s hs => by simp at hs, fun s hs => by simp at hs⟩,
    fun n _ s hs => by simp at hs⟩, fun l n hn => by simp at hn, fun l n _ => ⟨rfl, rfl⟩,
    fun l => Index.indexed_new, fun l l' _ => by simp⟩, fun t h => absurd h (hclosed t),
    fun t u _ h => absurd h (hclosed t)⟩

theorem Inv.of_reach {minKey : K} {dflt : V} (hr : Conf.Reach minKey dflt Safe C) :
    ∃ S, Inv C S := by
  obtain ⟨S, h, -⟩ := (Inv.init minKey dflt).run hr
  exact ⟨S, h⟩

end Run

/-! ## Transactions only -/

section Clients

variable {C C' : Conf K V m} {minKey : K} {dflt : V}

/-- No node has a singleton's mark, and a thread whose transaction ended in order has nothing left
in its local storage. -/
structure TxOnly (C : Conf K V m) : Prop where
  inv : ∃ S, Inv C S
  unmarked : ∀ n, (C.sys.shared.mem n).word.singleton = false
  tidy : ∀ t, C.hist.thrown t = false → C.inTX t = false → (C.sys.threads t).storage.IsEmpty

theorem TxOnly.safe {t : ThreadId} {op : Op K V m} (h : TxOnly C) (hG : TxClient C t op) :
    Safe C t op := by
  refine ⟨?_, ?_, ?_⟩
  · rintro rfl
    refine h.tidy t ?_ hG.2
    rcases hth : C.hist.thrown t with _ | _
    · rfl
    · exact absurd (hG.1 hth) (by simp)
  · rintro l key val rfl hT
    have := hG.2
    simp [hT] at this
  · rintro rfl _ n _ _ hs
    rw [h.unmarked n] at hs
    simp at hs

theorem Hist.step_thrown (H : Hist K V m) (t : ThreadId) (inTX : Bool) (op : Op K V m) (ret : Ret V) :
    (H.step t inTX op ret).thrown = Function.update H.thrown t ret.isAborted := by
  simp only [Hist.step]
  split
  · rfl
  · rfl
  · rfl
  · rfl
  · split
    · rfl
    · split_ifs <;> rfl

omit [LinearOrder K] in
theorem Ctx.cleaned_isEmpty (c : Ctx K V m) : c.cleaned.storage.IsEmpty :=
  ⟨rfl, rfl, fun _ => rfl, fun _ => rfl⟩

theorem Act.unmarked {S : ListId m → Finset NodeId} {c c' : Ctx K V m} {op : Op K V m} {ret : Ret V}
    (h : Act S c op ret c') (hT : op.isAccess = true → c.transaction.TX = true)
    (hu : ∀ n, (c.shared.mem n).word.singleton = false) :
    ∀ n, (c'.shared.mem n).word.singleton = false := by
  have hquiet : Quiet c.shared c'.shared → ∀ n, (c'.shared.mem n).word.singleton = false := by
    intro hq n
    rcases hq.word n with hw | hw
    · rw [hw]
      exact hu n
    · rw [hw]
  have hno : ∀ {P : Prop}, op.isAccess = true → c.transaction.TX = false → P := fun hop hF => by
    rw [hT hop] at hF
    simp at hF
  cases h with
  | opened => exact hu
  | handled => exact hu
  | rejected => exact hu
  | @cleared k _ _ =>
    intro n
    by_cases hn : n = k
    · subst hn
      simp [Ctx.cleaned, Shared.clearMark, LNode.setSingleton]
    · simpa [Ctx.cleaned, Shared.clearMark, hn] using hu n
  | finished => exact hu
  | committed _ _ hup _ =>
    intro n
    simp only [Ctx.cleaned, hup.mem, Ctx.written, Shared.commit]
    rcases c.storage.writeSet.lookup n with _ | ⟨_, _, _ | _⟩
    · exact hu n
    · rfl
    · rfl
  | thrown _ _ ht => exact hquiet ht.quiet
  | strayed _ _ _ hq => exact hquiet hq.quiet
  | overwrote => exact hu
  | inserted _ _ _ hx => exact hquiet (.alloc _ (by rw [hx]))
  | unlinked => exact hu
  | missed => exact hu
  | read => exact hu
  | contained => exact hu
  | stamped hF => exact hno rfl hF
  | linked hF => exact hno rfl hF
  | cut hF => exact hno rfl hF
  | absent hF => exact hno rfl hF
  | gotten hF => exact hno rfl hF
  | checked hF => exact hno rfl hF

/-- After a call of a transaction that throws nothing the transaction is open or the storage is
empty. -/
theorem Act.tidy {S : ListId m → Finset NodeId} {c c' : Ctx K V m} {op : Op K V m} {ret : Ret V}
    (h : Act S c op ret c') (hT : op.isAccess = true → c.transaction.TX = true)
    (hret : ret.isAborted = false) (hclosed : c'.transaction.TX = false) : c'.storage.IsEmpty := by
  have hno : ∀ {P : Prop}, c.Live → c.transaction.TX = false → P := fun hl hF => by
    rw [hl.1] at hF
    simp at hF
  have hno' : ∀ {P : Prop}, op.isAccess = true → c.transaction.TX = false → P := fun hop hF => by
    rw [hT hop] at hF
    simp at hF
  cases h with
  | opened => simp at hclosed
  | handled => exact Ctx.cleaned_isEmpty _
  | rejected => exact Ctx.cleaned_isEmpty _
  | cleared => exact Ctx.cleaned_isEmpty _
  | finished => exact Ctx.cleaned_isEmpty _
  | committed => exact Ctx.cleaned_isEmpty _
  | thrown => simp [Ret.isAborted] at hret
  | strayed hop _ _ hq => exact hno' hop (hq.stays ▸ hclosed)
  | overwrote hl => exact hno hl hclosed
  | inserted hl => exact hno hl hclosed
  | unlinked hl => exact hno hl hclosed
  | missed hl => exact hno hl hclosed
  | read hl => exact hno hl hclosed
  | contained hl => exact hno hl hclosed
  | stamped hF => exact hno' rfl hF
  | linked hF => exact hno' rfl hF
  | cut hF => exact hno' rfl hF
  | absent hF => exact hno' rfl hF
  | gotten hF => exact hno' rfl hF
  | checked hF => exact hno' rfl hF

omit [LinearOrder K] in
theorem TxClient.access {t : ThreadId} {op : Op K V m} (hG : TxClient C t op)
    (hop : op.isAccess = true) : C.inTX t = true := by
  have := hG.2
  cases op <;> simp_all [Op.isAccess]

theorem TxOnly.step {t : ThreadId} {op : Op K V m} {ret : Ret V} (h : TxOnly C)
    (hG : TxClient C t op) (hst : C.Step t op ret C') : TxOnly C' := by
  obtain ⟨S, hInv⟩ := h.inv
  have hsafe := h.safe hG
  obtain ⟨-, -, -, hframe, hhist⟩ := hInv.step_act hst
  obtain ⟨c', D, F, W, hc', hact, -, -, hInv'⟩ := hInv.step hsafe hst
  have hTX := TxClient.access hG
  refine ⟨⟨_, hInv'⟩, fun n => ?_, fun u hth hT => ?_⟩
  · rw [hc']
    exact hact.unmarked hTX h.unmarked n
  · rw [hhist, Hist.step_thrown] at hth
    by_cases hu : u = t
    · subst hu
      rw [Function.update_self] at hth
      have hctx : C'.sys.threads u = ⟨c'.storage, c'.transaction⟩ := by
        rw [hc', Sys.put_threads_self]
      rw [Conf.inTX, hctx] at hT
      rw [hctx]
      exact hact.tidy hTX hth hT
    · rw [Function.update_of_ne hu] at hth
      rw [Conf.inTX, hframe.threads u hu] at hT
      rw [hframe.threads u hu]
      exact h.tidy u hth hT

theorem TxOnly.init (minKey : K) (dflt : V) : TxOnly (Conf.init minKey dflt : Conf K V m) :=
  ⟨⟨_, Inv.init minKey dflt⟩, fun _ => rfl, fun _ _ _ => ⟨rfl, rfl, fun _ => rfl, fun _ => rfl⟩⟩

/-- Runs of transactions only are safe. -/
theorem TxClient.run_safe_from {C₀ : Conf K V m} (h : TxOnly C₀) (hr : C₀.Run TxClient C) :
    C₀.Run Safe C ∧ TxOnly C :=
  hr.induct h (fun h hg => h.safe hg) fun h hg hst => h.step hg hst

/-! ## Singletons only -/

/-- No thread has a transaction open. -/
structure SingletonOnly (C : Conf K V m) : Prop where
  inv : ∃ S, Inv C S
  closed : ∀ t, C.inTX t = false

omit [LinearOrder K] in
theorem SingletonOnly.not_live (h : ∀ t, C.inTX t = false) (t : ThreadId) :
    ¬ (C.sys.ctx t).Live := fun hl => by
  have := h t
  rw [Conf.inTX] at this
  have hT : (C.sys.threads t).transaction.TX = true := hl.1
  rw [this] at hT
  simp at hT

theorem SingletonOnly.safe {t : ThreadId} {op : Op K V m} (h : SingletonOnly C)
    (hG : SingletonClient C t op) : Safe C t op := by
  refine ⟨?_, fun l key val _ _ _ u hl => absurd hl (SingletonOnly.not_live h.closed u), ?_⟩
  · rintro rfl
    exact hG.elim
  · rintro rfl
    exact hG.elim

theorem SingletonOnly.step {t : ThreadId} {op : Op K V m} {ret : Ret V} (h : SingletonOnly C)
    (hG : SingletonClient C t op) (hst : C.Step t op ret C') : SingletonOnly C' := by
  obtain ⟨S, hInv⟩ := h.inv
  obtain ⟨-, -, -, hframe, -⟩ := hInv.step_act hst
  obtain ⟨c', D, F, W, hc', -, -, -, hInv'⟩ := hInv.step (h.safe hG) hst
  have hop : op.isAccess = true := by
    cases op <;> simp_all [SingletonClient, Op.isAccess]
  refine ⟨⟨_, hInv'⟩, fun u => ?_⟩
  by_cases hu : u = t
  · subst hu
    rcases hT : C'.inTX u with _ | _
    · rfl
    · have := (hframe.framed.access hop).2.2 hT
      exact absurd ((h.closed u).symm.trans this) (by simp)
  · rw [Conf.inTX, hframe.threads u hu]
    exact h.closed u

theorem SingletonOnly.init (minKey : K) (dflt : V) :
    SingletonOnly (Conf.init minKey dflt : Conf K V m) :=
  ⟨⟨_, Inv.init minKey dflt⟩, fun _ => rfl⟩

/-- Runs of singletons only are safe. -/
theorem SingletonClient.run_safe_from {C₀ : Conf K V m} (h : SingletonOnly C₀)
    (hr : C₀.Run SingletonClient C) : C₀.Run Safe C ∧ SingletonOnly C :=
  hr.induct h (fun h hg => h.safe hg) fun h hg hst => h.step hg hst

end Clients

end TxList
