import TxList.Proofs.Serial

/-!
# Reads at commit

`get` puts only the predecessor of the node it reads into the read set, where an overwriting `put`
and a `remove` put the node itself. So a commit that overwrites the node's value goes unnoticed by
a transaction that has only read it, and two transactions that each read what the other overwrites
both commit. Where no commit does that, every read of a committed transaction is valid when it
commits; whether a key is there always is.
-/

namespace TxList

open Prog Chain

variable {K V : Type} {m : Nat} [LinearOrder K]

/-- The call was a read and returned what the replay gives. -/
def Rec.ReadReplays (o : Option V) : Rec K V m → Prop
  | .get _ _ ret => ret = o
  | .containsKey _ _ ret => ret = o.isSome
  | .put _ _ _ _ | .remove _ _ _ => True

instance [DecidableEq V] (o : Option V) (r : Rec K V m) : Decidable (r.ReadReplays o) :=
  match r with
  | .get _ _ ret => inferInstanceAs (Decidable (ret = o))
  | .containsKey _ _ ret => inferInstanceAs (Decidable (ret = o.isSome))
  | .put _ _ _ _ | .remove _ _ _ => inferInstanceAs (Decidable True)

instance Maps.decidableAll {P : Option V → Rec K V m → Prop} [∀ o r, Decidable (P o r)] :
    ∀ (M : Maps K V m) (cur : List (Rec K V m)), Decidable (M.All P cur)
  | _, [] => isTrue trivial
  | M, r :: cur =>
    have := Maps.decidableAll (P := P) (M.apply r) cur
    inferInstanceAs (Decidable (_ ∧ _))

/-- No commit gives a new value to a node whose value another open transaction has got without
having the node in its read set. -/
def ReadSafe : Conf.Guard K V m := fun C t op =>
  op = .txEnd → (C.sys.ctx t).Live → ∀ u, u ≠ t → C.inTX u = true → ∀ l key v,
    Rec.get l key (some v) ∈ C.hist.current u → ∀ n ∈ C.sys.shared.chain l,
    (C.sys.shared.mem n).key = key → n ∈ (C.sys.threads t).storage.writeSet →
    (C.sys.threads t).storage.deletes n = false → n ∉ (C.sys.threads u).storage.readSet →
    (C.sys.threads t).storage.valOf C.sys.shared.mem n = (C.sys.shared.mem n).val

section Acts

variable {S : ListId m → Finset NodeId} {c c' : Ctx K V m} {op : Op K V m} {ret : Ret V}

/-- A transaction's step gives a node a new value only when it commits. -/
theorem Act.val_eq_or (h : Act S c op ret c') (hT : op.isAccess = true → c.transaction.TX = true)
    {n : NodeId} (hn : n < c.shared.fresh) : (c'.shared.mem n).val = (c.shared.mem n).val ∨
      op = .txEnd ∧ c.Live ∧ n ∈ c.storage.writeSet ∧ (c'.shared.mem n).val =
        if c.storage.deletes n then none else c.storage.valOf c.shared.mem n := by
  have hquiet : Quiet c.shared c'.shared → (c'.shared.mem n).val = (c.shared.mem n).val :=
    fun hq => by rw [hq.mem n hn]
  have hno : ∀ {P : Prop}, op.isAccess = true → c.transaction.TX = false → P := fun hop hF => by
    rw [hT hop] at hF
    simp at hF
  cases h with
  | opened => exact .inl rfl
  | handled => exact .inl rfl
  | rejected => exact .inl rfl
  | @cleared k _ _ =>
    refine .inl ?_
    by_cases hk : n = k
    · subst hk
      simp [Ctx.cleaned, Shared.clearMark, LNode.setSingleton]
    · simp [Ctx.cleaned, Shared.clearMark, hk]
  | finished => exact .inl rfl
  | committed hl _ hu _ =>
    by_cases hw : n ∈ c.storage.writeSet
    · refine .inr ⟨rfl, hl, hw, ?_⟩
      rw [Ctx.cleaned, hu.mem]
      exact commit_val
    · refine .inl ?_
      rw [Ctx.cleaned, hu.mem, Ctx.written, Shared.commit_mem_of_notMem _ hw]
  | thrown _ _ ht => exact .inl (hquiet ht.quiet)
  | strayed _ _ _ hq => exact .inl (hquiet hq.quiet)
  | overwrote => exact .inl rfl
  | inserted _ _ _ hx => exact .inl (hquiet (.alloc _ (by rw [hx])))
  | unlinked => exact .inl rfl
  | missed => exact .inl rfl
  | read => exact .inl rfl
  | contained => exact .inl rfl
  | stamped hF => exact hno rfl hF
  | linked hF => exact hno rfl hF
  | cut hF => exact hno rfl hF
  | absent hF => exact hno rfl hF
  | gotten hF => exact hno rfl hF
  | checked hF => exact hno rfl hF

/-- A read is valid when it is made. -/
theorem Act.read_replays {H : Hist K V m} {t : ThreadId} (h : Act S c op ret c') (hlive : c'.Live)
    (hback : op.isAccess = true → c.Live) (hL : Lists c.shared S)
    (hV : c.Live → Viewed S (H.current t) c) (hA : c.Live → Accounts H.maps S (H.current t) c)
    (hM : ∀ l key, c.shared.lookup l key = H.maps l key)
    (hE : c.Live → H.maps.All Rec.ReadReplays (H.current t)) :
    (H.step t c.transaction.TX op ret).maps.All Rec.ReadReplays
      ((H.step t c.transaction.TX op ret).current t) := by
  have hclosed : ∀ {P : Prop}, c'.transaction.TX = false → P := fun hF => by
    rw [hlive.1] at hF
    simp at hF
  cases h with
  | opened =>
    simp only [Hist.step, Function.update_self]
    trivial
  | handled => exact hclosed rfl
  | rejected => exact hclosed rfl
  | cleared => exact hclosed rfl
  | finished => exact hclosed rfl
  | committed => exact hclosed rfl
  | thrown _ _ ht => exact hclosed ht.closed
  | strayed hop _ hno => exact (hno (hback hop)).elim
  | overwrote hl | inserted hl | unlinked hl | missed hl =>
    simp only [Hist.step, Rec.of?, hl.1, if_true, Function.update_self]
    exact Maps.All_append.2 ⟨hE hl, trivial, trivial⟩
  | @read l key p o hl hp hr =>
    simp only [Hist.step, Rec.of?, hl.1, if_true, Function.update_self]
    refine Maps.All_append.2 ⟨hE hl, ?_, trivial⟩
    exact hr.unique ((hV hl).overlay.threads l).inj ((hA hl).view_all (hV hl) hL hM l key)
  | @contained l key p o hl hp hr =>
    simp only [Hist.step, Rec.of?, hl.1, if_true, Function.update_self]
    refine Maps.All_append.2 ⟨hE hl, ?_, trivial⟩
    have ho := hr.unique ((hV hl).overlay.threads l).inj ((hA hl).view_all (hV hl) hL hM l key)
    show o.isSome = (H.maps.replay (H.current t) l key).isSome
    rw [ho]
  | stamped hF => exact hclosed hF
  | linked hF => exact hclosed hF
  | cut hF => exact hclosed hF
  | absent hF => exact hclosed hF
  | gotten hF => exact hclosed hF
  | checked hF => exact hclosed hF

end Acts

section Runs

variable {C C' : Conf K V m} {S : ListId m → Finset NodeId} {t u : ThreadId} {op : Op K V m}
  {ret : Ret V} {minKey : K} {dflt : V}

/-- Every read of a live transaction is valid as things stand. -/
def ReadsValid (C : Conf K V m) : Prop :=
  ∀ t, (C.sys.ctx t).Live → C.hist.maps.All Rec.ReadReplays (C.hist.current t)

theorem ReadsValid.step (hR : ReadsValid C) (h : Serial C S) (hO : TxOnly C) (hG : TxClient C t op)
    (hS : ReadSafe C t op) (hst : C.Step t op ret C') (h' : ∃ S', Serial C' S') : ReadsValid C' := by
  obtain ⟨-, -, -, hframe, hhist⟩ := h.inv.step_act hst
  obtain ⟨c', D, F, W, hc', hact, hC, hlive, hInv⟩ := h.inv.step (hO.safe hG) hst
  obtain ⟨S', hS'⟩ := h'
  have hTX : op.isAccess = true → (C.sys.ctx t).transaction.TX = true := TxClient.access hG
  have hshared : C'.sys.shared = c'.shared := by rw [hc']; rfl
  intro u hl
  by_cases hu : u = t
  · subst hu
    have hctx : C'.sys.ctx u = c' := by rw [hc', Sys.ctx_put_self]
    have hback : op.isAccess = true → (C.sys.ctx u).Live := fun hop =>
      hframe.own_live h.inv.sane hop hl
    rw [hctx] at hl
    rw [hhist]
    exact hact.read_replays hl hback h.inv.lists (h.inv.viewed u) (h.accounts u) h.lookup (hR u)
  · have hl₀ := hlive u hu hl
    have hcur : C'.hist.current u = C.hist.current u := by
      rw [hhist]
      exact Hist.step_current_ne _ hu
    have hctxu : C'.sys.ctx u = { C.sys.ctx u with shared := c'.shared } := by
      rw [hc', Sys.ctx_put_ne _ _ hu]
    rw [hctxu] at hl
    rw [hcur]
    have hoff := hC.reads_off h.inv.sane hTX hl
    refine (hR u hl₀).rebase fun r hr => ?_
    have hg := (h.accounts u hl₀).guarded r hr
    rw [← h.lookup, ← hS'.lookup, hshared]
    have hsome := hg.lookup_isSome h.inv.lists (h.inv.sane u) hC.mutates hoff
    cases r with
    | put => exact fun _ => trivial
    | remove => exact fun _ => trivial
    | containsKey => exact fun hr => hr.trans hsome.symm
    | get l key got =>
      intro hgot
      have hgot : got = C.sys.shared.lookup l key := hgot
      show got = c'.shared.lookup l key
      rcases got with _ | v
      · have hsome' : (c'.shared.lookup l key).isSome = (C.sys.shared.lookup l key).isSome := hsome
        rw [← hgot] at hsome'
        exact (by simpa using hsome'.symm : c'.shared.lookup l key = none).symm
      · refine hgot.trans (Eq.symm ?_)
        refine hg.lookup_eq h.inv.lists (h.inv.sane u) hC.mutates hoff fun n hn hk => ?_
        have hn' : n ∈ patched (S l) (D l) (F l) := by
          refine (hg.mem_iff h.inv.lists (h.inv.sane u) hC.mutates hoff ?_).2 hn
          exact (hC.mutates.rank_node h.inv.lists hn).trans hk
        have hlt := (h.inv.lists.bound l n hn).2
        by_cases hread : n ∈ (C.sys.threads u).storage.readSet
        · exact (hC.mutates.same n hlt (hoff n hread)).2.1
        rcases hact.val_eq_or hTX hlt with hv | ⟨rfl, hlt, hw, hv⟩
        · exact hv
        -- the node is still on the list, so the commit did not delete it
        have hsomev := (hC.mutates.lists.live l n (Finset.mem_insert_of_mem hn')).1
        have hd : (C.sys.ctx t).storage.deletes n = false := by
          rcases hd : (C.sys.ctx t).storage.deletes n with _ | _
          · rfl
          · simp [hv, hd] at hsomev
        have hkey : (C.sys.shared.mem n).key = key :=
          WithBot.coe_inj.1 ((h.inv.lists.rank_mem hn).symm.trans hk)
        rw [hv, hd]
        exact hS rfl hlt u hu hl₀.1 l key v hr n (((h.inv.lists.chain_spec l).2.1 n).2 hn) hkey hw hd
          hread

/-- The steps of transactions whose commits overwrite nothing that was only read. -/
def ReadSafeTx : Conf.Guard K V m := fun C t op => TxClient C t op ∧ ReadSafe C t op

theorem ReadsValid.of_reach (hr : Conf.Reach minKey dflt ReadSafeTx C) :
    ReadsValid C ∧ TxOnly C ∧ ∃ S, Serial C S := by
  induction hr with
  | refl =>
    refine ⟨fun t hl => ?_, TxOnly.init minKey dflt, _, Serial.init minKey dflt⟩
    exact absurd hl.1 (by simp [Conf.init, Sys.init, Sys.ctx])
  | step _ hg hst ih =>
    obtain ⟨hR, hO, S, h⟩ := ih
    have h' := h.step hO hg.1 hst
    exact ⟨hR.step h hO hg.1 hg.2 hst h', hO.step hg.1 hst, h'⟩

/-- In runs whose commits overwrite nothing that another open transaction has only read, every read
of a transaction that commits is valid in the lists as they are right before its `TXend`, with its
own earlier updates replayed on them. -/
theorem committed_reads_valid (hr : Conf.Reach minKey dflt ReadSafeTx C)
    (hst : C.Step t .txEnd (.bool true) C') :
    Maps.All Rec.ReadReplays (fun l key => C.sys.shared.lookup l key) (C.hist.current t) := by
  obtain ⟨hR, -, S, h⟩ := ReadsValid.of_reach hr
  obtain ⟨-, -, -, hframe, -⟩ := h.inv.step_act hst
  have hl : (C.sys.ctx t).Live := hframe.valid rfl (by simp)
  have hmaps : (fun l key => C.sys.shared.lookup l key) = C.hist.maps := by
    funext l key
    exact h.lookup l key
  rw [hmaps]
  exact hR t hl

theorem committed_reads_valid_get : ∃ C C' : Conf Nat Nat 1, Conf.Reach 0 0 ReadSafeTx C ∧
    C.Step 1 .txEnd (.bool true) C' ∧ C.hist.current 1 = [.get 0 5 (some 3)] ∧
    Maps.All Rec.ReadReplays (fun l key => C.sys.shared.lookup l key) (C.hist.current 1) := by
  have hG : ∀ (C : Conf Nat Nat 1) t op, C.Idle 2 →
      (decide (TxClient C t op) && (decide (op ≠ .txEnd) || C.alone 2 t)) = true →
      ReadSafeTx C t op := by
    intro C t op hI hg
    simp only [Bool.and_eq_true, Bool.or_eq_true, decide_eq_true_eq] at hg
    refine ⟨hg.1, fun hop _ u hu hT => ?_⟩
    rw [hI.closed_of_alone (hg.2.resolve_left fun h => h hop) hu] at hT
    simp at hT
  obtain ⟨C, hr, -, hp⟩ := Conf.exists_reach 0 0
    [(0, .txBegin), (0, .put 0 5 3), (0, .txEnd), (1, .txBegin), (1, .get 0 5)]
    (fun C : Conf Nat Nat 1 => decide (C.hist.current 1 = [.get 0 5 (some 3)]) &&
      C.returns 1 .txEnd (.bool true)) hG (by decide +kernel)
  rw [Bool.and_eq_true, decide_eq_true_eq] at hp
  obtain ⟨C', hst⟩ := Conf.step_of_returns hp.2
  exact ⟨C, C', hr, hst, hp.1, committed_reads_valid hr hst⟩

/-- Two transactions each overwrite what the other one has got, and both commit: the second one's
read is not valid any more. -/
theorem stale_get_commits : ¬ ∀ (C C' : Conf Nat Nat 1) (t : ThreadId),
    Conf.Reach 0 0 TxClient C → C.Step t .txEnd (.bool true) C' →
    Maps.All Rec.ReadReplays (fun l key => C.sys.shared.lookup l key) (C.hist.current t) := by
  intro h
  obtain ⟨C, hr, -, hp⟩ := Conf.exists_reach_of_decidable (G := TxClient) 0 0 2
    [(1, .txBegin), (1, .put 0 5 3), (1, .put 0 7 3), (1, .txEnd), (0, .txBegin), (1, .txBegin),
      (0, .get 0 5), (1, .get 0 7), (0, .put 0 7 70), (1, .put 0 5 50), (0, .txEnd)]
    (fun C : Conf Nat Nat 1 => C.returns 1 .txEnd (.bool true) &&
      !decide (Maps.All Rec.ReadReplays (fun l key => C.sys.shared.lookup l key) (C.hist.current 1)))
    (by decide +kernel)
  rw [Bool.and_eq_true, Bool.not_eq_true', decide_eq_false_iff_not] at hp
  obtain ⟨C', hst⟩ := Conf.step_of_returns hp.1
  exact hp.2 (h C C' 1 hr hst)

end Runs

end TxList
