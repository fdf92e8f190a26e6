import TxList.Proofs.Accounts
import TxList.Proofs.Scripts

/-!
# Runs of transactions are replays

In a run of transactions only, the lists hold the maps that the committed attempts give when they
are replayed in the order of their commits, and the calls of each committed attempt returned what
the replay gives for them.
-/

namespace TxList

open Prog Chain

variable {K V : Type} {m : Nat} [LinearOrder K]

/-- The invariant of runs of transactions. -/
structure Serial (C : Conf K V m) (S : ListId m → Finset NodeId) : Prop where
  inv : Inv C S
  lookup : ∀ l key, C.sys.shared.lookup l key = C.hist.maps l key
  replayed : C.hist.maps = Maps.empty.replay C.hist.committed.flatten
  sound : Maps.empty.All Rec.Sound C.hist.committed.flatten
  accounts : ∀ t, (C.sys.ctx t).Live → Accounts C.hist.maps S (C.hist.current t) (C.sys.ctx t)

section Acts

variable {S : ListId m → Finset NodeId} {c c' : Ctx K V m} {op : Op K V m} {ret : Ret V}
  {H : Hist K V m} {t : ThreadId}

/-- A change that touches no list leaves the maps. -/
theorem Mutates.lookup_eq {s s' : Shared K V m} (hL : Lists s S)
    (hM : Mutates s s' S (fun _ => ∅) (fun _ => ∅) ∅) (l : ListId m) (key : K) :
    s'.lookup l key = s.lookup l key := by
  have hL' : Lists s' S := by simpa only [patched_empty] using hM.lists
  refine hL'.lookup_eq ((hL.reads_lookup l key).congr (fun n => and_congr_right fun hn => ?_)
    fun n hn _ => (hM.same n (hL.bound l n hn).2 (by simp)).2.1)
  rw [hM.rank (hL.bound l n hn).2]

/-- The lists after a commit hold the replay of the transaction's calls. -/
theorem Accounts.lookup_committed {M : Maps K V m} {cur : List (Rec K V m)} (h : Accounts M S cur c)
    (hV : Viewed S cur c) (hL : Lists c.shared S) (hM : ∀ l key, c.shared.lookup l key = M l key)
    (hu : c.written.Updated c') (hL' : Lists c'.shared (c.storage.seen S)) (l : ListId m) (key : K) :
    c'.shared.lookup l key = M.replay cur l key := by
  refine hL'.lookup_eq ((h.view_all hV hL hM l key).congr (fun n => ?_) fun n hn _ => ?_)
  · rw [hu.rank, show c.written.shared.rank n = c.shared.rank n from commit_rank]
  · rw [hu.mem, Ctx.written, commit_val, (LocalStorage.mem_seen.1 hn).2]
    rfl

/-- A transaction that wrote nothing sees the lists as they are. -/
theorem Accounts.lookup_finished {M : Maps K V m} {cur : List (Rec K V m)} (h : Accounts M S cur c)
    (hV : Viewed S cur c) (hL : Lists c.shared S) (hM : ∀ l key, c.shared.lookup l key = M l key)
    (hro : c.transaction.readOnly = true) (l : ListId m) (key : K) :
    c.shared.lookup l key = M.replay cur l key := by
  obtain ⟨hw, hadd⟩ := hV.idle hro
  have hno : ∀ n, n ∉ c.storage.writeSet := fun n => by
    rw [hw]
    exact AList.notMem_empty n
  refine hL.lookup_eq ((h.view_all hV hL hM l key).congr (fun n => ?_) fun n _ _ =>
    (LocalStorage.valOf_of_notMem (hno n)).symm)
  simp [LocalStorage.mem_seen, hadd, LocalStorage.deletes_of_notMem (hno n)]

theorem Hist.step_maps (H : Hist K V m) {inTX : Bool} (hend : op = .txEnd → ret = .aborted)
    (hT : op.isAccess = true → inTX = true) : (H.step t inTX op ret).maps = H.maps := by
  by_cases hret : ret = .aborted
  · simp [Hist.step, hret]
  have haccess : op.isAccess = true → (H.step t inTX op ret).maps = H.maps := by
    intro hop
    rw [hT hop]
    rcases hr : Rec.of? op ret with _ | r <;> cases op <;> simp_all [Op.isAccess, Hist.step]
  cases op with
  | txBegin => simp [Hist.step]
  | txEnd => exact absurd (hend rfl) hret
  | handleAbort => simp [Hist.step]
  | put => exact haccess rfl
  | remove => exact haccess rfl
  | get => exact haccess rfl
  | containsKey => exact haccess rfl

/-- Only a committing `TXend` adds to the committed attempts. -/
theorem Hist.step_committed (H : Hist K V m) {inTX : Bool} (hend : op = .txEnd → ret = .aborted) :
    (H.step t inTX op ret).committed = H.committed := by
  by_cases hret : ret = .aborted
  · simp [Hist.step, hret]
  have haccess : op.isAccess = true → (H.step t inTX op ret).committed = H.committed := by
    intro hop
    rcases hr : Rec.of? op ret with _ | r <;> cases op <;> simp_all [Op.isAccess, Hist.step] <;>
      split_ifs <;> rfl
  cases op with
  | txBegin => simp [Hist.step]
  | txEnd => exact absurd (hend rfl) hret
  | handleAbort => simp [Hist.step]
  | put => exact haccess rfl
  | remove => exact haccess rfl
  | get => exact haccess rfl
  | containsKey => exact haccess rfl

theorem Hist.step_commit (H : Hist K V m) (inTX : Bool) (hret : ret ≠ .aborted) :
    (H.step t inTX .txEnd ret).maps = H.maps.replay (H.current t) ∧
      (H.step t inTX .txEnd ret).committed = H.committed ++ [H.current t] := by
  cases ret <;> simp_all [Hist.step]

/-- A transaction's step leaves the lists as the history has them. -/
theorem Act.lookup (h : Act S c op ret c') (hT : op.isAccess = true → c.transaction.TX = true)
    (hL : Lists c.shared S) (hs : Sane c) (hV : c.Live → Viewed S (H.current t) c)
    (hA : c.Live → Accounts H.maps S (H.current t) c)
    (hM : ∀ l key, c.shared.lookup l key = H.maps l key) (l : ListId m) (key : K) :
    c'.shared.lookup l key = (H.step t c.transaction.TX op ret).maps l key := by
  have hsame : (op = .txEnd → ret = .aborted) → c'.shared.lookup l key = c.shared.lookup l key →
      c'.shared.lookup l key = (H.step t c.transaction.TX op ret).maps l key := fun hend he => by
    rw [H.step_maps hend hT, he, hM]
  have hquiet : Quiet c.shared c'.shared → c'.shared.lookup l key = c.shared.lookup l key := fun hq =>
    (hL.mutates_of_quiet hs.heads hq).lookup_eq hL l key
  have hno : ∀ {P : Prop}, op.isAccess = true → c.transaction.TX = false → P := fun hop hF => by
    rw [hT hop] at hF
    simp at hF
  have hacc : op.isAccess = true → op = .txEnd → ret = .aborted := by
    rintro hop rfl
    simp [Op.isAccess] at hop
  cases h with
  | opened => exact hM l key
  | handled r => exact hsame (by simp) (hquiet ⟨le_rfl, fun _ _ => rfl, fun _ => .inl rfl, rfl⟩)
  | rejected => exact hM l key
  | cleared => exact hsame (fun _ => rfl) ((hL.clearMark_mutates hs.heads _).lookup_eq hL l key)
  | finished hl hro => exact (hA hl).lookup_finished (hV hl) hL hM hro l key
  | committed hl _ hu hMt => exact (hA hl).lookup_committed (hV hl) hL hM hu hMt.lists l key
  | thrown hop _ ht => exact hsame (hacc hop) (hquiet ht.quiet)
  | strayed hop _ _ hq => exact hsame (hacc hop) (hquiet hq.quiet)
  | overwrote => exact hsame (by simp) rfl
  | inserted _ _ _ hx => exact hsame (by simp) (hquiet (.alloc _ (by rw [hx])))
  | unlinked => exact hsame (by simp) rfl
  | missed => exact hsame (by simp) rfl
  | read => exact hsame (by simp) rfl
  | contained => exact hsame (by simp) rfl
  | stamped hF => exact hno rfl hF
  | linked hF => exact hno rfl hF
  | cut hF => exact hno rfl hF
  | absent hF => exact hno rfl hF
  | gotten hF => exact hno rfl hF
  | checked hF => exact hno rfl hF

/-- A transaction's own step, if it is live after. -/
theorem Act.accounts (h : Act S c op ret c') (hlive : c'.Live)
    (hback : op.isAccess = true → c.Live) (hL : Lists c.shared S) (hs : Sane c)
    (hV : c.Live → Viewed S (H.current t) c) (hA : c.Live → Accounts H.maps S (H.current t) c)
    (hM : ∀ l key, c.shared.lookup l key = H.maps l key) :
    Accounts (H.step t c.transaction.TX op ret).maps S
      ((H.step t c.transaction.TX op ret).current t) c' := by
  have hclosed : ∀ {P : Prop}, c'.transaction.TX = false → P := fun hF => by
    rw [hlive.1] at hF
    simp at hF
  cases h with
  | opened =>
    simp only [Hist.step, Function.update_self]
    exact .empty _ _ _
  | handled => exact hclosed rfl
  | rejected => exact hclosed rfl
  | cleared => exact hclosed rfl
  | finished => exact hclosed rfl
  | committed => exact hclosed rfl
  | thrown _ _ ht => exact hclosed ht.closed
  | strayed hop _ hno => exact (hno (hback hop)).elim
  | overwrote hl hx hk =>
    simp only [Hist.step, Rec.of?, hl.1, if_true, Function.update_self]
    exact (hA hl).overwrite (hV hl) hL hs hM hx hk
  | inserted hl hp habs hy =>
    simp only [Hist.step, Rec.of?, hl.1, if_true, Function.update_self]
    exact (hA hl).insertAfter (hV hl) hL hs hM hp habs hy
  | unlinked hl hx hk hp =>
    simp only [Hist.step, Rec.of?, hl.1, if_true, Function.update_self]
    exact (hA hl).unlink (hV hl) hL hs hM hx hk hp
  | missed hl hp habs =>
    simp only [Hist.step, Rec.of?, hl.1, if_true, Function.update_self]
    exact (hA hl).missed (hV hl) hL hs hM hp habs
  | @read l key p o hl hp hr =>
    simp only [Hist.step, Rec.of?, hl.1, if_true, Function.update_self]
    refine (hA hl).read (hV hl) hL hs hp rfl rfl rfl ?_
    rw [hr.unique ((hV hl).overlay.threads l).inj ((hA hl).view_all (hV hl) hL hM l key)]
    rfl
  | @contained l key p o hl hp hr =>
    simp only [Hist.step, Rec.of?, hl.1, if_true, Function.update_self]
    refine (hA hl).read (hV hl) hL hs hp rfl rfl rfl ?_
    rw [hr.unique ((hV hl).overlay.threads l).inj ((hA hl).view_all (hV hl) hL hM l key)]
    rfl
  | stamped hF => exact hclosed hF
  | linked hF => exact hclosed hF
  | cut hF => exact hclosed hF
  | absent hF => exact hclosed hF
  | gotten hF => exact hclosed hF
  | checked hF => exact hclosed hF

end Acts

section Runs

variable {C C' : Conf K V m} {S D F : ListId m → Finset NodeId} {W : Set NodeId} {t u : ThreadId}
  {op : Op K V m} {ret : Ret V} {c' : Ctx K V m} {minKey : K} {dflt : V}

/-- A transaction's step writes to nothing that another transaction, live after it, has read. -/
theorem Change.reads_off (hC : Change S (C.sys.ctx t) c' op D F W) (hs : C.sys.Sane)
    (hT : op.isAccess = true → C.inTX t = true)
    (hlive : ({ C.sys.ctx u with shared := c'.shared } : Ctx K V m).Live) :
    ∀ n ∈ (C.sys.threads u).storage.readSet, n ∉ W := by
  intro n hn hW
  rcases hC.marks n hW with ⟨l, key, val, rfl, hF, -, -⟩ | hmark
  · have hF' : C.inTX t = false := hF
    rw [hT rfl] at hF'
    simp at hF'
  · exact hlive.2 n hn (hmark _ (hs u).readVersion)

/-- What a transaction's act leaves of the invariant. -/
theorem Serial.acted (h : Serial C S) (hG : Safe C t op) (hTX : op.isAccess = true → C.inTX t = true)
    (hc' : C'.sys = C.sys.put t c') (hact : Act S (C.sys.ctx t) op ret c')
    (hframe : StepFramed C.sys C'.sys t op ret) (hhist : C'.hist = C.hist.step t (C.inTX t) op ret) :
    ∃ D F W, Change S (C.sys.ctx t) c' op D F W ∧ Serial C' fun l => patched (S l) (D l) (F l) := by
  obtain ⟨D, F, W, hC, hlive, hInv⟩ := h.inv.acted hG hc' hact hframe hhist
  have hshared : C'.sys.shared = c'.shared := by rw [hc']; rfl
  have hlook : ∀ l key, C'.sys.shared.lookup l key = C'.hist.maps l key := fun l key => by
    rw [hshared, hhist]
    exact hact.lookup hTX h.inv.lists (h.inv.sane t) (h.inv.viewed t) (h.accounts t) h.lookup l key
  have hlog : C'.hist.maps = Maps.empty.replay C'.hist.committed.flatten ∧
      Maps.empty.All Rec.Sound C'.hist.committed.flatten := by
    rw [hhist]
    by_cases hend : op = .txEnd → ret = .aborted
    · rw [Hist.step_committed _ hend, Hist.step_maps _ hend hTX]
      exact ⟨h.replayed, h.sound⟩
    · push Not at hend
      obtain ⟨rfl, hret⟩ := hend
      obtain ⟨hmaps, hcom⟩ := Hist.step_commit (t := t) C.hist (C.inTX t) hret
      have hl : (C.sys.ctx t).Live := hframe.valid rfl hret
      rw [hmaps, hcom, List.flatten_append, List.flatten_singleton, Maps.replay_append, ← h.replayed]
      refine ⟨rfl, Maps.All_append.2 ⟨h.sound, ?_⟩⟩
      rw [← h.replayed]
      exact (h.accounts t hl).sound
  refine ⟨D, F, W, hC, hInv, hlook, hlog.1, hlog.2, fun u hl => ?_⟩
  by_cases hu : u = t
  · subst hu
    have hctx : C'.sys.ctx u = c' := by rw [hc', Sys.ctx_put_self]
    have hback : op.isAccess = true → (C.sys.ctx u).Live := fun hop =>
      hframe.own_live h.inv.sane hop hl
    rw [hctx] at hl ⊢
    obtain ⟨hL, -, -⟩ := hact.viewed (t := u) (H := C.hist) h.inv.lists (h.inv.sane u) hl hback
      (h.inv.viewed u) (hG.1 ·)
    have hS : (fun l => patched (S l) (D l) (F l)) = S := hL.unique (hshared ▸ hInv.lists)
    rw [hS, hhist]
    exact hact.accounts hl hback h.inv.lists (h.inv.sane u) (h.inv.viewed u) (h.accounts u) h.lookup
  · have hl₀ := hlive u hu hl
    have hcur : C'.hist.current u = C.hist.current u := by
      rw [hhist]
      exact Hist.step_current_ne _ hu
    have hctxu : C'.sys.ctx u = { C.sys.ctx u with shared := c'.shared } := by
      rw [hc', Sys.ctx_put_ne _ _ hu]
    rw [hctxu] at hl ⊢
    rw [hcur]
    refine (h.accounts u hl₀).mutate h.inv.lists (h.inv.sane u) hC.mutates
      (hC.reads_off h.inv.sane hTX hl) (h.inv.viewed u hl₀) (hC.adds_off h.inv hu hl₀) h.lookup ?_
    rwa [← hshared]

theorem Serial.step (h : Serial C S) (hO : TxOnly C) (hG : TxClient C t op)
    (hst : C.Step t op ret C') : ∃ S', Serial C' S' := by
  obtain ⟨c', hc', hact, hframe, hhist⟩ := h.inv.step_act hst
  obtain ⟨D, F, W, -, h'⟩ := h.acted (hO.safe hG) (TxClient.access hG) hc' hact hframe hhist
  exact ⟨_, h'⟩

theorem Serial.init (minKey : K) (dflt : V) :
    Serial (Conf.init minKey dflt : Conf K V m) fun _ => ∅ := by
  refine ⟨Inv.init minKey dflt, fun l key => ?_, rfl, trivial, fun t hl => ?_⟩
  · exact (Inv.init minKey dflt).lists.lookup_eq (o := none) fun n hn => by simp at hn
  · exact absurd hl.1 (by simp [Conf.init, Sys.init, Sys.ctx])

theorem Serial.of_reach (hr : Conf.Reach minKey dflt TxClient C) : TxOnly C ∧ ∃ S, Serial C S := by
  induction hr with
  | refl => exact ⟨TxOnly.init minKey dflt, _, Serial.init minKey dflt⟩
  | step _ hg hst ih =>
    obtain ⟨hO, S, h⟩ := ih
    exact ⟨hO.step hg hst, h.step hO hg hst⟩

/-- What a committed attempt's updates returned: `remove` the value that the replay gives, and
`put` nothing exactly when the key is not there in the replay. -/
def Rec.UpdateReplays (o : Option V) : Rec K V m → Prop
  | .put _ _ _ ret => ret = none ↔ o = none
  | .remove _ _ ret => ret = o
  | .get _ _ _ | .containsKey _ _ _ => True

/-- In every state that transactions reach, the lists hold the replay of the committed attempts in
the order of their commits on empty maps, and the updates returned what the replay gives. -/
theorem lookup_eq_replay (hr : Conf.Reach minKey dflt TxClient C) :
    (∀ l key, C.sys.shared.lookup l key = Maps.empty.replay C.hist.committed.flatten l key) ∧
      Maps.empty.All Rec.UpdateReplays C.hist.committed.flatten := by
  obtain ⟨-, S, h⟩ := Serial.of_reach hr
  refine ⟨fun l key => by rw [h.lookup, h.replayed], h.sound.mono fun o r hs => ?_⟩
  cases r with
  | put l key val ret =>
    have hs : ret.isSome = o.isSome := hs
    rw [Rec.UpdateReplays, ← Option.isNone_iff_eq_none, ← Option.isNone_iff_eq_none,
      ← Option.not_isSome, ← Option.not_isSome, hs]
  | remove => exact hs
  | get => trivial
  | containsKey => trivial

theorem lookup_eq_replay_two_commits : ∃ C : Conf Nat Nat 1, Conf.Reach 0 0 TxClient C ∧
    C.hist.committed.length = 2 ∧
    (∀ l key, C.sys.shared.lookup l key = Maps.empty.replay C.hist.committed.flatten l key) ∧
      Maps.empty.All Rec.UpdateReplays C.hist.committed.flatten := by
  obtain ⟨C, hr, -, hp⟩ := Conf.exists_reach_of_decidable (G := TxClient) 0 0 2
    [(0, .txBegin), (0, .put 0 5 3), (1, .txBegin), (1, .put 0 7 4), (0, .txEnd), (1, .txEnd),
      (1, .handleAbort), (1, .txBegin), (1, .remove 0 5), (1, .txEnd)]
    (fun C : Conf Nat Nat 1 => decide (C.hist.committed.length = 2)) (by decide +kernel)
  exact ⟨C, hr, of_decide_eq_true hp, lookup_eq_replay hr⟩

end Runs

end TxList
