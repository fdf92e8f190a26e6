import TxList.Proofs.ReadValidity
import TxList.Proofs.FiniteMap

/-!
# Transactions and singletons together

A singleton's insertion is the one change that an open transaction may not notice, because it leaves
the node it writes to without a stamp, and an aborting `TXend` may clear the mark another transaction
depends on. In runs where neither happens to what a transaction has read, transactions and singletons
are atomic together: a singleton at its call, a transaction at its `TXend`.
-/

namespace TxList

open Prog Chain

variable {K V : Type} {m : Nat} [LinearOrder K]

/-- A singleton `put` that inserts does so after no node that a live transaction has read. -/
def GapUnread : Conf.Guard K V m := fun C t op =>
  ∀ l key val, op = .put l key val → C.inTX t = false → C.sys.shared.lookup l key = none →
    ∀ u, (C.sys.ctx u).Live → C.sys.shared.below l key ∉ (C.sys.threads u).storage.readSet

/-- What changes a node a transaction has read leaves a mark on it. -/
def Observed : Conf.Guard K V m := fun C t op => FreshStart C t op ∧ GapUnread C t op ∧ MarkSafe C t op

section Runs

variable {C C' : Conf K V m} {S D F : ListId m → Finset NodeId} {W : Set NodeId} {t u : ThreadId}
  {op : Op K V m} {ret : Ret V} {c' : Ctx K V m} {minKey : K} {dflt : V}

theorem Observed.safe (hG : Observed C t op) (hs : C.sys.Sane) : Safe C t op := by
  obtain ⟨hstart, hgap, hmark⟩ := hG
  exact ⟨hstart, fun l key val hop hF hnone u hl hw =>
    hgap l key val hop hF hnone u hl ((hs u).write_read _ hw), hmark⟩

/-- The lists hold the maps of the history, and every live transaction's calls returned what they
give. -/
structure Atomic (C : Conf K V m) (S : ListId m → Finset NodeId) : Prop where
  inv : Inv C S
  lookup : C.sys.shared.lookup = C.hist.maps
  accounts : ∀ t, (C.sys.ctx t).Live → Accounts C.hist.maps S (C.hist.current t) (C.sys.ctx t)

/-- Another thread's step writes to nothing that a transaction still live after it has read. -/
theorem Change.reads_apart (hC : Change S (C.sys.ctx t) c' op D F W) (h : Inv C S)
    (hG : GapUnread C t op) (hlive : ({ C.sys.ctx u with shared := c'.shared } : Ctx K V m).Live)
    (hlive₀ : (C.sys.ctx u).Live) : ∀ n ∈ (C.sys.threads u).storage.readSet, n ∉ W := by
  intro n hn hW
  rcases hC.marks n hW with ⟨l, key, val, hop, hF, habs, hp⟩ | hmark
  · refine hG l key val hop hF (h.lists.lookup_of_absent habs) u hlive₀ ?_
    rwa [← IsPrev.unique (h.lists.threads l).toRanked hp (h.lists.below_isPrev l key)]
  · exact hlive.2 n hn (hmark _ (h.sane u).readVersion)

omit [LinearOrder K] in
/-- A thread that is live after a list operation of its own has made it in a transaction. -/
theorem StepFramed.in_transaction (h : StepFramed C.sys C'.sys t op ret) (hop : op.isAccess = true)
    (hl : (C'.sys.ctx t).Live) : C.inTX t = true := (h.framed.access hop).2.2 hl.1

theorem Atomic.step_lookup (h : Atomic C S) (hst : C.Step t op ret C') :
    C'.sys.shared.lookup = C'.hist.maps := by
  obtain ⟨c', hc', hact, -, hhist⟩ := h.inv.step_act hst
  have hshared : C'.sys.shared = c'.shared := by rw [hc']; rfl
  by_cases hx : op.isAccess = true ∧ C.inTX t = false
  · obtain ⟨hop, hF⟩ := hx
    have hret : ret = Maps.answer C.sys.shared.lookup op := hact.answer h.inv.lists hop hF
    rw [h.inv.lookup_after hst hop hF, hhist, hF, hret, Hist.maps_after _ _ hop, h.lookup]
  · have hTX : op.isAccess = true → (C.sys.ctx t).transaction.TX = true := fun hop => by
      rcases hT : C.inTX t with _ | _
      · exact absurd ⟨hop, hT⟩ hx
      · exact hT
    funext l key
    rw [hshared, hhist]
    exact hact.lookup hTX h.inv.lists (h.inv.sane t) (h.inv.viewed t) (h.accounts t)
      (fun l key => congrFun (congrFun h.lookup l) key) l key

theorem Atomic.step (h : Atomic C S) (hG : Observed C t op) (hst : C.Step t op ret C') :
    ∃ S', Atomic C' S' := by
  obtain ⟨-, -, -, hframe, hhist⟩ := h.inv.step_act hst
  obtain ⟨c', D, F, W, hc', hact, hC, hlive, hInv⟩ := h.inv.step (hG.safe h.inv.sane) hst
  have hshared : C'.sys.shared = c'.shared := by rw [hc']; rfl
  have hlook : ∀ l key, C.sys.shared.lookup l key = C.hist.maps l key := fun l key =>
    congrFun (congrFun h.lookup l) key
  have hlook' := h.step_lookup hst
  refine ⟨_, hInv, hlook', fun u hl => ?_⟩
  by_cases hu : u = t
  · subst hu
    have hctx : C'.sys.ctx u = c' := by rw [hc', Sys.ctx_put_self]
    have hTX : op.isAccess = true → C.inTX u = true := fun hop => hframe.in_transaction hop hl
    have hback : op.isAccess = true → (C.sys.ctx u).Live := fun hop =>
      hframe.own_live h.inv.sane hop hl
    rw [hctx] at hl ⊢
    obtain ⟨hL, -, -⟩ := hact.viewed (t := u) (H := C.hist) h.inv.lists (h.inv.sane u) hl hback
      (h.inv.viewed u) (hG.1 ·)
    have hS : (fun l => patched (S l) (D l) (F l)) = S := hL.unique (hshared ▸ hInv.lists)
    rw [hS, hhist]
    exact hact.accounts hl hback h.inv.lists (h.inv.sane u) (h.inv.viewed u) (h.accounts u) hlook
  · have hl₀ := hlive u hu hl
    have hcur : C'.hist.current u = C.hist.current u := by
      rw [hhist]
      exact Hist.step_current_ne _ hu
    have hctxu : C'.sys.ctx u = { C.sys.ctx u with shared := c'.shared } := by
      rw [hc', Sys.ctx_put_ne _ _ hu]
    rw [hctxu] at hl ⊢
    rw [hcur]
    refine (h.accounts u hl₀).mutate h.inv.lists (h.inv.sane u) hC.mutates
      (hC.reads_apart h.inv hG.2.1 hl hl₀) (h.inv.viewed u hl₀) (hC.adds_off h.inv hu hl₀) hlook
      fun l key => ?_
    rw [← hshared, hlook']

theorem Atomic.of_reach (hr : Conf.Reach minKey dflt Observed C) : ∃ S, Atomic C S := by
  refine hr.keeps (J := fun C => ∃ S, Atomic C S) ⟨fun _ => ∅, Inv.init minKey dflt, ?_, ?_⟩
    fun ⟨S, h⟩ hG hst => h.step hG hst
  · funext l key
    exact (Inv.init minKey dflt).lists.lookup_of_absent fun n hn => by simp at hn
  · intro t hl
    exact absurd hl.1 (by simp [Conf.init, Sys.init, Sys.ctx])

end Runs

/-! ## The values read -/

/-- No step gives a new value to a node whose value another open transaction has got without having
the node in its read set. -/
def ValueKept : Conf.Guard K V m := fun C t op =>
  ∀ u, u ≠ t → C.inTX u = true → ∀ l key v, Rec.get l key (some v) ∈ C.hist.current u →
    ∀ n ∈ C.sys.shared.chain l, (C.sys.shared.mem n).key = key →
    n ∉ (C.sys.threads u).storage.readSet →
    (op = .txEnd → (C.sys.ctx t).Live → n ∈ (C.sys.threads t).storage.writeSet →
      (C.sys.threads t).storage.deletes n = false →
      (C.sys.threads t).storage.valOf C.sys.shared.mem n = (C.sys.shared.mem n).val) ∧
    ∀ val, op = .put l key val → C.inTX t = false → (C.sys.shared.mem n).val = some val

/-- The guard of atomic runs. -/
def Atomically : Conf.Guard K V m := fun C t op => Observed C t op ∧ ValueKept C t op

section Values

variable {C C' : Conf K V m} {S : ListId m → Finset NodeId} {t u : ThreadId} {op : Op K V m}
  {ret : Ret V} {c c' : Ctx K V m} {minKey : K} {dflt : V}

/-- A node gets another value by a commit or by a singleton's `put`. -/
theorem Act.val_cases (h : Act S c op ret c') {n : NodeId} (hn : n < c.shared.fresh)
    (hv : (c'.shared.mem n).val.isSome = true) : (c'.shared.mem n).val = (c.shared.mem n).val ∨
      (op = .txEnd ∧ c.Live ∧ n ∈ c.storage.writeSet ∧ (c'.shared.mem n).val =
        if c.storage.deletes n then none else c.storage.valOf c.shared.mem n) ∨
      ∃ l key val, op = .put l key val ∧ c.transaction.TX = false ∧ n ∈ S l ∧
        c.shared.rank n = key ∧ (c'.shared.mem n).val = some val := by
  by_cases hacc : op.isAccess = true → c.transaction.TX = true
  · exact (h.val_eq_or hacc hn).imp_right .inl
  have hF : c.transaction.TX = false := by
    rcases hT : c.transaction.TX with _ | _
    · rfl
    · exact absurd (fun _ => hT) hacc
  have hno : ∀ {P : Prop}, c.transaction.TX = true → P := fun hT => by
    rw [hT] at hF
    simp at hF
  cases h with
  | opened | handled | rejected | cleared | finished | committed => simp [Op.isAccess] at hacc
  | thrown _ hT => exact hno hT
  | strayed _ hT => exact hno hT
  | overwrote hl | inserted hl | unlinked hl | missed hl | read hl | contained hl => exact hno hl.1
  | @stamped l key val y _ hy hk =>
    by_cases he : n = y
    · subst he
      exact .inr (.inr ⟨l, key, val, rfl, hF, hy, hk, by simp [Shared.stampValue]⟩)
    · exact .inl (by simp [Shared.stampValue, he])
  | @linked l key val p s' _ hp habs hmem hM =>
    refine .inl ?_
    have hne : n ≠ c.shared.fresh := hn.ne
    by_cases he : n = p
    · subst he
      simp [hmem, Shared.insertStamped]
    · simp [hmem, Shared.insertStamped, he, hne]
  | @cut l key p x s' _ hp hx hk hmem hM =>
    by_cases hx' : n = x
    · have hnone : (s'.mem n).val = none := (hM.dead l n (by simp [hx'])).2
      rw [show (s'.mem n).val = none from hnone] at hv
      simp at hv
    · by_cases he : n = p
      · subst he
        exact .inl (by simp [hmem, Shared.unlinkStamped, hx'])
      · exact .inl (by simp [hmem, Shared.unlinkStamped, hx', he])
  | absent => exact .inl rfl
  | gotten => exact .inl rfl
  | checked => exact .inl rfl

/-- A value that a live transaction has got stays the node's, unless the transaction is told. -/
theorem Atomic.got_kept (h : Atomic C S) (hG : Atomically C t op) (hu : u ≠ t)
    (hT : C.inTX u = true) {D F : ListId m → Finset NodeId} {W : Set NodeId}
    (hact : Act S (C.sys.ctx t) op ret c') (hM : Mutates C.sys.shared c'.shared S D F W)
    (hoff : ∀ n ∈ (C.sys.threads u).storage.readSet, n ∉ W) {l : ListId m} {key : K} {v : V}
    (hr : Rec.get l key (some v) ∈ C.hist.current u) {n : NodeId} (hn : n ∈ S l)
    (hk : C.sys.shared.rank n = key) (hv : (c'.shared.mem n).val.isSome = true)
    (hgot : C.sys.shared.lookup l key = some v) :
    (c'.shared.mem n).val = (C.sys.shared.mem n).val := by
  have hlt := (h.inv.lists.bound l n hn).2
  by_cases hread : n ∈ (C.sys.threads u).storage.readSet
  · exact (hM.same n hlt (hoff n hread)).2.1
  have hkey : (C.sys.shared.mem n).key = key :=
    WithBot.coe_inj.1 ((h.inv.lists.rank_mem hn).symm.trans hk)
  obtain ⟨hend, hput⟩ := hG.2 u hu hT l key v hr n (((h.inv.lists.chain_spec l).2.1 n).2 hn) hkey hread
  rcases hact.val_cases hlt hv with he | ⟨rfl, hl, hw, he⟩ | ⟨l', key', val, rfl, hF, hn', hk', he⟩
  · exact he
  · rcases hd : (C.sys.ctx t).storage.deletes n with _ | _
    · rw [he, hd]
      exact hend rfl hl hw hd
    · rw [he, hd] at hv
      simp at hv
  · obtain rfl : l' = l := h.inv.lists.unique_list (Finset.mem_insert_of_mem hn')
      (Finset.mem_insert_of_mem hn)
    obtain rfl : key' = key := WithBot.coe_inj.1 (hk'.symm.trans hk)
    rw [he, hput val rfl hF]

theorem ReadsValid.step_of_atomic (hR : ReadsValid C) (h : Atomic C S) (hG : Atomically C t op)
    (hst : C.Step t op ret C') : ReadsValid C' := by
  obtain ⟨-, -, -, hframe, hhist⟩ := h.inv.step_act hst
  obtain ⟨c', D, F, W, hc', hact, hC, hlive, hInv⟩ := h.inv.step (hG.1.safe h.inv.sane) hst
  have hshared : C'.sys.shared = c'.shared := by rw [hc']; rfl
  have hlook : ∀ l key, C.sys.shared.lookup l key = C.hist.maps l key := fun l key =>
    congrFun (congrFun h.lookup l) key
  intro u hl
  by_cases hu : u = t
  · subst hu
    have hctx : C'.sys.ctx u = c' := by rw [hc', Sys.ctx_put_self]
    have hback : op.isAccess = true → (C.sys.ctx u).Live := fun hop =>
      hframe.own_live h.inv.sane hop hl
    rw [hctx] at hl
    rw [hhist]
    exact hact.read_replays hl hback h.inv.lists (h.inv.viewed u) (h.accounts u) hlook (hR u)
  · have hl₀ := hlive u hu hl
    have hcur : C'.hist.current u = C.hist.current u := by
      rw [hhist]
      exact Hist.step_current_ne _ hu
    have hctxu : C'.sys.ctx u = { C.sys.ctx u with shared := c'.shared } := by
      rw [hc', Sys.ctx_put_ne _ _ hu]
    rw [hctxu] at hl
    rw [hcur, ← h.step_lookup hst, hshared]
    have hoff := hC.reads_apart h.inv hG.1.2.1 hl hl₀
    refine (hR u hl₀).rebase fun r hr => ?_
    have hg := (h.accounts u hl₀).guarded r hr
    have hsome := hg.lookup_isSome h.inv.lists (h.inv.sane u) hC.mutates hoff
    rw [← hlook]
    cases r with
    | put => exact fun _ => trivial
    | remove => exact fun _ => trivial
    | containsKey => exact fun hr => hr.trans hsome.symm
    | get l key got =>
      intro hgot
      have hgot : got = C.sys.shared.lookup l key := hgot
      show got = c'.shared.lookup l key
      rcases got with _ | v
      · have hsome' : (c'.shared.lookup l key).isSome = (C.sys.shared.lookup l key).isSome := hsome
        rw [← hgot] at hsome'
        exact (by simpa using hsome'.symm : c'.shared.lookup l key = none).symm
      · refine hgot.trans (Eq.symm ?_)
        refine hg.lookup_eq h.inv.lists (h.inv.sane u) hC.mutates hoff fun n hn hk => ?_
        have hn' : n ∈ patched (S l) (D l) (F l) := by
          refine (hg.mem_iff h.inv.lists (h.inv.sane u) hC.mutates hoff ?_).2 hn
          exact (hC.mutates.rank_node h.inv.lists hn).trans hk
        exact h.got_kept hG hu hl₀.1 hact hC.mutates hoff hr hn hk
          (hC.mutates.lists.live l n (Finset.mem_insert_of_mem hn')).1 hgot.symm

theorem ReadsValid.of_atomic (hr : Conf.Reach minKey dflt Atomically C) :
    ReadsValid C ∧ ∃ S, Atomic C S := by
  refine hr.keeps (J := fun C => ReadsValid C ∧ ∃ S, Atomic C S) ⟨fun t hl => ?_, Atomic.of_reach .refl⟩
    fun ⟨hR, _, h⟩ hG hst => ⟨hR.step_of_atomic h hG hst, h.step hG.1 hst⟩
  exact absurd hl.1 (by simp [Conf.init, Sys.init, Sys.ctx])

end Values

/-! ## The committed attempts as a serial run -/

section Serial

variable {C C' : Conf K V m} {t : ThreadId} {op : Op K V m} {ret : Ret V} {minKey : K} {dflt : V}

/-- The reads of the committed attempts returned what the replay of them all gives. -/
theorem committed_reads_replay (hr : Conf.Reach minKey dflt ReadSafeTx C) :
    Maps.empty.All Rec.ReadReplays C.hist.committed.flatten := by
  have hkeep : (ReadsValid C ∧ TxOnly C ∧ ∃ S, Serial C S) ∧
      Maps.empty.All Rec.ReadReplays C.hist.committed.flatten := by
    refine hr.keeps (J := fun C => (ReadsValid C ∧ TxOnly C ∧ ∃ S, Serial C S) ∧
      Maps.empty.All Rec.ReadReplays C.hist.committed.flatten) ⟨ReadsValid.of_reach .refl, trivial⟩ ?_
    rintro C t op ret C' ⟨⟨hR, hO, S, h⟩, hA⟩ hG hst
    have h' := h.step hO hG.1 hst
    refine ⟨⟨hR.step h hO hG.1 hG.2 hst h', hO.step hG.1 hst, h'⟩, ?_⟩
    obtain ⟨-, -, -, hframe, hhist⟩ := h.inv.step_act hst
    rw [hhist]
    by_cases hend : op = .txEnd → ret = .aborted
    · rw [Hist.step_committed _ hend]
      exact hA
    · push Not at hend
      obtain ⟨rfl, hret⟩ := hend
      rw [(Hist.step_commit C.hist (C.inTX t) hret).2, List.flatten_append, List.flatten_singleton]
      refine Maps.All_append.2 ⟨hA, ?_⟩
      rw [← h.replayed]
      exact hR t (hframe.valid rfl hret)
  exact hkeep.2

/-- In runs of transactions the committed attempts, one after another in the order of their commits,
are a serial run as far as the presence of keys and what `remove` returned go; where no commit
overwrites what another open transaction has only read, the values that `get` returned are those of
the serial run too. -/
theorem committed_serial (hr : Conf.Reach minKey dflt TxClient C) :
    Maps.empty.All Rec.Sound C.hist.committed.flatten ∧
      (Conf.Reach minKey dflt ReadSafeTx C →
        Maps.empty.All Rec.ReadReplays C.hist.committed.flatten) := by
  obtain ⟨-, S, h⟩ := Serial.of_reach hr
  exact ⟨h.sound, committed_reads_replay⟩

theorem committed_serial_two_reads : ∃ C : Conf Nat Nat 1, Conf.Reach 0 0 TxClient C ∧
    C.hist.committed = [[.put 0 5 3 none], [.get 0 5 (some 3), .get 0 7 none], [.put 0 7 4 none]] ∧
    Maps.empty.All Rec.Sound C.hist.committed.flatten := by
  obtain ⟨C, hr, -, hp⟩ := Conf.exists_reach_of_decidable (G := TxClient) 0 0 2
    [(0, .txBegin), (0, .put 0 5 3), (0, .txEnd), (0, .txBegin), (1, .txBegin), (0, .get 0 5),
      (0, .get 0 7), (1, .put 0 7 4), (0, .txEnd), (1, .txEnd)]
    (fun C : Conf Nat Nat 1 => decide (C.hist.committed =
      [[.put 0 5 3 none], [.get 0 5 (some 3), .get 0 7 none], [.put 0 7 4 none]])) (by decide +kernel)
  exact ⟨C, hr, of_decide_eq_true hp, (committed_serial hr).1⟩

end Serial

/-! ## The atomic system -/

/-- What a call does where calls are atomic: a singleton acts on the maps and returns what they hold,
a `TXend` that commits replays the transaction's calls, which have returned what the replay gives, and
nothing else changes the maps. -/
inductive Maps.Does (M : Maps K V m) (inTX : Bool) (cur : List (Rec K V m)) (op : Op K V m) :
    Ret V → Maps K V m → Prop
  | single : op.isAccess = true → inTX = false → Does M inTX cur op (M.answer op) (M.after op)
  | commit : op = .txEnd → M.All Rec.UpdateReplays cur → M.All Rec.ReadReplays cur →
      Does M inTX cur op (.bool true) (M.replay cur)
  | silent {ret : Ret V} : (op.isAccess = true → inTX = true) → (op = .txEnd → ret = .aborted) →
      Does M inTX cur op ret M

section System

variable {C C' : Conf K V m} {t : ThreadId} {op : Op K V m} {ret : Ret V} {minKey : K} {dflt : V}

omit [LinearOrder K] in
/-- The results of the updates are among what is sound. -/
theorem Rec.Sound.update_replays {o : Option V} {r : Rec K V m} (h : r.Sound o) :
    r.UpdateReplays o := by
  cases r with
  | put l key val ret =>
    have h : ret.isSome = o.isSome := h
    rw [Rec.UpdateReplays, ← Option.isNone_iff_eq_none, ← Option.isNone_iff_eq_none,
      ← Option.not_isSome, ← Option.not_isSome, h]
  | remove => exact h
  | get => trivial
  | containsKey => trivial

/-- Where every change to what a transaction has read is noticed, the lists are those of the atomic
system, call by call. -/
theorem Conf.Reach.atomic_step (hr : Conf.Reach minKey dflt Atomically C) (hst : C.Step t op ret C') :
    Maps.Does C.sys.shared.lookup (C.inTX t) (C.hist.current t) op ret C'.sys.shared.lookup := by
  obtain ⟨hR, S, h⟩ := ReadsValid.of_atomic hr
  obtain ⟨c', -, hact, hframe, hhist⟩ := h.inv.step_act hst
  have hlook' := h.step_lookup hst
  by_cases hx : op.isAccess = true ∧ C.inTX t = false
  · obtain ⟨hop, hF⟩ := hx
    have hret : ret = Maps.answer C.sys.shared.lookup op := hact.answer h.inv.lists hop hF
    rw [hret, h.inv.lookup_after hst hop hF]
    exact .single hop hF
  have hTX : op.isAccess = true → C.inTX t = true := fun hop => by
    rcases hT : C.inTX t with _ | _
    · exact absurd ⟨hop, hT⟩ hx
    · rfl
  by_cases hend : op = .txEnd → ret = .aborted
  · rw [hlook', hhist, Hist.step_maps _ hend hTX, ← h.lookup]
    exact .silent hTX hend
  · push Not at hend
    obtain ⟨rfl, hret⟩ := hend
    have hl : (C.sys.ctx t).Live := hframe.valid rfl hret
    have hbool : ret = .bool true := by
      cases hact with
      | rejected | cleared => exact absurd rfl hret
      | finished | committed => rfl
      | thrown hop | strayed hop => simp [Op.isAccess] at hop
    have hupdates : C.hist.maps.All Rec.UpdateReplays (C.hist.current t) :=
      (h.accounts t hl).sound.mono fun _ _ hs => hs.update_replays
    rw [hlook', hhist, (Hist.step_commit C.hist (C.inTX t) hret).1, h.lookup, hbool]
    exact .commit rfl hupdates (hR t hl)

/-- A thread with no other transaction open, and nothing left over where it starts one. -/
theorem Atomically.of_safeAlone [DecidableEq V] {B : Nat} (hI : C.Idle B)
    (h : C.safeAlone B t op = true) : Atomically C t op := by
  obtain ⟨hstart, -, hmark⟩ := Safe.of_safeAlone hI h
  have hclosed : ∀ {u}, u ≠ t → C.inTX u = true → False := fun hu hT => by
    rw [Conf.safeAlone, Bool.and_eq_true] at h
    rw [hI.closed_of_alone h.1 hu] at hT
    simp at hT
  refine ⟨⟨hstart, fun l key val _ hF _ u hl => ?_, hmark⟩, fun u hu hT => (hclosed hu hT).elim⟩
  by_cases hu : u = t
  · subst hu
    have hT : C.inTX u = true := hl.1
    rw [hF] at hT
    simp at hT
  · exact (hclosed hu hl.1).elim

/-- A singleton overwrites a value while a transaction that has inserted elsewhere is open. -/
theorem Conf.Reach.atomic_step_mixed : ∃ C C' : Conf Nat Nat 1, Conf.Reach 0 0 Atomically C ∧
    C.Step 0 .txEnd (.bool true) C' ∧ C.hist.current 0 = [.put 0 5 3 none] ∧
    C.sys.shared.lookup 0 7 = some 2 ∧ Maps.Does C.sys.shared.lookup (C.inTX 0) (C.hist.current 0)
      .txEnd (.bool true) C'.sys.shared.lookup := by
  have hG : ∀ (C : Conf Nat Nat 1) t op, C.Idle 2 → (C.safeAlone 2 t op ||
      decide (op = .put 0 7 2 ∧ C.sys.shared.lookup 0 7 ≠ none ∧
        ∀ u ∈ List.range 2, ∀ r ∈ C.hist.current u, r.isUpdate = true)) = true → Atomically C t op := by
    intro C t op hI hg
    rw [Bool.or_eq_true, decide_eq_true_eq] at hg
    rcases hg with hg | ⟨rfl, hput, hcur⟩
    · exact .of_safeAlone hI hg
    refine ⟨⟨by simp [FreshStart], fun l key val hop _ hnone => ?_, by simp [MarkSafe]⟩,
      fun u _ _ l key v hr => ?_⟩
    · obtain ⟨rfl, rfl, -⟩ := Op.put.inj hop
      exact absurd hnone hput
    · rcases Nat.lt_or_ge u 2 with hu | hu
      · exact absurd (hcur u (List.mem_range.2 hu) _ hr) (by simp [Rec.isUpdate])
      · rw [(hI u hu).2] at hr
        simp at hr
  obtain ⟨C, hr, -, hp⟩ := Conf.exists_reach 0 0
    [(1, .txBegin), (1, .put 0 7 1), (1, .txEnd), (0, .txBegin), (0, .put 0 5 3), (1, .put 0 7 2)]
    (fun C : Conf Nat Nat 1 => decide (C.hist.current 0 = [.put 0 5 3 none] ∧
      C.sys.shared.lookup 0 7 = some 2) && C.returns 0 .txEnd (.bool true)) hG (by decide +kernel)
  rw [Bool.and_eq_true, decide_eq_true_eq] at hp
  obtain ⟨C', hst⟩ := Conf.step_of_returns hp.2
  exact ⟨C, C', hr, hst, hp.1.1, hp.1.2, hr.atomic_step hst⟩

end System

end TxList
