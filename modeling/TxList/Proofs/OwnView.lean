import TxList.Proofs.Alone
import TxList.Proofs.FiniteMap
import TxList.Proofs.Serial

/-!
# What a transaction sees of itself

A transaction that runs alone on lists in order, with no fresh singleton stamp on them, throws
nothing. Its reads return what its own calls so far make of the committed maps, the shared nodes and
indexes stay as they are until its `TXend`, and that leaves the lists with the maps it saw last.

A `put` on a key that is there returns the value in the node itself, which a `put` before it in the
same transaction has not changed: that one's value is in the write set only.
-/

namespace TxList

open Prog Chain

variable {K V : Type} {m : Nat} [LinearOrder K]

/-- A `get` or a `containsKey`. -/
def Op.isQuery : Op K V m → Bool
  | .get _ _ | .containsKey _ _ => true
  | .put _ _ _ | .remove _ _ | .txBegin | .txEnd | .handleAbort => false

/-- The values in the nodes the transaction sees, where it sees the maps `M`: a `put` that overwrites
does not change the node. -/
def Maps.stored (M B : Maps K V m) : Op K V m → Maps K V m
  | .put l key val => if (M l key).isSome then B else B.set l key (some val)
  | .remove l key => B.set l key none
  | .get _ _ | .containsKey _ _ | .txBegin | .txEnd | .handleAbort => B

namespace Conf

/-- The lists as some run of calls has left them, in order and with no stamp of the clock's present
version on any node. -/
structure Committed (minKey : K) (dflt : V) (C : Conf K V m) : Prop where
  reach : Reach minKey dflt anyStep C
  lists : ∃ S, Lists C.sys.shared S
  unstamped : ∀ n < C.sys.shared.fresh, (C.sys.shared.mem n).word.version = C.sys.shared.gvc →
    (C.sys.shared.mem n).word.singleton = false

/-- Thread `t` makes the calls of its open transaction and ends it, while no other thread takes a
step. The calls all end, and none throws; while the transaction should see the maps `M`, its reads
return what they hold, and the nodes and indexes of `s` are as they were; `TXend` leaves the maps it
should see then. -/
def SeesOwn (t : ThreadId) (s : Shared K V m) :
    Maps K V m → List (Op K V m) → Conf K V m → Prop
  | M, [], C => C.Yields t .txEnd fun ret C' =>
      ret = .bool true ∧ ∀ l key, C'.sys.shared.lookup l key = M l key
  | M, op :: ops, C => C.Yields t op fun ret C' => ret.isAborted = false ∧
      (op.isQuery = true → ret = M.answer op) ∧
      (∀ n < s.fresh, C'.sys.shared.mem n = s.mem n) ∧ C'.sys.shared.index = s.index ∧
      SeesOwn t s (M.after op) ops C'

/-- In such a run every `put` returns what the maps `B` hold, as long as the transaction should see
the maps `M`. -/
def PutsReturn (t : ThreadId) (R : Maps K V m → Maps K V m → Op K V m → Ret V → Prop) :
    Maps K V m → Maps K V m → List (Op K V m) → Conf K V m → Prop
  | _, _, [], _ => True
  | M, B, op :: ops, C => C.Yields t op fun ret C' =>
      R M B op ret ∧ PutsReturn t R (M.after op) (M.stored B op) ops C'

end Conf

section Acts

variable {S : ListId m → Finset NodeId} {c c' : Ctx K V m} {op : Op K V m} {ret : Ret V}
  {M B : Maps K V m} {cur : List (Rec K V m)}

/-- A call in a transaction changes no node that was there and no index. -/
theorem Act.quiet (h : Act S c op ret c') (hop : op.isAccess = true) (hT : c.transaction.TX = true) :
    Quiet c.shared c'.shared := by
  have hno : ∀ {P : Prop}, c.transaction.TX = false → P := fun hF => by
    rw [hT] at hF
    simp at hF
  cases h with
  | opened | handled | rejected | cleared | finished | committed => simp [Op.isAccess] at hop
  | thrown _ _ ht => exact ht.quiet
  | strayed _ _ _ hq => exact hq.quiet
  | overwrote | unlinked | missed | read | contained => exact .refl _
  | inserted _ _ _ hx => exact .alloc _ (by rw [hx])
  | stamped hF | linked hF | cut hF | absent hF | gotten hF | checked hF => exact hno hF

/-- A read of a live transaction returns the replay of its calls. -/
theorem Act.answer_replay (h : Act S c op ret c') (hq : op.isQuery = true) (hlive : c.Live)
    (hret : ret.isAborted = false) (hV : Viewed S cur c) (hA : Accounts M S cur c)
    (hL : Lists c.shared S) (hM : ∀ l key, c.shared.lookup l key = M l key) :
    ret = (M.replay cur).answer op := by
  have hno : ∀ {P : Prop}, c.transaction.TX = false → P := fun hF => by
    rw [hlive.1] at hF
    simp at hF
  cases h with
  | opened | handled | rejected | cleared | finished | committed => simp [Op.isQuery] at hq
  | thrown => simp [Ret.isAborted] at hret
  | strayed _ _ hstray => exact absurd hlive hstray
  | overwrote | inserted | unlinked | missed => simp [Op.isQuery] at hq
  | @read l key p o _ _ hr =>
    rw [hr.unique (hV.overlay.threads l).inj (hA.view_all hV hL hM l key)]
    rfl
  | @contained l key p o _ _ hr =>
    rw [hr.unique (hV.overlay.threads l).inj (hA.view_all hV hL hM l key)]
    rfl
  | stamped hF | linked hF | cut hF | absent hF | gotten hF | checked hF => exact hno hF

/-- The record of a call that did not throw, replayed, is the call. -/
theorem Rec.exists_of (h : Act S c op ret c') (hop : op.isAccess = true) (hlive : c.Live)
    (hret : ret.isAborted = false) : ∃ r, Rec.of? op ret = some r ∧
      ∀ M : Maps K V m, M.apply r = M.after op := by
  have hno : ∀ {P : Prop}, c.transaction.TX = false → P := fun hF => by
    rw [hlive.1] at hF
    simp at hF
  cases h with
  | opened | handled | rejected | cleared | finished | committed => simp [Op.isAccess] at hop
  | thrown => simp [Ret.isAborted] at hret
  | strayed _ _ hstray => exact absurd hlive hstray
  | overwrote | inserted | unlinked | missed | read | contained => exact ⟨_, rfl, fun _ => rfl⟩
  | stamped hF | linked hF | cut hF | absent hF | gotten hF | checked hF => exact hno hF

/-- The values in the nodes the transaction sees. -/
def Stores (S : ListId m → Finset NodeId) (B : Maps K V m) (c : Ctx K V m) : Prop :=
  ∀ l key, Reads c.shared.rank (fun n => (c.shared.mem n).val) (c.storage.seen S l) key (B l key)

theorem Maps.set_apply (B : Maps K V m) (l l' : ListId m) (key key' : K) (v : Option V) :
    B.set l key v l' key' = if l' = l ∧ key' = key then v else B l' key' := by
  by_cases hl : l' = l
  · subst hl
    by_cases hk : key' = key <;> simp [Maps.set, hk]
  · simp [Maps.set, hl]

theorem Overlay.stored_isSome {s : Shared K V m} {ls : LocalStorage V m} (hO : Overlay s S ls)
    (hL : Lists s S) {l : ListId m} {x : NodeId} (hx : x ∈ ls.seen S l) :
    (s.mem x).val.isSome = true := by
  rcases (LocalStorage.mem_seen.1 hx).1 with hx | hx
  · exact (hL.live l x (Finset.mem_insert_of_mem hx)).1
  · exact (hO.new l x hx).2.2.1

/-- A change of one key's association in what is seen. -/
theorem Stores.set (hB : Stores S B c) {l : ListId m} {key : K} {v : Option V}
    (hkey : Reads c'.shared.rank (fun n => (c'.shared.mem n).val) (c'.storage.seen S l) key v)
    (hsame : ∀ l' key', ¬ (l' = l ∧ key' = key) → (∀ n, n ∈ c'.storage.seen S l' ∧
      c'.shared.rank n = key' ↔ n ∈ c.storage.seen S l' ∧ c.shared.rank n = key') ∧
      ∀ n ∈ c.storage.seen S l', (c'.shared.mem n).val = (c.shared.mem n).val) :
    Stores S (B.set l key v) c' := by
  intro l' key'
  rw [Maps.set_apply]
  split_ifs with h
  · obtain ⟨rfl, rfl⟩ := h
    exact hkey
  · exact (hB l' key').congr (hsame l' key' h).1 fun n hn _ => (hsame l' key' h).2 n hn

/-- What a call does to the values in the nodes, and what a `put` returns. -/
theorem Act.stores (h : Act S c op ret c') (hop : op.isAccess = true) (hlive : c.Live)
    (hret : ret.isAborted = false) (hL : Lists c.shared S) (hs : Sane c)
    (hO : Overlay c.shared S c.storage) (hB : Stores S B c)
    (hM : ∀ l key, Reads c.shared.rank (c.storage.valOf c.shared.mem) (c.storage.seen S l) key
      (M l key)) :
    Stores S (M.stored B op) c' ∧ ∀ l key val, op = .put l key val → ret = .val (B l key) := by
  have hno : ∀ {P : Prop}, c.transaction.TX = false → P := fun hF => by
    rw [hlive.1] at hF
    simp at hF
  cases h with
  | opened | handled | rejected | cleared | finished | committed => simp [Op.isAccess] at hop
  | thrown => simp [Ret.isAborted] at hret
  | strayed _ _ hstray => exact absurd hlive hstray
  | @overwrote l key val x _ hx hk =>
    have hsome : (M l key).isSome = true := (hM l key).isSome.2 ⟨x, hx, hk⟩
    refine ⟨fun l' key' => ?_, fun l' key' val' he => ?_⟩
    · simp only [Maps.stored, hsome, if_true]
      refine (hB l' key').congr (fun n => ?_) fun n _ _ => rfl
      show n ∈ (c.storage.overwrite c.shared.mem x val).seen S l' ∧ _ ↔ _
      rw [LocalStorage.seen_overwrite]
      rfl
    · obtain ⟨rfl, rfl, rfl⟩ : l = l' ∧ key = key' ∧ val = val' := by simpa using he
      rw [Reads.unique (hO.threads l).inj (hB l key) (.of_mem hx hk (hO.stored_isSome hL hx))]
  | @inserted l key val p y _ hp habs hy =>
    have hnone : none = B l key := Reads.unique (hO.threads l).inj (o := none) habs (hB l key)
    have hMnone : none = M l key := Reads.unique (hO.threads l).inj (o := none) habs (hM l key)
    have hwf : c.shared.fresh ∉ c.storage.writeSet := fun hw =>
      (hs.readSet _ (hs.write_read _ hw)).ne rfl
    have hlt : ∀ l', ∀ n ∈ c.storage.seen S l', n < c.shared.fresh := by
      intro l' n hn
      rcases (LocalStorage.mem_seen.1 hn).1 with hn | hn
      · exact (hL.bound l' n hn).2
      · exact (hO.new l' n hn).2.1
    have hold : ∀ n < c.shared.fresh, (c.shared.alloc y).mem n = c.shared.mem n := fun n hn => by
      simp [Function.update_of_ne (show n ≠ c.shared.fresh from hn.ne)]
    have hrank : ∀ n < c.shared.fresh, (c.shared.alloc y).rank n = c.shared.rank n := fun n hn => by
      simp only [Shared.rank, hold n hn]
    have hnew : (c.shared.alloc y).rank c.shared.fresh = key := by
      rw [Shared.rank_of_le _ hs.heads]
      simp [hy]
    have hseen : ∀ l' n, n ∈ (c.storage.insertAfter (c.shared.alloc y).mem l p c.shared.fresh).seen S l' ↔
        n ∈ c.storage.seen S l' ∨ l' = l ∧ n = c.shared.fresh := fun l' n =>
      LocalStorage.mem_seen_insertAfter (hO.kept hp.1) hwf
    refine ⟨?_, fun l' key' val' he => ?_⟩
    · simp only [Maps.stored, ← hMnone, Option.isSome_none, Bool.false_eq_true, if_false]
      refine hB.set ⟨c.shared.fresh, (hseen l _).2 (.inr ⟨rfl, rfl⟩), hnew, by simp [hy]⟩
        fun l' key' hne => ⟨fun n => ?_, fun n hn => by rw [show _ = _ from hold n (hlt l' n hn)]⟩
      show n ∈ (c.storage.insertAfter (c.shared.alloc y).mem l p c.shared.fresh).seen S l' ∧ _ ↔ _
      rw [hseen]
      constructor
      · rintro ⟨hn | ⟨rfl, rfl⟩, hr⟩
        · exact ⟨hn, hrank n (hlt l' n hn) ▸ hr⟩
        · exact absurd ⟨rfl, WithBot.coe_inj.1 (hr.symm.trans hnew)⟩ hne
      · exact fun hn => ⟨.inl hn.1, (hrank n (hlt l' n hn.1)).trans hn.2⟩
    · obtain ⟨rfl, rfl, rfl⟩ : l = l' ∧ key = key' ∧ val = val' := by simpa using he
      rw [← hnone]
  | @unlinked l key p x _ hx hk hp =>
    have hne : p ≠ x := fun he => hp.2.1.ne (by rw [he, hk])
    have hseen : ∀ l' n, n ∈ (c.storage.unlink c.shared.mem l p x
        (c.storage.nextOf c.shared.mem x)).seen S l' ↔ n ∈ c.storage.seen S l' ∧ n ≠ x := fun l' n =>
      LocalStorage.mem_seen_unlink hne (hO.kept hp.1)
    refine ⟨hB.set (fun n hn hr => ?_) fun l' key' hno' => ⟨fun n => ?_, fun n _ => rfl⟩, by simp⟩
    · obtain ⟨hn, hnx⟩ := (hseen l n).1 hn
      exact hnx ((hO.threads l).inj n hn x hx (hr.trans hk.symm))
    · show n ∈ (c.storage.unlink c.shared.mem l p x _).seen S l' ∧ _ ↔ _
      rw [hseen]
      refine ⟨fun hn => ⟨hn.1.1, hn.2⟩, fun hn => ⟨⟨hn.1, ?_⟩, hn.2⟩⟩
      rintro rfl
      obtain rfl := hO.seen_unique hL (Finset.mem_insert_of_mem hn.1) (Finset.mem_insert_of_mem hx)
      exact hno' ⟨rfl, WithBot.coe_inj.1 (hn.2.symm.trans hk)⟩
  | missed _ _ habs =>
    exact ⟨hB.set habs fun l' key' _ => ⟨fun n => Iff.rfl, fun n _ => rfl⟩, by simp⟩
  | read => exact ⟨hB, by simp⟩
  | contained => exact ⟨hB, by simp⟩
  | stamped hF | linked hF | cut hF | absent hF | gotten hF | checked hF => exact hno hF

end Acts

section Runs

variable {S : ListId m → Finset NodeId} {C C' C₀ : Conf K V m} {t : ThreadId} {op : Op K V m}
  {ret : Ret V} {s : Shared K V m} {M₀ M B : Maps K V m}

/-- The thread's transaction, alone since its `TXbegin`, sees the maps `M` over the committed maps
`M₀`, and the nodes it sees hold the values of `B`. -/
structure Conf.Own (S : ListId m → Finset NodeId) (M₀ : Maps K V m) (s : Shared K V m) (t : ThreadId)
    (M B : Maps K V m) (C : Conf K V m) : Prop where
  current : C.Current t
  unstamped : ∀ n, ¬ C.Stamped n
  lists : Lists C.sys.shared S
  lookup : ∀ l key, C.sys.shared.lookup l key = M₀ l key
  view : ∃ cur, M = M₀.replay cur ∧ Viewed S cur (C.sys.ctx t) ∧ Accounts M₀ S cur (C.sys.ctx t)
  stores : Stores S B (C.sys.ctx t)
  quiet : Quiet s C.sys.shared

theorem Conf.Current.live (h : C.Current t) (hu : ∀ n, ¬ C.Stamped n) : (C.sys.ctx t).Live := by
  refine ⟨h.opened, fun n _ hm => hu n ?_⟩
  rw [h.readVersion] at hm
  exact hm

omit [LinearOrder K] in
theorem Quiet.trans {s s' s'' : Shared K V m} (h : Quiet s s') (h' : Quiet s' s'') : Quiet s s'' where
  fresh := h.fresh.trans h'.fresh
  mem n hn := (h'.mem n (hn.trans_le h.fresh)).trans (h.mem n hn)
  word n := by
    rcases h'.word n with hw | hw
    · rw [hw]
      exact h.word n
    · exact .inr hw
  index := h'.index.trans h.index

/-- What the step of a transaction that runs alone on lists in order can be. -/
theorem Conf.Own.act (h : C.Own S M₀ s t M B) (hst : C.Step t op ret C') :
    ∃ c', C'.sys = C.sys.put t c' ∧ Act S (C.sys.ctx t) op ret c' := by
  obtain ⟨cur, -, hV, -⟩ := h.view
  obtain ⟨ch, ho, hstep, -⟩ := hst
  obtain ⟨c', hc', hact⟩ := Sys.step_of_ends (Lists.call_acts op (c := C.sys.ctx t) h.lists
    (h.current.sane t) (fun _ => hV.overlay) ho) hstep
  refine ⟨c', hc', ?_⟩
  rcases hact with hact | ⟨rfl, hact⟩
  · exact hact
  · exact hact

/-- One call of the transaction. -/
theorem Conf.Own.access (h : C.Own S M₀ s t M B) (hop : op.isAccess = true) :
    C.Yields t op fun ret C' => ret.isAborted = false ∧ (op.isQuery = true → ret = M.answer op) ∧
      (∀ l key val, op = .put l key val → ret = .val (B l key)) ∧
      C'.Own S M₀ s t (M.after op) (M.stored B op) := by
  refine ⟨(h.current.access hop).ends, fun {ret C'} hst => ?_⟩
  have hgo := (h.current.access hop).only hst
  have hret : ret.isAborted = false := by
    by_contra ha
    simp only [Bool.not_eq_false] at ha
    rw [if_pos ha] at hgo
    obtain ⟨n, hn⟩ := hgo.2
    exact h.unstamped n hn
  simp only [hret, Bool.false_eq_true, if_false] at hgo
  obtain ⟨hcur', hstamp⟩ := hgo
  have hu' : ∀ n, ¬ C'.Stamped n := fun n hn => h.unstamped n (hstamp n hn)
  have hlive := h.current.live h.unstamped
  have hlive' := hcur'.live hu'
  have hs := h.current.sane t
  obtain ⟨cur, hM, hV, hA⟩ := h.view
  obtain ⟨c', hc', hact⟩ := h.act hst
  have hctx : C'.sys.ctx t = c' := by rw [hc', Sys.ctx_put_self]
  have hsh : C'.sys.shared = c'.shared := by rw [hc', Sys.put_shared]
  obtain ⟨r, hr, hafter⟩ := Rec.exists_of hact hop hlive hret
  -- a history with the committed maps and the transaction's calls, to speak of one more call
  let H : Hist K V m := ⟨M₀, [], fun _ => cur, fun _ => .empty, fun _ => false⟩
  have hT : (C.sys.ctx t).transaction.TX = true := hlive.1
  have hnew : (H.step t (C.sys.ctx t).transaction.TX op ret).current t = cur ++ [r] := by
    rw [hT]
    exact H.step_current hop hr
  have hmaps : (H.step t (C.sys.ctx t).transaction.TX op ret).maps = M₀ :=
    H.step_maps (fun he => by simp [he, Op.isAccess] at hop) fun _ => hT
  rw [hctx] at hlive'
  obtain ⟨hL', hV', -⟩ := hact.viewed (t := t) (H := H) h.lists hs hlive' (fun _ => hlive)
    (fun _ => hV) fun he => by simp [he, Op.isAccess] at hop
  have hA' := hact.accounts (t := t) (H := H) hlive' (fun _ => hlive) h.lists hs (fun _ => hV)
    (fun _ => hA) h.lookup
  have hlook := hact.lookup (t := t) (H := H) (fun _ => hT) h.lists hs (fun _ => hV) (fun _ => hA)
    h.lookup
  obtain ⟨hB', hput⟩ := hact.stores (M := M) hop hlive hret h.lists hs hV.overlay h.stores
    (hM ▸ hA.view_all hV h.lists h.lookup)
  rw [hnew] at hV'
  rw [hnew, hmaps] at hA'
  rw [hmaps] at hlook
  refine ⟨hret, fun hq => ?_, hput, hcur', hu', by rwa [hsh], fun l key => by rw [hsh, hlook],
    ⟨cur ++ [r], ?_, by rwa [hctx], by rwa [hctx]⟩, by rwa [hctx], ?_⟩
  · rw [hM]
    exact hact.answer_replay hq hlive hret hV hA h.lists h.lookup
  · rw [Maps.replay_append, ← hM, ← hafter]
    rfl
  · rw [hsh]
    exact h.quiet.trans (hact.quiet hop hT)

/-- `TXend` leaves the maps the transaction sees. -/
theorem Conf.Own.txEnd (h : C.Own S M₀ s t M B) : C.Yields t .txEnd fun ret C' =>
    ret = .bool true ∧ ∀ l key, C'.sys.shared.lookup l key = M l key := by
  refine ⟨h.current.txEnd.ends, fun {ret C'} hst => ?_⟩
  have hgo := h.current.txEnd.only hst
  have hno : ret.isAborted = true → False := fun ha => by
    obtain ⟨n, hn⟩ := (hgo ha).2
    exact h.unstamped n hn
  obtain ⟨cur, hM, hV, hA⟩ := h.view
  obtain ⟨c', hc', hact⟩ := h.act hst
  have hsh : C'.sys.shared = c'.shared := by rw [hc', Sys.put_shared]
  rw [hM, hsh]
  cases hact with
  | rejected | cleared => exact (hno rfl).elim
  | thrown hop | strayed hop => simp [Op.isAccess] at hop
  | finished hl hro => exact ⟨rfl, hA.lookup_finished hV h.lists h.lookup hro⟩
  | committed hl _ hu hMt => 
    exact ⟨rfl, fun l key => hA.lookup_committed hV h.lists h.lookup hu hMt.lists l key⟩

theorem Conf.Committed.begins {minKey : K} {dflt : V} (h : C.Committed minKey dflt)
    (he : (C.sys.threads t).storage.IsEmpty) : ∃ S, C.Yields t .txBegin fun _ C' =>
      C'.Own S C.sys.shared.lookup C.sys.shared t C.sys.shared.lookup C.sys.shared.lookup := by
  obtain ⟨S, hL⟩ := h.lists
  have hs : C.sys.Sane := h.reach.sane (Sys.sane_init minKey dflt)
  have hS : C.sys.Sound := h.reach.sound
  refine ⟨S, (Conf.begins hs hS he).mono fun _ C' ⟨hcur, hsh, he'⟩ => ?_⟩
  have hL' : Lists C'.sys.shared S := by rwa [hsh]
  have hV : Viewed S [] (C'.sys.ctx t) := .empty hL' he'
  have hnot : ∀ n, n ∉ (C'.sys.ctx t).storage.writeSet := fun n => by
    rw [he'.1]
    exact AList.notMem_empty n
  have hA : Accounts C.sys.shared.lookup S [] (C'.sys.ctx t) := .empty _ _ _
  have hlook : ∀ l key, C'.sys.shared.lookup l key = C.sys.shared.lookup l key := fun l key => by
    rw [hsh]
  refine ⟨hcur, fun n hn => ?_, hL', hlook, ⟨[], rfl, hV, hA⟩, fun l key => ?_, ?_⟩
  · simp only [Conf.Stamped, hsh] at hn
    rcases hn with hn | hn
    · exact absurd ((hs 0).version n) (Nat.not_le.2 hn)
    · by_cases hf : n < C.sys.shared.fresh
      · exact absurd hn.2 (by simp [h.unstamped n hf hn.1])
      · rw [hS.shared.blank n (Nat.not_lt.1 hf)] at hn
        exact absurd hn.2 (by simp)
  · refine (hA.view_all hV hL' hlook l key).congr (fun n => Iff.rfl) fun n _ _ => ?_
    exact (LocalStorage.valOf_of_notMem (hnot n)).symm
  · rw [hsh]
    exact .refl _

/-- In a transaction alone, on lists as a run has left them, every read returns what the
transaction's own calls before it make of the committed maps, no call throws, nothing shared changes
before `TXend`, and `TXend` leaves the lists with the maps seen last. -/
theorem own_writes_seen {minKey : K} {dflt : V} (h : C.Committed minKey dflt)
    (he : (C.sys.threads t).storage.IsEmpty) (ops : List (Op K V m))
    (hops : ∀ op ∈ ops, op.isAccess = true) : C.Yields t .txBegin fun _ C₁ =>
      C₁.SeesOwn t C.sys.shared C.sys.shared.lookup ops := by
  have hrun : ∀ (ops : List (Op K V m)) {M B : Maps K V m} {C₁ : Conf K V m} {S},
      (∀ op ∈ ops, op.isAccess = true) → C₁.Own S C.sys.shared.lookup C.sys.shared t M B →
      C₁.SeesOwn t C.sys.shared M ops := by
    intro ops
    induction ops with
    | nil => exact fun _ hO => hO.txEnd
    | cons op ops ih =>
      intro M B C₁ S hops hO
      refine (hO.access (hops op (by simp))).mono fun ret C₂ ⟨h1, h2, _, h4⟩ => ?_
      exact ⟨h1, h2, h4.quiet.mem, h4.quiet.index, ih (fun op' ho => hops op' (by simp [ho])) h4⟩
  obtain ⟨S, hb⟩ := h.begins he
  exact hb.mono fun _ C₁ hO => hrun ops hops hO

/-- A transaction on a list with one key, which it overwrites, takes out and puts in again. -/
theorem own_writes_seen_again : ∃ C : Conf Nat Nat 1, C.Committed 0 0 ∧
    C.sys.shared.lookup 0 7 = some 4 ∧ C.Yields 0 .txBegin fun _ C₁ =>
      C₁.SeesOwn 0 C.sys.shared C.sys.shared.lookup
        [.put 0 7 1, .get 0 7, .remove 0 7, .containsKey 0 7, .put 0 7 2, .get 0 7] := by
  obtain ⟨C, hr, -, hp⟩ := Conf.exists_reach_of_decidable (G := TxClient) 0 0 1
    [(0, .txBegin), (0, .put 0 7 4), (0, .txEnd)]
    (fun C : Conf Nat Nat 1 => decide (C.sys.shared.lookup 0 7 = some 4) &&
      decide (C.sys.threads 0).storage.IsEmpty &&
      (List.range C.sys.shared.fresh).all fun n => !(C.sys.shared.mem n).word.singleton)
    (by decide +kernel)
  simp only [Bool.and_eq_true, decide_eq_true_eq, List.all_eq_true, List.mem_range,
    Bool.not_eq_eq_eq_not, Bool.not_true] at hp
  obtain ⟨⟨hlook, he⟩, hsing⟩ := hp
  obtain ⟨-, S, hser⟩ := Serial.of_reach hr
  have hC : C.Committed 0 0 := ⟨hr.mono fun _ => trivial, ⟨S, hser.inv.lists⟩, fun n hn _ => hsing n hn⟩
  exact ⟨C, hC, hlook, own_writes_seen hC he _ (by simp [Op.isAccess])⟩

/-- A `put` in a transaction alone returns the value its key has in the transaction's view exactly
when the node that holds the key has that value too. -/
theorem put_returns_seen_iff {minKey : K} {dflt : V} (h : C.Committed minKey dflt)
    (he : (C.sys.threads t).storage.IsEmpty) (ops : List (Op K V m))
    (hops : ∀ op ∈ ops, op.isAccess = true) : C.Yields t .txBegin fun _ C₁ =>
      C₁.PutsReturn t (fun M B op ret => ∀ l key val, op = .put l key val →
        (ret = .val (M l key) ↔ B l key = M l key)) C.sys.shared.lookup C.sys.shared.lookup ops := by
  have hrun : ∀ (ops : List (Op K V m)) {M B : Maps K V m} {C₁ : Conf K V m} {S},
      (∀ op ∈ ops, op.isAccess = true) → C₁.Own S C.sys.shared.lookup C.sys.shared t M B →
      C₁.PutsReturn t (fun M B op ret => ∀ l key val, op = .put l key val →
        (ret = .val (M l key) ↔ B l key = M l key)) M B ops := by
    intro ops
    induction ops with
    | nil => exact fun _ _ => trivial
    | cons op ops ih =>
      intro M B C₁ S hops hO
      refine (hO.access (hops op (by simp))).mono fun ret C₂ ⟨_, _, h3, h4⟩ => ?_
      refine ⟨fun l key val hput => ?_, ih (fun op' ho => hops op' (by simp [ho])) h4⟩
      rw [h3 l key val hput, Ret.val.injEq]
  obtain ⟨S, hb⟩ := h.begins he
  exact hb.mono fun _ C₁ hO => hrun ops hops hO

/-- The lists as constructed. -/
theorem Conf.committed_init (minKey : K) (dflt : V) :
    (Conf.init minKey dflt : Conf K V m).Committed minKey dflt :=
  ⟨.refl, ⟨_, (Inv.init minKey dflt).lists⟩, fun _ _ _ => rfl⟩

/-- A key put in and overwritten, and another put: each `put` returns as said. -/
theorem put_returns_seen_iff_thrice : (Conf.init 0 0 : Conf Nat Nat 1).Yields 0 .txBegin fun _ C₁ =>
    C₁.PutsReturn 0 (fun M B op ret => ∀ l key val, op = .put l key val →
      (ret = .val (M l key) ↔ B l key = M l key))
      (Conf.init 0 0 : Conf Nat Nat 1).sys.shared.lookup
      (Conf.init 0 0 : Conf Nat Nat 1).sys.shared.lookup
      [.put 0 5 1, .put 0 5 2, .put 0 5 3, .put 0 7 1] :=
  put_returns_seen_iff (Conf.committed_init 0 0) ⟨rfl, rfl, fun _ => rfl, fun _ => rfl⟩ _
    (by simp [Op.isAccess])

/-- The third `put` of a new key returns what the first one put in, not what the second one did. -/
theorem put_returns_stale : (Conf.init 0 0 : Conf Nat Nat 1).Committed 0 0 ∧
    ¬ (Conf.init 0 0 : Conf Nat Nat 1).Yields 0 .txBegin fun _ C₁ =>
      C₁.PutsReturn 0 (fun M _ op ret => ∀ l key val, op = .put l key val → ret = .val (M l key))
        (Conf.init 0 0 : Conf Nat Nat 1).sys.shared.lookup
        (Conf.init 0 0 : Conf Nat Nat 1).sys.shared.lookup
        [.put 0 5 1, .put 0 5 2, .put 0 5 3] := by
  refine ⟨Conf.committed_init 0 0, fun h => ?_⟩
  have hrun : (Conf.init 0 0 : Conf Nat Nat 1).after 0 .txBegin .unit (fun C₁ =>
      C₁.after 0 (.put 0 5 1) (.val none) fun C₂ =>
      C₂.after 0 (.put 0 5 2) (.val (some 1)) fun C₃ =>
      C₃.returns 0 (.put 0 5 3) (.val (some 1))) = true := by decide +kernel
  obtain ⟨C₁, hst₁, hI₁, h₁⟩ := Conf.exists_step (Conf.idle_init 0 0 1) Nat.zero_lt_one hrun
  obtain ⟨C₂, hst₂, hI₂, h₂⟩ := Conf.exists_step hI₁ Nat.zero_lt_one h₁
  obtain ⟨C₃, hst₃, hI₃, h₃⟩ := Conf.exists_step hI₂ Nat.zero_lt_one h₂
  obtain ⟨C₄, hst₄⟩ := Conf.step_of_returns h₃
  have hput := (((h.only hst₁).only hst₂).2.only hst₃).2.only hst₄
  have hval := hput.1 0 5 3 rfl
  simp [Maps.after, Maps.set] at hval

end Runs

end TxList
