import TxList.Proofs.SoundStep
import TxList.Proofs.Marks

/-!
# A transaction that runs alone

Every call of an open transaction ends, in every state that a run reaches: with a value, or with a
`TxAbortException` on a node that was changed since the transaction began. With no other thread
running the only such nodes are those a singleton stamped with the clock's present version. The
transaction that meets one moves the clock on, so its next attempt meets none.
-/

namespace TxList

open Prog

variable {K V : Type} {m : Nat} [LinearOrder K] {P : ListId m → NodeId → Prop} {c c' : Ctx K V m}
  {C C' : Conf K V m} {t : ThreadId} {op : Op K V m} {ret : Ret V}

theorem Conf.Reach.sound {minKey : K} {dflt : V} {G : Conf.Guard K V m}
    (hr : Conf.Reach minKey dflt G C) : C.sys.Sound :=
  (hr.keeps (J := fun C => C.sys.Sane ∧ C.sys.Sound)
    ⟨Sys.sane_init minKey dflt, Sys.sound_init minKey dflt⟩
    fun h _ hst => ⟨(hst.framed h.1).sane, hst.sound h.1 h.2⟩).2

/-- A list operation of an open transaction ends. -/
theorem access_settles (ch : Choice) (hop : op.isAccess = true) (h : c.Sound P)
    (hT : c.transaction.TX = true) : Settles (fun n => call (ch.withFuel n) op) c
      (fun ret c' => ret.isAborted = false ∧ c.Advances P c') (Throws (c.Quits P)) := by
  have hcall : ∀ {α : Type} {x : Nat → Call K V m α} {f : α → Ret V}, (∀ a, (f a).isAborted = false) →
      Settles x c (fun _ c' => c.Advances P c') (Throws (c.Quits P)) →
      ∃ n, Ends (x n) c (fun a c' => (f a).isAborted = false ∧ c.Advances P c') (Throws (c.Quits P)) := by
    intro α x f hf hx
    obtain ⟨n, hn⟩ := hx
    exact ⟨n, hn.mono (fun a c' hc => ⟨hf a, hc⟩) fun _ _ he => he⟩
  cases op with
  | txBegin | txEnd | handleAbort => simp [Op.isAccess] at hop
  | put l key val =>
    obtain ⟨n, hn⟩ := hcall (f := .val) (fun _ => rfl) (putTX_settles h l key val)
    refine ⟨n, ?_⟩
    simp only [call, put, Ends_bind, Ends_get, hT, if_true]
    exact hn
  | remove l key =>
    obtain ⟨n, hn⟩ := hcall (f := .val) (fun _ => rfl) (removeTX_settles h l key)
    refine ⟨n, ?_⟩
    simp only [call, remove, Ends_bind, Ends_get, hT, if_true]
    exact hn
  | get l key =>
    obtain ⟨n, hn⟩ := hcall (f := .val) (fun _ => rfl) (getTX_settles h l key)
    refine ⟨n, ?_⟩
    simp only [call, getKey, Ends_bind, Ends_get, hT, if_true]
    exact hn
  | containsKey l key =>
    obtain ⟨n, hn⟩ := hcall (f := fun v => .bool v.isSome) (fun _ => rfl) (getTX_settles h l key)
    refine ⟨n, ?_⟩
    simp only [call, containsKey, getKey, Ends_bind, Ends_get, hT, if_true]
    exact hn

theorem Conf.Yields.mono {R R' : Ret V → Conf K V m → Prop} (h : C.Yields t op R)
    (hR : ∀ ret C', R ret C' → R' ret C') : C.Yields t op R' :=
  ⟨h.ends, fun hst => hR _ _ (h.only hst)⟩

/-- What a call settles in is what every step of it ends in. -/
theorem Conf.yields_of_settles {R : Ret V → Conf K V m → Prop} {Q : Ret V → Ctx K V m → Prop}
    {E : Ctx K V m → Prop}
    (h : ∀ ch : Choice, (op = .txEnd → ch.Orders (C.sys.threads t).storage) →
      Settles (fun n => call (ch.withFuel n) op) (C.sys.ctx t) Q (Throws E))
    (hQ : ∀ ret c C', C.Step t op ret C' → C'.sys = C.sys.put t c → Q ret c → R ret C')
    (hE : ∀ c C', C.Step t op .aborted C' → C'.sys = C.sys.put t c → E c → R .aborted C') :
    C.Yields t op R := by
  refine ⟨fun ch ho => Sys.exists_fuel (h ch ho), fun {ret C'} hst => ?_⟩
  obtain ⟨ch, ho, hstep, hhist⟩ := id hst
  have hends : Ends (call ch op) (C.sys.ctx t) Q (OnAbort E) := by
    refine ((h ch ho).ends (d := .diverged) (fun hn => call_below hn ch op) (fun _ => id) ch.fuel).mono
      (fun _ _ hq => hq) fun e c he => ?_
    rcases e with _ | _ | _ | _
    · exact he.resolve_right (by simp)
    all_goals trivial
  obtain ⟨c, hc, hr⟩ := Sys.step_of_ends hends hstep
  rcases hr with hr | ⟨rfl, hr⟩
  · exact hQ ret c C' hst hc hr
  · exact hE c C' hst hc hr

/-- A singleton has stamped the node since the clock last moved. -/
def Conf.Stamped (C : Conf K V m) (n : NodeId) : Prop := Marked (C.sys.shared.mem n) C.sys.shared.gvc

/-- The thread's transaction began at the clock's present version, and could use again what it has
read. -/
structure Conf.Current (C : Conf K V m) (t : ThreadId) : Prop where
  sane : C.sys.Sane
  sound : C.sys.Sound
  opened : (C.sys.ctx t).transaction.TX = true
  readVersion : (C.sys.ctx t).transaction.readVersion = C.sys.shared.gvc
  usable : ∀ n ∈ (C.sys.ctx t).storage.readSet, (C.sys.ctx t).Usable n

/-- The clock has moved on since any node was stamped. -/
structure Conf.Cleared (C : Conf K V m) : Prop where
  sane : C.sys.Sane
  sound : C.sys.Sound
  version : ∀ n, (C.sys.shared.mem n).word.version < C.sys.shared.gvc

theorem Conf.Cleared.not_stamped (h : C.Cleared) (n : NodeId) : ¬ C.Stamped n := by
  have hv := h.version n
  rintro (hm | hm) <;> omega

/-- A call that throws while the thread runs alone clears all stamps at once. -/
theorem Conf.Current.cleared (h : C.Current t) (hs : C'.sys.Sane) (hS : C'.sys.Sound)
    (he : C'.sys = C.sys.put t c) (hq : (C.sys.ctx t).Quits (C.sys.others t) c) :
    C'.Cleared ∧ ∃ n, C.Stamped n := by
  have hrv := h.readVersion
  rcases hq.marked with hb | ⟨hgvc, n, hn⟩
  · obtain ⟨n, hn⟩ := hb h.opened
    have hl := (h.sane t).unlocked n
    have hv := (h.sane t).version n
    rw [hl, hrv] at hn
    have hlt := hn.resolve_left (by simp)
    exact absurd hv (Nat.not_le.2 hlt)
  · refine ⟨⟨hs, hS, fun k => ?_⟩, n, ?_⟩
    · have hv := (h.sane t).version k
      have hgvc : c.shared.gvc = C.sys.shared.gvc + 1 := hgvc
      simp only [he, Sys.put_shared]
      rw [hq.version k, hgvc]
      exact Nat.lt_succ_of_le hv
    · rwa [hrv] at hn

/-- A list operation goes on with the transaction or clears the stamps. -/
theorem Conf.Current.access (h : C.Current t) (hop : op.isAccess = true) :
    C.Yields t op fun ret C' => if ret.isAborted then C'.Cleared ∧ ∃ n, C.Stamped n else
      C'.Current t ∧ ∀ n, C'.Stamped n → C.Stamped n := by
  refine Conf.yields_of_settles (fun ch _ => access_settles ch hop (h.sound.ctx t) h.opened)
    (fun ret c C' hst he ⟨hret, ha⟩ => ?_) fun c C' hst he hq => ?_
  · have hctx : C'.sys.ctx t = c := by rw [he, Sys.ctx_put_self]
    have hsh : C'.sys.shared = c.shared := by rw [he, Sys.put_shared]
    simp only [hret, Bool.false_eq_true, if_false]
    refine ⟨⟨(hst.framed h.sane).sane, hst.sound h.sane h.sound, ?_, ?_, fun n hn => ?_⟩, fun n hn => ?_⟩
    · rw [hctx, ha.stays]
      exact h.opened
    · rw [hctx, hsh, ha.readVersion, ha.gvc]
      exact h.readVersion
    · rw [hctx] at hn ⊢
      exact (ha.usable n hn).elim (fun hn => ha.keeps (h.usable n hn)) id
    · simp only [Conf.Stamped, hsh, ha.gvc] at hn
      exact ha.marked hn
  · simp only [Ret.isAborted, if_true]
    exact h.cleared (hst.framed h.sane).sane (hst.sound h.sane h.sound) he hq

/-- `TXend` commits or clears the stamps. -/
theorem Conf.Current.txEnd (h : C.Current t) :
    C.Yields t .txEnd fun ret C' => ret.isAborted = true → C'.Cleared ∧ ∃ n, C.Stamped n := by
  refine Conf.yields_of_settles (Q := fun ret _ => ret.isAborted = false)
    (E := (C.sys.ctx t).Quits (C.sys.others t)) (fun ch ho => ?_)
    (fun ret c C' hst he hret hr => by simp [hret] at hr) fun c C' hst he hq _ =>
      h.cleared (hst.framed h.sane).sane (hst.sound h.sane h.sound) he hq
  obtain ⟨n, hn⟩ := TXend_settles (h.sound.ctx t) (ho rfl) (h.sane t).readVersion
  refine ⟨n, ?_⟩
  simp only [call, Ends_bind, Ends_pure]
  refine hn.mono (fun _ _ _ => rfl) fun e c he => ?_
  rcases e with _ | _ | _ | _
  · exact he
  · obtain ⟨k, hk, hno⟩ := he
    exact hno (h.usable k hk)
  all_goals exact he

/-- `handle_abort` leaves the clock and the versions. -/
theorem Conf.Cleared.handleAbort (h : C.Cleared) : C.Yields t .handleAbort fun _ C' =>
    C'.Cleared ∧ (C'.sys.threads t).storage.IsEmpty := by
  refine Conf.yields_of_settles (Q := fun _ c => c.shared.mem = C.sys.shared.mem ∧
    c.shared.gvc = C.sys.shared.gvc ∧ c.storage = {}) (E := fun _ => False) (fun ch _ => ⟨0, ?_⟩)
    (fun ret c C' hst he ⟨hmem, hgvc, hls⟩ => ?_) fun _ _ _ _ hF => hF.elim
  · simp only [call, Ends_bind, Ends_pure]
    exact handle_abort_ends fun r => ⟨rfl, rfl, rfl⟩
  · refine ⟨⟨(hst.framed h.sane).sane, hst.sound h.sane h.sound, fun n => ?_⟩, ?_⟩
    · simp only [he, Sys.put_shared, hmem, hgvc]
      exact h.version n
    · simp only [he, Sys.put_threads_self, hls]
      exact ⟨rfl, rfl, fun _ => rfl, fun _ => rfl⟩

/-- `TXbegin` makes the transaction current. -/
theorem Conf.begins (hs : C.sys.Sane) (hS : C.sys.Sound) (he : (C.sys.threads t).storage.IsEmpty) :
    C.Yields t .txBegin fun _ C' => C'.Current t ∧ C'.sys.shared = C.sys.shared ∧
      (C'.sys.ctx t).storage.IsEmpty := by
  refine Conf.yields_of_settles (Q := fun _ c => c.shared = C.sys.shared ∧ c.transaction.TX = true ∧
    c.transaction.readVersion = C.sys.shared.gvc ∧ c.storage = (C.sys.threads t).storage)
    (E := fun _ => False) (fun ch _ => ⟨0, ?_⟩)
    (fun ret c C' hst hput ⟨hsh, hT, hrv, hls⟩ => ?_) fun _ _ _ _ hF => hF.elim
  · simp only [call, TXbegin, Ends_bind, Ends_getVersion, Ends_modifyTransaction, Ends_pure]
    exact ⟨rfl, trivial, rfl, rfl⟩
  · have hctx : C'.sys.ctx t = c := by rw [hput, Sys.ctx_put_self]
    have hsh' : C'.sys.shared = C.sys.shared := by rw [hput, Sys.put_shared, hsh]
    refine ⟨⟨(hst.framed hs).sane, hst.sound hs hS, by rw [hctx, hT], by rw [hctx, hrv, hsh'],
      fun n hn => ?_⟩, hsh', by rwa [hctx, hls]⟩
    rw [hctx, hls, he.2.1] at hn
    simp at hn

/-- An attempt alone commits, or fails with all stamps cleared; it fails only if there was one. -/
theorem Conf.Current.attempt {R : Bool → Conf K V m → Prop} (hdone : ∀ C₁, R true C₁) :
    ∀ (ops : List (Op K V m)) {C : Conf K V m}, (∀ op ∈ ops, op.isAccess = true) → C.Current t →
      ((∃ n, C.Stamped n) → ∀ C₁, C₁.Cleared → (C₁.sys.threads t).storage.IsEmpty → R false C₁) →
      C.Attempt t R ops
  | [], C, _, h, hfail => by
    simp only [Conf.Attempt]
    refine h.txEnd.mono fun ret C' hr => ?_
    split_ifs with ha
    · obtain ⟨hc, hst⟩ := hr ha
      exact hc.handleAbort.mono fun _ C'' h'' => hfail hst C'' h''.1 h''.2
    · exact hdone C'
  | op :: ops, C, hops, h, hfail => by
    simp only [Conf.Attempt]
    refine (h.access (hops op (by simp))).mono fun ret C' hr => ?_
    split_ifs at hr ⊢ with ha
    · obtain ⟨hc, hst⟩ := hr
      exact hc.handleAbort.mono fun _ C'' h'' => hfail hst C'' h''.1 h''.2
    · exact Conf.Current.attempt hdone ops (fun op' ho => hops op' (by simp [ho])) hr.1
        fun ⟨n, hn⟩ => hfail ⟨n, hr.2 n hn⟩

/-- Versions keep within the clock and never go back, and a transaction alone aborts at most once. -/
theorem alone_aborts_once {minKey : K} {dflt : V} (hr : Conf.Reach minKey dflt Conf.anyStep C) :
    (∀ n, (C.sys.shared.mem n).word.version ≤ C.sys.shared.gvc) ∧
    (∀ t, (C.sys.threads t).transaction.readVersion ≤ C.sys.shared.gvc) ∧
    (∀ t op ret C', C.Step t op ret C' → ∀ n < C.sys.shared.fresh,
      (C.sys.shared.mem n).word.version ≤ (C'.sys.shared.mem n).word.version) ∧
    ∀ t, (C.sys.threads t).storage.IsEmpty → ∀ ops : List (Op K V m),
      (∀ op ∈ ops, op.isAccess = true) → C.Transact t ops fun committed C₁ =>
        committed = false → C₁.Transact t ops fun committed' _ => committed' = true := by
  have hs : C.sys.Sane := hr.sane (Sys.sane_init minKey dflt)
  have hS : C.sys.Sound := hr.sound
  refine ⟨(hs 0).version, fun t => (hs t).readVersion, fun t op ret C' hst =>
    (hst.framed hs).framed.grows.version, fun t he ops hops => ?_⟩
  refine (Conf.begins hs hS he).mono fun _ C₁ h₁ => h₁.1.attempt (fun _ h => by simp at h) ops hops
    fun _ C₂ h₂ he₂ _ => ?_
  -- the second attempt meets no stamp
  refine (Conf.begins h₂.sane h₂.sound he₂).mono fun _ C₃ h₃ => h₃.1.attempt (fun _ => rfl) ops hops
    fun ⟨n, hn⟩ => absurd ?_ (h₂.not_stamped n)
  simpa only [Conf.Stamped, h₃.2.1] using hn

/-- Right after a singleton's insertion, whose stamp the first attempt meets. -/
theorem alone_aborts_once_stamped : ∃ C : Conf Nat Nat 1, Conf.Reach 0 0 Conf.anyStep C ∧
    C.Stamped 1 ∧ C.Transact 1 [.get 0 5, .put 0 5 4] fun committed C₁ =>
      committed = false → C₁.Transact 1 [.get 0 5, .put 0 5 4] fun committed' _ => committed' = true := by
  obtain ⟨C, hr, hidle, hp⟩ := Conf.exists_reach_of_decidable (G := Conf.anyStep) 0 0 1
    [(0, .put 0 5 3)]
    (fun C : Conf Nat Nat 1 => decide ((C.sys.shared.mem 1).word.version = C.sys.shared.gvc ∧
      (C.sys.shared.mem 1).word.singleton = true))
    (by decide +kernel)
  have he : (C.sys.threads 1).storage.IsEmpty := by
    rw [(hidle 1 le_rfl).1]
    exact ⟨rfl, rfl, fun _ => rfl, fun _ => rfl⟩
  refine ⟨C, hr, .inr (of_decide_eq_true hp), (alone_aborts_once hr).2.2.2 1 he _ ?_⟩
  simp [Op.isAccess]

end TxList
