import TxList.Proofs.QueueRuns

/-!
# Locks that are not given back

A transaction's `dequeue` and `isEmpty` take the queue's lock, and `isLockedByMe`, which `TXend` goes
by when it gives locks back, is set only where `TXend` itself locks the queues of `queueMap`. So the
lock stays where the transaction was aborted before that, and where the queue is not in `queueMap`
because `isEmpty` found it not empty. From then on every call of another thread on the queue fails or
waits, whatever the threads do, until the owner calls the queue again.
-/

namespace TxQueue

open Chain
open Fifo (Op Ans)

variable {Q V : Type} [DecidableEq Q]

/-- The thread is in a call on `q`. -/
def Pc.Uses (q : Q) : Pc Q V → Prop
  | .tryLock q' _ | .lock q' _ _ | .locked q' _ _ | .stamp q' _ | .unlock q' _ => q' = q
  | _ => False

namespace Ctx

/-- Thread `t` has the lock of `q`, and nothing that makes its `TXend` give it back. -/
structure Leaked (c : Ctx Q V) (t : ThreadId) (q : Q) : Prop where
  owns : c.Owns t q
  out : c.storage.TX = false ∨ q ∉ c.storage.queueMap
  flag : (c.storage.lQueue q).isLockedByMe = false
  pc : ¬ c.pc.Uses q

variable {c c' : Ctx Q V} {t : ThreadId} {o : ThreadId × Q → Links} {q : Q}

/-- A step that does not touch `q`. -/
theorem Leaked.next (h : c.Leaked t q) (hq : c'.queues q = c.queues q)
    (hout : c'.storage.TX = false ∨ c'.storage.TX = c.storage.TX ∧
      (q ∈ c'.storage.queueMap → q ∈ c.storage.queueMap))
    (hl : c'.storage.lQueue q = c.storage.lQueue q) (hpc : ¬ c'.pc.Uses q) : c'.Leaked t q where
  owns := by
    unfold Owns
    rw [hq]
    exact h.owns
  out := by
    rcases hout with hT | ⟨hT, hm⟩
    · exact .inl hT
    · rw [hT]
      exact h.out.imp_right fun hn hq' => hn (hm hq')
  flag := by
    rw [hl]
    exact h.flag
  pc := hpc

theorem Leaked.same (h : c.Leaked t q) (hq : c'.queues q = c.queues q)
    (hs : c'.storage = c.storage) (hpc : ¬ c'.pc.Uses q) : c'.Leaked t q :=
  h.next hq (.inr ⟨by rw [hs], fun hm => by rwa [hs] at hm⟩) (by rw [hs]) hpc

theorem Leaked.abort (h : c.Leaked t q) (pc : Pc Q V) {g : Nat} :
    ({ c with gvc := g, pc := pc }.abort).Leaked t q ∧
      ({ c with gvc := g, pc := pc }.abort).queues q = c.queues q :=
  ⟨h.next rfl (.inl rfl) rfl id, rfl⟩

theorem Leaked.not_mem {order : List Q} (h : c.Leaked t q)
    (hT : c.storage.TX = true) (hp : order.Perm c.storage.queueMap.keys) : q ∉ order := fun hq =>
  (h.out.resolve_left (by simp [hT])) (AList.mem_keys.2 (hp.subset hq))

theorem Leaked.putQueue (h : c.Leaked t q) {q' : Q} (hq : q' ≠ q) {lq : LocalQueue}
    (hqs : c'.queues q = c.queues q) (hs : c'.storage = c.storage.putQueue q' lq)
    (hpc : ¬ c'.pc.Uses q) : c'.Leaked t q := by
  refine h.next hqs (.inr ⟨by rw [hs]; rfl, fun hm => ?_⟩) ?_ hpc
  · rw [hs] at hm
    exact ((AList.mem_insert _).1 hm).resolve_left hq.symm
  · rw [hs, LocalStorage.lQueue_putQueue_of_ne _ _ hq.symm]

/-- A call of the owner's that is not on `q`, nor a `TXbegin` with `q` left in `queueMap`. -/
theorem Leaked.start (h : c.Leaked t q) (hpc : c.pc = .idle) {e : Ev Q V}
    (hcall : ∀ op, e ≠ .call q op) (hbegin : e = .txBegin → q ∉ c.storage.queueMap)
    {r : Option (Ret V)} (hs : c.start e = some (c', r)) :
    c'.Leaked t q ∧ c'.queues q = c.queues q := by
  have hidle : ¬ c.pc.Uses q := by
    rw [hpc]
    exact id
  cases e with
  | txBegin =>
    obtain ⟨rfl, -⟩ := Prod.mk.inj (Option.some.inj hs)
    exact ⟨⟨h.owns, .inr (hbegin rfl), h.flag, hidle⟩, rfl⟩
  | listWrite =>
    simp only [Ctx.start] at hs
    split_ifs at hs
    obtain ⟨rfl, -⟩ := Prod.mk.inj (Option.some.inj hs)
    exact ⟨h.next rfl (.inr ⟨rfl, id⟩) rfl hidle, rfl⟩
  | listAbort increment =>
    simp only [Ctx.start] at hs
    split_ifs at hs
    · obtain ⟨rfl, -⟩ := Prod.mk.inj (Option.some.inj hs)
      exact h.abort c.pc
    · obtain ⟨rfl, -⟩ := Prod.mk.inj (Option.some.inj hs)
      exact h.abort c.pc
  | call q' op =>
    have hq : q' ≠ q := fun hq => hcall op (by rw [hq])
    simp only [Ctx.start] at hs
    split_ifs at hs
    · unfold checkVersion at hs
      split_ifs at hs
      · obtain ⟨rfl, -⟩ := Prod.mk.inj (Option.some.inj hs)
        exact h.abort c.pc
      · obtain ⟨rfl, -⟩ := Prod.mk.inj (Option.some.inj hs)
        exact h.abort c.pc
      · cases op with
        | enqueue v =>
          obtain ⟨rfl, -⟩ := Prod.mk.inj (Option.some.inj hs)
          exact ⟨h.putQueue hq rfl rfl hidle, rfl⟩
        | dequeue | isEmpty =>
          obtain ⟨rfl, -⟩ := Prod.mk.inj (Option.some.inj hs)
          exact ⟨h.same rfl rfl hq, rfl⟩
    · obtain ⟨rfl, -⟩ := Prod.mk.inj (Option.some.inj hs)
      exact ⟨h.same rfl rfl hq, rfl⟩
  | txEnd order locks =>
    simp only [Ctx.start] at hs
    split_ifs at hs <;> obtain ⟨rfl, -⟩ := Prod.mk.inj (Option.some.inj hs) <;>
      exact ⟨h.same rfl rfl id, rfl⟩
  | go rs => simp [Ctx.start] at hs

/-- What an access to a queue does to the thread's storage. -/
theorem access_storage (c : Ctx Q V) (q : Q) (op : Op V) :
    (c.access q op).1.storage = c.storage ∨
      ∃ lq, (c.access q op).1.storage = c.storage.putQueue q lq := by
  cases op with
  | enqueue v => exact .inr ⟨_, rfl⟩
  | dequeue =>
    simp only [access, dequeue]
    split
    · exact .inr ⟨_, rfl⟩
    · split <;> exact .inr ⟨_, rfl⟩
  | isEmpty =>
    simp only [access, isEmpty]
    split_ifs
    · exact .inl rfl
    · exact .inr ⟨_, rfl⟩

theorem single_queues_of_ne (c : Ctx Q V) {q q' : Q} (hq : q' ≠ q) (size : Int) (op : Op V) :
    (c.single q size op).queues q' = c.queues q' := by
  cases op with
  | enqueue v => exact Function.update_of_ne hq _ _
  | dequeue =>
    simp only [single]
    split
    · rfl
    · exact Function.update_of_ne hq _ _
  | isEmpty => rfl

theorem single_storage (c : Ctx Q V) (q : Q) (size : Int) (op : Op V) :
    (c.single q size op).storage = c.storage := by
  cases op with
  | enqueue v => rfl
  | dequeue =>
    simp only [single]
    split <;> rfl
  | isEmpty => rfl

theorem single_uses (c : Ctx Q V) {q q' : Q} (size : Int) (op : Op V) :
    (c.single q size op).pc.Uses q' ↔ q = q' := by
  cases op with
  | enqueue v => rfl
  | dequeue =>
    simp only [single]
    split <;> rfl
  | isEmpty => rfl

/-- What a part of the publication of another queue does to `q`. -/
theorem publish_of_ne {q q' : Q} (hq : q ≠ q') {wv : Nat} {part : Part}
    (hs : c.publish q' wv part = some c') : c'.queues q = c.queues q ∧
      (c'.storage = c.storage ∨ ∃ lq, c'.storage = c.storage.putQueue q' lq) := by
  cases part with
  | dequeueNodes =>
    obtain ⟨l, -, hs⟩ := Option.bind_eq_some_iff.1 hs
    obtain rfl := Option.some.inj hs
    exact ⟨Function.update_of_ne hq _ _, .inl rfl⟩
  | enqueueNodes =>
    obtain ⟨⟨h', l, l'⟩, -, hs⟩ := Option.bind_eq_some_iff.1 hs
    obtain rfl := Option.some.inj hs
    exact ⟨Function.update_of_ne hq _ _, .inr ⟨_, rfl⟩⟩
  | setVersion =>
    obtain rfl := Option.some.inj hs
    exact ⟨Function.update_of_ne hq _ _, .inl rfl⟩

/-- The rest of a call of the owner's. -/
theorem Leaked.go (h : c.Leaked t q) (hr : Ready c.storage (c.Owns t) c.pc) {rs : ReadSet}
    {r : Option (Ret V)} (hs : c.go t rs = some (c', r)) :
    c'.Leaked t q ∧ c'.queues q = c.queues q := by
  have huses := h.pc
  unfold Ctx.go at hs
  rcases hpc : c.pc with _ | ⟨q', op⟩ | ⟨q', op, size⟩ | ⟨q', op, size⟩ | ⟨q', a⟩ | ⟨q', a⟩ |
    ⟨order, _ | ⟨q', rest⟩⟩ | order | ⟨order, _ | ⟨q', rest⟩⟩ | order |
    ⟨part, wv, order, _ | ⟨q', rest⟩⟩ | ⟨abort, _ | ⟨q', rest⟩⟩ <;>
    rw [hpc] at hr hs huses <;> dsimp only at hs
  case idle => simp at hs
  case tryLock =>
    have hq : q ≠ q' := Ne.symm huses
    rcases hx : (c.queues q').tryLock t with _ | x <;> rw [hx] at hs <;> dsimp only at hs
    · obtain ⟨rfl, -⟩ := Prod.mk.inj (Option.some.inj hs)
      exact h.abort c.pc
    · obtain ⟨rfl, -⟩ := Prod.mk.inj (Option.some.inj hs)
      have hqs : ((c.setQueue q' x).access q' op).1.queues q = c.queues q := by
        rw [access_queues]
        exact Function.update_of_ne hq _ _
      rcases access_storage (c.setQueue q' x) q' op with he | ⟨lq, he⟩
      · exact ⟨h.same hqs he id, hqs⟩
      · exact ⟨h.putQueue hq.symm hqs he id, hqs⟩
  case lock =>
    have hq : q ≠ q' := Ne.symm huses
    rcases hx : (c.queues q').tryLock t with _ | x <;> rw [hx] at hs
    · simp at hs
    · obtain ⟨rfl, -⟩ := Prod.mk.inj (Option.some.inj hs)
      exact ⟨h.same (Function.update_of_ne hq _ _) rfl huses, Function.update_of_ne hq _ _⟩
  case locked =>
    have hq : q ≠ q' := Ne.symm huses
    obtain ⟨rfl, -⟩ := Prod.mk.inj (Option.some.inj hs)
    have hqs := single_queues_of_ne c hq size op
    exact ⟨h.same hqs (single_storage c q' size op) ((single_uses c size op).not.2 huses), hqs⟩
  case stamp =>
    have hq : q ≠ q' := Ne.symm huses
    obtain ⟨rfl, -⟩ := Prod.mk.inj (Option.some.inj hs)
    exact ⟨h.same (Function.update_of_ne hq _ _) rfl huses, Function.update_of_ne hq _ _⟩
  case unlock =>
    have hq : q ≠ q' := Ne.symm huses
    rcases hx : (c.queues q').unlock t with _ | x <;> rw [hx] at hs
    · simp at hs
    · obtain ⟨rfl, -⟩ := Prod.mk.inj (Option.some.inj hs)
      exact ⟨h.same (Function.update_of_ne hq _ _) rfl id, Function.update_of_ne hq _ _⟩
  case lockQueues.cons =>
    have hq : q ≠ q' := fun hq => h.not_mem hr.1 hr.2.1 (by
      obtain ⟨-, -, done, rfl, -⟩ := hr
      simp [hq])
    rcases hx : (c.queues q').tryLock t with _ | x <;> rw [hx] at hs <;> dsimp only at hs
    · obtain ⟨rfl, -⟩ := Prod.mk.inj (Option.some.inj hs)
      exact ⟨h.same rfl rfl id, rfl⟩
    · obtain ⟨rfl, -⟩ := Prod.mk.inj (Option.some.inj hs)
      have hqs : (c.setQueue q' x).queues q = c.queues q := Function.update_of_ne hq _ _
      exact ⟨h.putQueue hq.symm hqs rfl id, hqs⟩
  case validateReadSet =>
    cases rs <;> obtain ⟨rfl, -⟩ := Prod.mk.inj (Option.some.inj hs) <;>
      exact ⟨h.same rfl rfl id, rfl⟩
  case validateQueues.cons =>
    split_ifs at hs <;> obtain ⟨rfl, -⟩ := Prod.mk.inj (Option.some.inj hs) <;>
      exact ⟨h.same rfl rfl id, rfl⟩
  case increment =>
    split_ifs at hs <;> obtain ⟨rfl, -⟩ := Prod.mk.inj (Option.some.inj hs) <;>
      exact ⟨h.same rfl rfl id, rfl⟩
  case publish.cons =>
    have hq : q ≠ q' := fun hq =>
      h.not_mem hr.1 hr.2.1.1 (hr.2.2.subset (by simp [hq]))
    obtain ⟨c₁, hc₁, hs⟩ := Option.bind_eq_some_iff.1 hs
    obtain ⟨rfl, -⟩ := Prod.mk.inj (Option.some.inj hs)
    obtain ⟨hqs, hst⟩ := publish_of_ne hq hc₁
    have hno : ¬ (part.next wv order q' rest : Pc Q V).Uses q := by cases part <;> exact id
    rcases hst with he | ⟨lq, he⟩
    · exact ⟨h.same hqs he hno, hqs⟩
    · exact ⟨h.putQueue hq.symm hqs he hno, hqs⟩
  case unlockQueues.nil =>
    obtain ⟨rfl, -⟩ := Prod.mk.inj (Option.some.inj hs)
    exact ⟨⟨h.owns, .inl rfl, rfl, id⟩, rfl⟩
  case unlockQueues.cons =>
    split_ifs at hs with hf
    · have hq : q ≠ q' := by
        rintro rfl
        rw [show c.lQueue q = c.storage.lQueue q from rfl, h.flag] at hf
        simp at hf
      rcases hx : (c.queues q').unlock t with _ | x <;> rw [hx] at hs
      · simp at hs
      · obtain ⟨rfl, -⟩ := Prod.mk.inj (Option.some.inj hs)
        have hqs : (c.setQueue q' x).queues q = c.queues q := Function.update_of_ne hq _ _
        exact ⟨h.putQueue hq.symm hqs rfl id, hqs⟩
    · obtain ⟨rfl, -⟩ := Prod.mk.inj (Option.some.inj hs)
      exact ⟨h.same rfl rfl id, rfl⟩
  all_goals
    obtain ⟨rfl, -⟩ := Prod.mk.inj (Option.some.inj hs)
    exact ⟨h.same rfl rfl id, rfl⟩

theorem Leaked.not_writes (h : c.Leaked t q) (hr : Ready c.storage (c.Owns t) c.pc) :
    ¬ c.pc.Writes q := by
  have huses := h.pc
  intro hw
  unfold Pc.Writes at hw
  split at hw
  · rename_i q' size hpc
    rw [hpc] at huses
    exact huses hw
  · rename_i q' v size hpc
    rw [hpc] at huses
    exact huses hw
  · rename_i part wv order q' rest hpc
    rw [hpc] at hr
    exact h.not_mem hr.1 hr.2.1.1 (hr.2.2.subset (hw ▸ List.mem_cons_self))
  · exact hw

theorem Leaked.step (h : c.Leaked t q) (hr : Ready c.storage (c.Owns t) c.pc) {e : Ev Q V}
    (hcall : ∀ op, e ≠ .call q op) (hbegin : e = .txBegin → q ∉ c.storage.queueMap)
    {r : Option (Ret V)} (hs : c.step t e = some (c', r)) :
    c'.Leaked t q ∧ c'.queues q = c.queues q := by
  unfold Ctx.step at hs
  split at hs
  · exact h.go hr hs
  · rename_i hpc
    exact h.start hpc hcall hbegin hs
  · simp at hs

/-- What a step comes to that needs the lock of `q`, which another thread has. -/
theorem step_of_locked {u : ThreadId} (ho : (c.queues q).owner = some u) (hu : t ≠ u) {e : Ev Q V}
    {r : Option (Ret V)} (hs : c.step t e = some (c', r)) :
    (∀ op, c.pc = .tryLock q op → r = some .aborted) ∧ (∀ op size, c.pc ≠ .lock q op size) ∧
      ∀ order rest, c.pc = .lockQueues order (q :: rest) → c'.pc = .unlockQueues true order := by
  have hx : (c.queues q).tryLock t = none := by
    simp [Queue.tryLock, ho, Ne.symm hu]
  refine ⟨fun op hpc => ?_, fun op size hpc => ?_, fun order rest hpc => ?_⟩ <;>
    obtain ⟨rs, -, hs⟩ := step_go (by simp [hpc]) hs <;> simp only [Ctx.go, hpc, hx] at hs
  · exact (Prod.mk.inj (Option.some.inj hs)).2.symm
  · simp at hs
  · rw [← (Prod.mk.inj (Option.some.inj hs)).1]

end Ctx

namespace Conf

/-- Thread `t` makes no call on `q`, and begins no transaction with `q` left in `queueMap`. -/
def Shuns (t : ThreadId) (q : Q) (C : Conf Q V) (u : ThreadId) : Ev Q V → Prop
  | .call q' _ => u = t → q' ≠ q
  | .txBegin => u = t → q ∉ (C.sys.threads t).storage.queueMap
  | _ => True

instance (t : ThreadId) (q : Q) (C : Conf Q V) (u : ThreadId) :
    ∀ e : Ev Q V, Decidable (Shuns t q C u e)
  | .call q' _ => inferInstanceAs (Decidable (u = t → q' ≠ q))
  | .txBegin =>
    inferInstanceAs (Decidable (u = t → q ∉ (C.sys.threads t).storage.queueMap))
  | .listWrite | .listAbort _ | .txEnd _ _ | .go _ => inferInstanceAs (Decidable True)

variable {G : Conf Q V → ThreadId → Ev Q V → Prop} {C C' : Conf Q V} {t : ThreadId} {q : Q}

theorem Run.leaked (h : Run (Shuns t q) C C') (hs : C.sys.Safe) (hl : (C.sys.ctx t).Leaked t q) :
    (C'.sys.ctx t).Leaked t q ∧ C'.sys.queues q = C.sys.queues q ∧
      C'.sys.contents q = C.sys.contents q := by
  induction h with
  | refl => exact ⟨hl, rfl, rfl⟩
  | @step C₁ u e c r hrun hG hstep ih =>
    obtain ⟨hl₁, hq₁, hc₁⟩ := ih
    have hs₁ := hrun.safe hs
    by_cases hu : u = t
    · subst hu
      have hcall : ∀ op, e ≠ .call q op := by
        rintro op rfl
        exact hG rfl rfl
      have hbegin : e = .txBegin → q ∉ (C₁.sys.ctx u).storage.queueMap := by
        rintro rfl
        exact hG rfl
      obtain ⟨hl₂, hq₂⟩ := hl₁.step (hs₁.ready u) hcall hbegin hstep
      refine ⟨?_, hq₂.trans hq₁, ?_⟩
      · have he : ((C₁.next u e c r).sys.ctx u) = c := by
          simp [next, Sys.ctx, Sys.put]
        rw [he]
        exact hl₂
      · exact (hs₁.contents_put hstep fun hw => hl₁.not_writes (hs₁.ready u) hw.2).trans hc₁
    · have hown : (C₁.sys.queues q).owner = some t := hl₁.owns
      have hf := (hs₁.step hstep).2
      have hthreads : (C₁.next u e c r).sys.threads t = C₁.sys.threads t :=
        Sys.threads_put_of_ne (Ne.symm hu) c
      have hq₂ : (C₁.next u e c r).sys.queues q = C₁.sys.queues q :=
        hf.queue q t (Ne.symm hu) hown
      refine ⟨⟨?_, ?_, ?_, ?_⟩, hq₂.trans hq₁, ?_⟩
      · show ((C₁.next u e c r).sys.queues q).owner = some t
        rw [hq₂]
        exact hown
      · simpa only [Sys.ctx, hthreads] using hl₁.out
      · simpa only [Sys.ctx, hthreads] using hl₁.flag
      · simpa only [Sys.ctx, hthreads] using hl₁.pc
      · refine (hs₁.contents_put hstep fun hw => hu ?_).trans hc₁
        have : (C₁.sys.queues q).owner = some u := hw.1
        rw [hown] at this
        exact (Option.some.inj this).symm

/-- A lock left behind shuts the others out: once a thread is idle with the lock of `q`, its
transaction aborted or `q` not in its `queueMap`, then as long as it does not call `q`, its `TXend`s
and later transactions do not give the lock back, `q` stays as it is, each `dequeue` and `isEmpty` of
another thread's transaction aborts it, each call outside of a transaction waits, and each `TXend`
that comes to lock `q` aborts. -/
theorem Run.shut_out [Inhabited V] (hC : Reach G C) (hidle : (C.sys.threads t).pc = .idle)
    (ho : (C.sys.queues q).owner = some t)
    (hout : (C.sys.threads t).storage.TX = false ∨ q ∉ (C.sys.threads t).storage.queueMap)
    (h : Run (Shuns t q) C C') :
    C'.sys.queues q = C.sys.queues q ∧ C'.sys.contents q = C.sys.contents q ∧
      ∀ (u : ThreadId) (e : Ev Q V) (c : Ctx Q V) (r : Option (Ret V)), u ≠ t →
        (C'.sys.ctx u).step u e = some (c, r) →
        (∀ op, (C'.sys.threads u).pc = .tryLock q op → r = some .aborted) ∧
        (∀ op size, (C'.sys.threads u).pc ≠ .lock q op size) ∧
        ∀ order rest, (C'.sys.threads u).pc = .lockQueues order (q :: rest) →
          c.pc = .unlockQueues true order := by
  have hs := Run.safe hC .init
  have hr := hs.ready t
  rw [hidle] at hr
  have hl : (C.sys.ctx t).Leaked t q :=
    ⟨ho, hout, hr q, by simp only [Sys.ctx, hidle]; exact id⟩
  obtain ⟨hl', hq, hc⟩ := h.leaked hs hl
  exact ⟨hq, hc, fun u e c r hu hstep =>
    Ctx.step_of_locked (c := C'.sys.ctx u) hl'.owns hu hstep⟩

/-- Thread 1's transaction took the lock of queue 0 and was aborted by a list; its `TXend` is over.
Thread 0's transaction cannot dequeue. -/
theorem Run.shut_out_aborted : ∃ C C' : Conf Nat Nat, Reach (fun _ _ _ => True) C ∧
    Run (Shuns 1 0) C C' ∧ C'.sys.contents 0 = [5] ∧
    ∃ c, (C'.sys.ctx 0).step 0 (.go .valid) = some (c, some .aborted) := by
  have hrun : ((Conf.init : Conf Nat Nat).run (fun _ _ _ => True)
      [(0, .call 0 (.enqueue 5)), (0, .go .valid), (0, .go .valid), (0, .go .valid),
        (0, .go .valid), (1, .txBegin), (1, .call 0 .dequeue), (1, .txEnd [] true),
        (1, .go .valid), (1, .txBegin), (1, .call 0 .dequeue), (1, .go .valid),
        (1, .listAbort false)]).any
      (fun C => decide (((C.sys.threads 1).pc = .idle ∧ (C.sys.queues 0).owner = some 1 ∧
        (C.sys.threads 1).storage.TX = false) ∧ C.sys.contents 0 = [5]) &&
        (C.run (Shuns 1 0) [(1, .txEnd [0] true), (1, .go .valid), (1, .go .valid), (0, .txBegin),
          (0, .call 0 .dequeue)]).any
          fun C' => decide ((C'.sys.threads 0).pc = .tryLock 0 .dequeue)) = true := by decide
  obtain ⟨C, hC, hp⟩ := exists_run hrun
  rw [Bool.and_eq_true] at hp
  obtain ⟨⟨hidle, ho, hT⟩, hc⟩ := of_decide_eq_true hp.1
  obtain ⟨C', hC', hp'⟩ := exists_run hp.2
  have hpc := of_decide_eq_true hp'
  obtain ⟨-, hc', hout⟩ := Run.shut_out hC hidle ho (.inl hT) hC'
  refine ⟨C, C', hC, hC', hc'.trans hc, ?_⟩
  have hstep : ((C'.sys.ctx 0).step 0 (.go .valid)).isSome := by
    refine ((Run.safe hC' (Run.safe hC .init)).ctx 0 |>.step_isSome ?_).2 ?_
    · unfold Ctx.Fits
      rw [show (C'.sys.ctx 0).pc = _ from hpc]
      trivial
    · rintro ⟨q, op, size, u, hw, -⟩
      rw [show (C'.sys.ctx 0).pc = _ from hpc] at hw
      simp at hw
  obtain ⟨⟨c, r⟩, hcr⟩ := Option.isSome_iff_exists.1 hstep
  obtain rfl := (hout 0 _ c r (by decide) hcr).1 _ hpc
  exact ⟨c, hcr⟩

end Conf

end TxQueue
