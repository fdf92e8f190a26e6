import TxList.Proofs.Turns

/-!
# Held locks

A thread that keeps to the lock discipline unlocks only what it has locked, and stores to a node whose
lock it holds only words with the lock bit. The programs of the singleton operations and of `TXend` all
keep to it. What can still take a lock from a thread, or make its `unlock` fail, is a store by a thread
that does not hold the lock: there are two, the stamp of a new node, which is published before it is
stamped, and the cleared mark of a node that `TXend` has read and not locked.
-/

namespace TxList

variable {K V : Type} {m : Nat}

/-- The failed assertion is one of `unlock`. -/
def Fault.ofUnlock : Fault → Bool
  | .unlockNotLocked | .unlockFailed => true
  | _ => false

/-- A program that is to go on with the locks `H` held keeps to the lock discipline. The words that
are still to be loaded are in none yet. -/
def Pc.Keeps (H : Finset NodeId) : Pc K V m → Prop
  | .stopped f => f.ofUnlock = false
  | .tryLockCas _ _ _ _ | .unlockCas _ _ _ | .store _ _ _ => False
  | .test _ _ yes no => yes.Keeps H ∧ no.Keeps H
  | .tryLock n yes no => (n ∉ H → yes.Keeps (insert n H)) ∧ no.Keeps H
  | .unlock n k => n ∈ H ∧ k.Keeps (H.erase n)
  | .set _ _ k | .setNext _ _ k | .setVal _ _ k | .increment k | .indexAdd _ _ k | .indexRemove _ _ k
  | .retire _ k => k.Keeps H
  | .putCheck _ _ _ n _ | .putRead _ _ _ n | .putVersion _ _ _ n _ | .insertSame _ _ _ n _
  | .insertNew _ _ _ n _ | .insertNext _ _ _ n _ | .insertLink _ _ _ n _ _ | .insertPublish _ _ _ n _
  | .insertVersion _ _ _ n _ | .removeSame _ _ n _ => H = {n}
  | .removeRead _ _ pred next | .removeSecond _ _ pred next _ | .removeAfter _ _ pred next _ _
  | .removeUnlink _ _ pred next _ _ _ | .removeVersion _ _ pred next _ => next ≠ pred ∧ H = {next, pred}
  | .commit _ locked => locked.Nodup ∧ H = locked.toFinset
  | .release locked k => locked.Nodup ∧ H = locked.toFinset ∧ k.Keeps ∅
  | _ => H = ∅

/-- A thread that holds the locks `H` follows the discipline. Between the load and the
`compare_exchange_strong` of an `unlock` the word is as loaded. -/
def Pc.Follows (s : Shared K V m) (H : Finset NodeId) : Pc K V m → Prop
  | .tryLockCas n l yes no => l.lock = false ∧ (Pc.tryLock n yes no).Keeps H
  | .unlockCas n l k => l.lock = true ∧ (s.mem n).word = l ∧ (Pc.unlock n k).Keeps H
  | .store n w k => (n ∈ H → w.lock = true) ∧ k.Keeps H
  | k => k.Keeps H

namespace Pc

variable {H : Finset NodeId} {k abort ok : Pc K V m}

theorem Keeps.ite {c : Prop} [Decidable c] {k k' : Pc K V m} (h : k.Keeps H) (h' : k'.Keeps H) :
    (if c then k else k').Keeps H := by
  split_ifs
  · exact h
  · exact h'

theorem keeps_start (op : Access K V m) : (start op).Keeps ∅ := rfl

theorem keeps_loop (op : Access K V m) (pred : NodeId) : ∀ o, (loop op pred o).Keeps ∅
  | none => rfl
  | some _ => rfl

theorem keeps_unlockAll : ∀ {ns : List NodeId}, ns.Nodup → k.Keeps ∅ →
    (ns.foldr Pc.unlock k).Keeps ns.toFinset
  | [], _, hk => by simpa using hk
  | n :: ns, hnd, hk => by
    obtain ⟨hn, hnd⟩ := List.nodup_cons.1 hnd
    refine ⟨by simp, ?_⟩
    have he : (n :: ns).toFinset.erase n = ns.toFinset := by
      rw [List.toFinset_cons, Finset.erase_insert (by simpa using hn)]
    rw [he]
    exact keeps_unlockAll hnd hk

theorem keeps_validate (rv : Nat) (locked : List NodeId) (ha : abort.Keeps H) (ho : ok.Keeps H) :
    ∀ ns : List NodeId, (validate rv locked abort ok ns).Keeps H
  | [] => ho
  | n :: ns => by
    have ih := keeps_validate rv locked ha ho ns
    simp only [validate]
    split_ifs
    · exact ⟨ha, ⟨ha, ih⟩, ih⟩
    · exact ⟨ha, ha, ⟨ha, ih⟩, ih⟩

theorem keeps_writeBack (wv : Nat) (hk : k.Keeps H) : ∀ ws : List (NodeId × WriteElement V),
    (writeBack wv k ws).Keeps H
  | [] => hk
  | (n, we) :: ws => by
    have ih := keeps_writeBack wv hk ws
    simp only [writeBack]
    split_ifs
    · exact ih
    · exact ih

theorem keeps_updateIndex (job : Job V m) : (updateIndex job : Pc K V m).Keeps ∅ := by
  have hrem : ∀ xs : List (ListId m × NodeId), Pc.Keeps ∅ (xs.foldr
      (fun x k => .indexRemove x.1 x.2 (.retire x.2 k)) (.ended true : Pc K V m)) := by
    intro xs
    induction xs with
    | nil => rfl
    | cons x xs ih => exact ih
  simp only [updateIndex]
  induction job.indexAdd with
  | nil => exact hrem _
  | cons x xs ih => exact ih

theorem keeps_lockWriteSet (job : Job V m) : ∀ (ns : List NodeId) {locked : List NodeId},
    locked.Nodup → (lockWriteSet job ns locked : Pc K V m).Keeps locked.toFinset
  | [], locked, hnd => by
    have hr : ∀ b, (Pc.release locked (.ended b) : Pc K V m).Keeps locked.toFinset :=
      fun _ => ⟨hnd, rfl, rfl⟩
    have hc : (Pc.commit job locked : Pc K V m).Keeps locked.toFinset := ⟨hnd, rfl⟩
    exact keeps_validate _ _ (hr false) (.ite (hr true) hc) _
  | n :: ns, locked, hnd => by
    refine ⟨fun hn => ?_, hnd, rfl, rfl⟩
    have hnd' : (n :: locked).Nodup := List.nodup_cons.2 ⟨by simpa using hn, hnd⟩
    have hk : (lockWriteSet job ns (n :: locked) : Pc K V m).Keeps (n :: locked).toFinset :=
      keeps_lockWriteSet job ns hnd'
    rwa [List.toFinset_cons] at hk

theorem keeps_TXend (job : Job V m) : (TXend job : Pc K V m).Keeps ∅ := by
  simp only [TXend]
  split_ifs
  · exact keeps_lockWriteSet job _ List.nodup_nil
  · exact ⟨List.nodup_nil, rfl, rfl⟩

theorem Keeps.follows {s : Shared K V m} (h : k.Keeps H) : k.Follows s H := by
  cases k with
  | tryLockCas n l yes no | unlockCas n l k | store n w k => exact h.elim
  | _ => exact h

theorem Keeps.find {op : Access K V m} {b : Bool} {pred : NodeId} {next : Option NodeId} :
    (find op b pred next).Keeps ∅ := by
  have herase : ({pred} : Finset NodeId).erase pred = ∅ := by simp
  have hins : insert pred (∅ : Finset NodeId) = {pred} := rfl
  have hlock : ∀ {op : Access K V m} {k : Pc K V m}, k.Keeps {pred} →
      (Pc.tryLock pred (.test pred .isDeleted (.unlock pred (start op)) k) (start op)).Keeps ∅ := by
    intro op k hk
    refine ⟨fun _ => ⟨⟨by simp, ?_⟩, ?_⟩, rfl⟩
    · rw [hins, herase]
      rfl
    · rwa [hins]
  cases op with
  | put l key val =>
    cases b with
    | true => rfl
    | false => exact hlock rfl
  | remove l key =>
    cases b with
    | true => exact hlock rfl
    | false => rfl
  | get l key =>
    cases b with
    | true =>
      cases next with
      | none => trivial
      | some y => rfl
    | false => rfl

theorem erase_pair {a b : NodeId} (h : a ≠ b) : ({a, b} : Finset NodeId).erase a = {b} := by
  rw [Finset.erase_insert (by simpa using h)]

theorem Keeps.unlock_restart {op : Access K V m} {n : NodeId} : (Pc.unlock n (start op)).Keeps {n} :=
  ⟨by simp, by simp [start, Keeps]⟩

/-- A thread that follows the discipline, and finds the lock bit on the nodes it holds, takes a step and
follows it still. -/
theorem Follows.step [LinearOrder K] {s : Shared K V m} {d : Draw} (h : k.Follows s H)
    (hl : ∀ n ∈ H, (s.mem n).word.lock = true) :
    ∀ e k', k.step s d = some (e, k') → k'.Follows (e.apply s) (e.held H) := by
  cases k with
  | idle | returned op ret | ended b | stopped w => simp [Pc.step]
  | test n p yes no => exact after (h.1.ite h.2).follows
  | tryLock n yes no =>
    refine after ?_
    dsimp only
    split_ifs with hw
    · exact h.2.follows
    · exact ⟨by simpa using hw, h⟩
  | tryLockCas n l yes no =>
    obtain ⟨hlock, hyes, hno⟩ := h
    simp only [Pc.step]
    split_ifs with hw
    · refine after (Keeps.follows (hyes fun hn => ?_))
      have hset := hl n hn
      rw [hw, hlock] at hset
      simp at hset
    · exact after hno.follows
  | unlock n k =>
    have hw : (s.mem n).word.lock = true := hl n h.1
    refine after ?_
    dsimp only
    rw [if_pos hw]
    exact ⟨hw, rfl, h⟩
  | unlockCas n l k =>
    obtain ⟨-, hw, -, hk⟩ := h
    simp only [Pc.step, if_pos hw]
    exact after hk.follows
  | set n f k =>
    refine after ?_
    dsimp only
    split_ifs with hf
    · trivial
    · refine ⟨fun hn => ?_, h⟩
      have hw : (s.mem n).word.lock = true := hl n hn
      cases f <;> exact hw
  | store n w k => exact after h.2.follows
  | setNext n o k | setVal n o k | increment k | retire n k => exact after (Keeps.follows h)
  | indexAdd l n k | indexRemove l n k =>
    simp only [Pc.step, Option.map_eq_some_iff, Prod.mk.injEq]
    rintro e k' ⟨ix, -, rfl, rfl⟩
    exact Keeps.follows h
  | getPred op key =>
    simp only [Pc.step, Option.map_eq_some_iff, Prod.mk.injEq]
    rintro e k' ⟨x, -, rfl, rfl⟩
    exact h
  | predTest op pred =>
    obtain rfl : H = ∅ := h
    exact after (Keeps.follows (Keeps.ite (.ite rfl rfl) rfl))
  | firstTest op pred | nextLocked op pred next | nextSame op pred next =>
    obtain rfl : H = ∅ := h
    exact after (Keeps.follows (Keeps.ite rfl rfl))
  | firstNext op pred | advanceNext op pred | reread op pred next => exact after h
  | firstRetest op pred o | advanceTest op pred o =>
    obtain rfl : H = ∅ := h
    exact after (Keeps.follows (Keeps.ite rfl (keeps_loop op pred o)))
  | nextTest op pred next =>
    obtain rfl : H = ∅ := h
    exact after (Keeps.follows (Keeps.ite rfl (.ite rfl (.ite rfl rfl))))
  | advance op pred next =>
    rcases hp : (s.mem pred).next with _ | y <;> simp only [Pc.step, hp] <;> exact after h
  | found op b pred o =>
    obtain rfl : H = ∅ := h
    exact after Keeps.find.follows
  | putNode l key val pred o =>
    obtain rfl : H = ∅ := h
    rcases hp : (s.mem pred).next with _ | y <;> simp only [Pc.step, hp]
    · exact after rfl
    · refine after ⟨fun _ => ?_, rfl⟩
      rfl
  | putCheck l key val node o =>
    obtain rfl : H = {node} := h
    cases o with
    | none => exact after rfl
    | some y => exact after (Keeps.follows (Keeps.ite .unlock_restart ⟨.unlock_restart, rfl⟩))
  | putRead l key val node => exact after h
  | putVersion l key val node ret =>
    obtain rfl : H = {node} := h
    exact after ⟨Finset.mem_singleton_self _, Finset.erase_singleton _⟩
  | insertSame l key val pred o =>
    obtain rfl : H = {pred} := h
    exact after (Keeps.follows (Keeps.ite .unlock_restart rfl))
  | insertNew l key val pred o =>
    obtain rfl : H = {pred} := h
    exact after (Keeps.follows (Keeps.ite rfl rfl))
  | insertNext l key val pred n | insertLink l key val pred n o | insertPublish l key val pred n =>
    exact after h
  | insertVersion l key val pred n =>
    obtain rfl : H = {pred} := h
    exact after ⟨Finset.mem_singleton_self _, Finset.erase_singleton _⟩
  | removeSame l key pred o =>
    obtain rfl : H = {pred} := h
    refine after (Keeps.follows (Keeps.ite .unlock_restart ?_))
    cases o with
    | none => trivial
    | some y => exact ⟨fun hy => ⟨Finset.notMem_singleton.1 hy, rfl⟩, .unlock_restart⟩
  | removeRead l key pred next => exact after h
  | removeSecond l key pred next ret =>
    rcases hp : (s.mem pred).next with _ | y <;> simp only [Pc.step, hp]
    · exact after rfl
    · exact after h
  | removeAfter l key pred next second ret | removeUnlink l key pred next second o ret => exact after h
  | removeVersion l key pred next ret =>
    obtain ⟨hne, rfl⟩ := h
    refine after ⟨Finset.mem_insert_self _ _, ?_⟩
    show (Pc.unlock pred _).Keeps (({next, pred} : Finset NodeId).erase next)
    rw [erase_pair hne]
    exact ⟨Finset.mem_singleton_self _, Finset.erase_singleton _⟩
  | getVal l key next => exact after h
  | commit job locked =>
    obtain ⟨hnd, rfl⟩ := h
    have hk : (Pc.release locked (updateIndex job) : Pc K V m).Keeps locked.toFinset :=
      ⟨hnd, rfl, keeps_updateIndex job⟩
    exact after (Keeps.follows (Keeps.ite (keeps_writeBack _ hk _) rfl))
  | release locked k =>
    obtain ⟨hnd, rfl, hk⟩ := h
    simp only [Pc.step]
    split_ifs with ho
    · refine after (Keeps.follows ?_)
      show (d.order.foldr Pc.unlock k).Keeps locked.toFinset
      rw [← List.toFinset_eq_of_perm _ _ ho]
      exact keeps_unlockAll (ho.nodup_iff.2 hnd) hk
    · simp

/-- What a thread that follows the discipline does to version words. -/
def Owns (s : Shared K V m) (H : Finset NodeId) : Effect K V m → Prop
  | .lock n w => n < s.fresh ∧ (s.mem n).word.lock = false ∧ w.lock = true
  | .unlock n _ => n ∈ H
  | .store n w => n ∈ H → w.lock = true
  | _ => True

theorem Follows.owns [LinearOrder K] {s : Shared K V m} {d : Draw} (h : k.Follows s H)
    (hw : k.Within s.fresh) : ∀ e k', k.step s d = some (e, k') → Owns s H e := by
  cases k with
  | idle | returned op ret | ended b | stopped w => simp [Pc.step]
  | tryLockCas n l yes no =>
    simp only [Pc.step]
    split_ifs with hl
    · exact after ⟨hw.1, by rw [hl]; exact h.1, rfl⟩
    · exact after trivial
  | unlockCas n l k =>
    simp only [Pc.step]
    split_ifs with hl
    · exact after h.2.2.1
    · exact after trivial
  | store n w k => exact after h.1
  | indexAdd l n k | indexRemove l n k | getPred op key =>
    simp only [Pc.step, Option.map_eq_some_iff, Prod.mk.injEq]
    rintro e k' ⟨x, -, rfl, rfl⟩
    trivial
  | advance op pred next =>
    rcases hp : (s.mem pred).next with _ | y <;> simp only [Pc.step, hp] <;> exact after trivial
  | putNode l key val pred o =>
    rcases hp : (s.mem pred).next with _ | y <;> simp only [Pc.step, hp] <;> exact after trivial
  | removeSecond l key pred next ret =>
    rcases hp : (s.mem pred).next with _ | y <;> simp only [Pc.step, hp] <;> exact after trivial
  | putCheck l key val node o => cases o <;> exact after trivial
  | release locked k =>
    simp only [Pc.step]
    split_ifs
    · exact after trivial
    · simp
  | _ => exact after trivial

end Pc

/-! ## Runs -/

namespace Machine

variable [LinearOrder K] {minKey : K} {dflt : V} {M : Machine K V m}

/-- A lock that is taken is kept: the lock bit stays, no `tryLock` takes the lock again, and no
assertion of `unlock` fails. -/
structure LocksKept (M : Machine K V m) : Prop where
  locked : ∀ t, ∀ n ∈ M.held t, (M.shared.mem n).word.lock = true
  exclusive : ∀ t d n w k, (M.pc t).step M.shared d = some (.lock n w, k) → ∀ u, n ∉ M.held u
  unlocks : ∀ t f, M.pc t = .stopped f → f.ofUnlock = false

/-- A store to a node by a thread that has not locked it leaves the lock bit when another thread holds
the lock, and does not come between the load and the `compare_exchange_strong` of another thread's
`unlock` with another word. -/
def StoresHarmless : Guard K V m := fun M t mv =>
  ∀ n w k, M.effect t mv = some (.store n w, k) → n ∉ M.held t →
    (∀ u, n ∈ M.held u → w.lock = true) ∧ ∀ u l k', M.pc u = .unlockCas n l k' → l = w

/-- Every thread follows the discipline, and the locks are as the threads hold them. -/
structure Disciplined (M : Machine K V m) : Prop where
  follows : ∀ t, (M.pc t).Follows M.shared (M.held t)
  locked : ∀ t, ∀ n ∈ M.held t, n < M.shared.fresh ∧ (M.shared.mem n).word.lock = true
  disjoint : ∀ t u, t ≠ u → Disjoint (M.held t) (M.held u)

omit [LinearOrder K] in
theorem Disciplined.init : (init minKey dflt : Machine K V m).Disciplined := by
  refine ⟨fun _ => rfl, fun _ n hn => ?_, fun _ _ _ => ?_⟩
  · simp [Machine.init] at hn
  · simp [Machine.init]

variable {t : ThreadId} {mv : Move K V m} {e : Effect K V m} {k : Pc K V m}

theorem Disciplined.effect (h : M.Disciplined) (hw : M.Within) (he : M.effect t mv = some (e, k)) :
    k.Follows (e.apply M.shared) (e.held (M.held t)) ∧ Pc.Owns M.shared (M.held t) e := by
  have hrest : (M.pc t).resting = true → M.held t = ∅ := by
    intro hr
    have hf := h.follows t
    revert hr hf
    rcases M.pc t with _ | _ | _ | _ <;> simp [Pc.resting, Pc.Follows, Pc.Keeps]
  obtain ⟨op, -, hr, rfl, rfl⟩ | ⟨key, val, next, -, hr, -, rfl, rfl⟩ | ⟨-, hr, rfl, rfl⟩ |
    ⟨job, -, hr, -, rfl, rfl⟩ | ⟨d, -, hs⟩ := effect_cases he
  · rw [hrest hr]
    exact ⟨(Pc.keeps_start op).follows, trivial⟩
  · rw [hrest hr]
    exact ⟨rfl, trivial⟩
  · rw [hrest hr]
    exact ⟨rfl, trivial⟩
  · rw [hrest hr]
    exact ⟨(Pc.keeps_TXend job).follows, trivial⟩
  · exact ⟨(h.follows t).step (fun n hn => (h.locked t n hn).2) e k hs,
      (h.follows t).owns (hw.pc t) e k hs⟩

/-- What a step does to a word when all keep to the discipline and unlocked stores do no harm: a word of
a locked node stays as it is, but for its holder's stores. -/
theorem Disciplined.word (h : M.Disciplined) (hw : M.Within) (hg : StoresHarmless M t mv)
    (he : M.effect t mv = some (e, k)) {u : ThreadId} (hu : u ≠ t) {n : NodeId} (hn : n ∈ M.held u) :
    ((e.apply M.shared).mem n).word.lock = true ∧ ∀ l k', M.pc u = .unlockCas n l k' →
      (M.shared.mem n).word = l → ((e.apply M.shared).mem n).word = l := by
  obtain ⟨hlt, hlock⟩ := h.locked u n hn
  have howns := (h.effect hw he).2
  have hnt : n ∉ M.held t := fun ht => (Finset.disjoint_left.1 (h.disjoint u t hu)) hn ht
  rcases Effect.word_apply (e := e) hlt with hsame | hst
  · rw [hsame]
    exact ⟨hlock, fun _ _ _ => id⟩
  · cases e with
    | store j w =>
      obtain ⟨rfl, hw'⟩ := hst
      obtain ⟨h1, h2⟩ := hg j w k he hnt
      rw [← hw']
      exact ⟨h1 u hn, fun l k' hpc _ => (h2 u l k' hpc).symm⟩
    | lock j w =>
      obtain ⟨rfl, -⟩ := hst
      rw [howns.2.1] at hlock
      simp at hlock
    | unlock j w =>
      obtain ⟨rfl, -⟩ := hst
      exact absurd howns hnt
    | _ => exact hst.elim

theorem Disciplined.step (h : M.Disciplined) (hw : M.Within) (hg : StoresHarmless M t mv)
    (he : M.effect t mv = some (e, k)) : (M.put t e k).Disciplined := by
  obtain ⟨hf, howns⟩ := h.effect hw he
  have hfresh : M.shared.fresh ≤ (e.apply M.shared).fresh := Effect.fresh_le
  have hheld : ∀ n ∈ e.held (M.held t), n ∈ M.held t ∨ ∃ w, e = .lock n w := by
    intro n hn
    cases e with
    | lock j w =>
      rcases Finset.mem_insert.1 hn with rfl | hn
      · exact .inr ⟨w, rfl⟩
      · exact .inl hn
    | unlock j w => exact .inl (Finset.mem_of_mem_erase hn)
    | _ => exact .inl hn
  refine ⟨fun u => ?_, fun u n hn => ?_, fun u v huv => ?_⟩
  · by_cases hu : u = t
    · subst hu
      simpa [put] using hf
    · have hfu := h.follows u
      simp only [put, Function.update_of_ne hu]
      rcases hpc : M.pc u <;> rw [hpc] at hfu
      case unlockCas n l k' =>
        obtain ⟨h1, h2, h3⟩ := hfu
        exact ⟨h1, (h.word hw hg he hu h3.1).2 l k' hpc h2, h3⟩
      all_goals exact hfu
  · by_cases hu : u = t
    · subst hu
      simp only [put, Function.update_self] at hn ⊢
      rcases hheld n hn with hold | ⟨w, rfl⟩
      · obtain ⟨hlt, hlock⟩ := h.locked u n hold
        refine ⟨hlt.trans_le hfresh, ?_⟩
        rcases Effect.word_apply (e := e) hlt with hsame | hst
        · rw [hsame]
          exact hlock
        · cases e with
          | store j w =>
            obtain ⟨rfl, hw'⟩ := hst
            rw [← hw']
            exact howns hold
          | lock j w =>
            obtain ⟨rfl, -⟩ := hst
            rw [howns.2.1] at hlock
            simp at hlock
          | unlock j w =>
            obtain ⟨rfl, -⟩ := hst
            simp [Effect.held] at hn
          | _ => exact hst.elim
      · exact ⟨howns.1, by simpa [Effect.apply, Shared.mem_setNode] using howns.2.2⟩
    · simp only [put, Function.update_of_ne hu] at hn ⊢
      exact ⟨(h.locked u n hn).1.trans_le hfresh, (h.word hw hg he hu hn).1⟩
  · have hnew : ∀ {u : ThreadId}, u ≠ t → Disjoint (M.held u) (e.held (M.held t)) := by
      intro u hu
      refine Finset.disjoint_left.2 fun n hn hn' => ?_
      rcases hheld n hn' with hold | ⟨w, rfl⟩
      · exact Finset.disjoint_left.1 (h.disjoint u t hu) hn hold
      · have hlock := (h.locked u n hn).2
        rw [howns.2.1] at hlock
        simp at hlock
    by_cases hu : u = t
    · subst hu
      simpa [put, Function.update_of_ne huv.symm] using (hnew huv.symm).symm
    · by_cases hv : v = t
      · subst hv
        simpa [put, Function.update_of_ne hu] using hnew hu
      · simpa [put, Function.update_of_ne hu, Function.update_of_ne hv] using h.disjoint u v huv

theorem Reach.disciplined (hr : Reach minKey dflt StoresHarmless M) : M.Disciplined :=
  hr.keeps .init fun hr hg he h => h.step hr.within hg he

theorem held_locks_kept (hr : Reach minKey dflt StoresHarmless M) : M.LocksKept := by
  have hd := hr.disciplined
  refine ⟨fun t n hn => (hd.locked t n hn).2, fun t d n w k hs u hu => ?_, fun t f hf => ?_⟩
  · have howns := (hd.follows t).owns (hr.within.pc t) _ k hs
    have hlock := (hd.locked u n hu).2
    rw [howns.2.1] at hlock
    simp at hlock
  · have hfl := hd.follows t
    rw [hf] at hfl
    exact hfl

/-- No store of this step does harm, as far as the threads below `B` go. -/
def storesHarmless (B : Nat) (M : Machine K V m) (t : ThreadId) (mv : Move K V m) : Bool :=
  match M.effect t mv with
  | some (.store n w, _) => decide (n ∈ M.held t) || (List.range B).all fun u =>
      (decide (n ∉ M.held u) || w.lock) && match M.pc u with
        | .unlockCas j l _ => decide (j ≠ n ∨ l = w)
        | _ => true
  | _ => true

theorem Idle.storesHarmless {B : Nat} {t : ThreadId} {mv : Move K V m} (h : M.Idle B)
    (hs : storesHarmless B M t mv = true) : StoresHarmless M t mv := by
  intro n w k he hn
  simp only [Machine.storesHarmless, he, hn, decide_false, Bool.false_or] at hs
  refine ⟨fun u hu => ?_, fun u l k' hpc => ?_⟩
  · by_cases hB : u < B
    · have := List.all_eq_true.1 hs u (List.mem_range.2 hB)
      simpa [hu] using (Bool.and_eq_true_iff.1 this).1
    · rw [(h u (Nat.le_of_not_lt hB)).2] at hu
      simp at hu
  · by_cases hB : u < B
    · have := List.all_eq_true.1 hs u (List.mem_range.2 hB)
      simpa [hpc] using (Bool.and_eq_true_iff.1 this).2
    · rw [(h u (Nat.le_of_not_lt hB)).1] at hpc
      simp at hpc

/-- The storage of a transaction that has put the new node `n` after the head of list `l`. -/
def newNodeJob (l : ListId m) (n : NodeId) : Job Nat m where
  TX := true
  readOnly := false
  readVersion := 0
  writeSet := [(head l, { next := some n, val := some 0 })]
  readSet := [head l]
  indexAdd := [(l, n)]
  indexRemove := []

/-- Thread `0`'s transaction allocates its node while thread `1` looks for the place of another key, and
publishes it in `TXend` when thread `1` is about to lock the head. -/
theorem held_locks_kept_publishing : ∃ M : Machine Nat Nat 1, Reach 0 0 StoresHarmless M ∧
    (M.shared.mem 0).next = some 1 ∧ 0 ∈ M.held 0 ∧ M.LocksKept := by
  obtain ⟨M, hr, -, hp⟩ := exists_reach (G := StoresHarmless) 0 0
    (turn 1 (some (.put 0 7 70)) 1 ++ (0, .newNode 5 50 none) :: turn 0 none 1 ++
      turn 1 none 4 ++ (0, .txEnd (newNodeJob 0 1)) :: turn 0 none 7 ++ turn 1 none 2 ++ turn 0 none 1)
    (fun M : Machine Nat Nat 1 => decide ((M.shared.mem 0).next = some 1 ∧ 0 ∈ M.held 0)) (B := 2)
    (fun _ _ _ hI hs => hI.storesHarmless hs) (by decide +kernel)
  obtain ⟨hn, hh⟩ := of_decide_eq_true hp
  exact ⟨M, hr, hn, hh, held_locks_kept hr⟩

/-- Thread `1` is about to read the head's `m_next` once more, where it has found the key `7`, when
thread `0` publishes a node with the key `5` there. It locks the new node, and the stamp takes the lock
away. -/
theorem held_lock_lost : ¬ ∀ M : Machine Nat Nat 1, Reach 0 0 SingletonsOnly M → M.LocksKept := by
  intro h
  obtain ⟨M, hr, -, hp⟩ := exists_reach_of_decidable (G := SingletonsOnly) 0 0 2
    (turn 1 (some (.put 0 7 70)) 18 ++ turn 1 (some (.put 0 7 71)) 8 ++ turn 0 (some (.put 0 5 50)) 17 ++
      turn 1 none 3 ++ turn 0 none 1)
    (fun M : Machine Nat Nat 1 => decide (2 ∈ M.held 1) && !(M.shared.mem 2).word.lock) (by decide +kernel)
  rw [Bool.and_eq_true, decide_eq_true_eq] at hp
  have hlock := (h M hr).locked 1 2 hp.1
  rw [hlock] at hp
  simp at hp

end Machine

end TxList
