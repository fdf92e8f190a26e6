import TxList.Machine
import TxList.Proofs.IndexFrame

/-!
# What every step of the machine keeps

A step changes the shared memory by its effect alone. Whatever the threads do, the pointers in the
nodes, in the indexes and in what the threads have still to do are to nodes that are allocated, so the
node a step allocates is one that no thread has seen.
-/

namespace TxList

variable {K V : Type} {m : Nat}

/-! ## Effects -/

section Effects

variable {e : Effect K V m} {s : Shared K V m} {n : NodeId}

theorem Shared.mem_setNode (s : Shared K V m) (n k : NodeId) (x : LNode K V) :
    (s.setNode n x).mem k = if k = n then x else s.mem k := Function.update_apply _ _ _ _

theorem Effect.fresh_le : s.fresh ≤ (e.apply s).fresh := by
  cases e with
  | alloc key val => exact Nat.le_succ _
  | _ => exact le_rfl

/-- The key of an allocated node stays. -/
theorem Effect.key_apply (h : n < s.fresh) : ((e.apply s).mem n).key = (s.mem n).key := by
  cases e with
  | store k w | lock k w | unlock k w | next k o | val k o =>
    simp only [Effect.apply, Shared.mem_setNode]
    split_ifs with hk
    · rw [hk]
    · rfl
  | alloc key val => simp only [Effect.apply, Shared.mem_setNode, if_neg (show n ≠ s.fresh from h.ne)]
  | _ => rfl

/-- The pointer of an allocated node stays, but for a write to it. -/
theorem Effect.next_apply (h : n < s.fresh) :
    ((e.apply s).mem n).next = (s.mem n).next ∨ e = .next n ((e.apply s).mem n).next := by
  cases e with
  | store k w | lock k w | unlock k w | val k o =>
    simp only [Effect.apply, Shared.mem_setNode]
    split_ifs with hk
    · exact .inl (by rw [hk])
    · exact .inl rfl
  | next k o =>
    simp only [Effect.apply, Shared.mem_setNode]
    split_ifs with hk
    · exact .inr (by rw [hk])
    · exact .inl rfl
  | alloc key val =>
    exact .inl (by simp only [Effect.apply, Shared.mem_setNode, if_neg (show n ≠ s.fresh from h.ne)])
  | _ => exact .inl rfl

/-- The effect sets the version word of `n` to `w`. -/
def Effect.Stamps (n : NodeId) (w : Word) : Effect K V m → Prop
  | .store k w' | .lock k w' | .unlock k w' => k = n ∧ w' = w
  | _ => False

theorem Effect.word_apply (h : n < s.fresh) :
    ((e.apply s).mem n).word = (s.mem n).word ∨ e.Stamps n ((e.apply s).mem n).word := by
  cases e with
  | store k w | lock k w | unlock k w =>
    simp only [Effect.apply, Shared.mem_setNode]
    split_ifs with hk
    · exact .inr ⟨hk.symm, rfl⟩
    · exact .inl rfl
  | next k o | val k o =>
    simp only [Effect.apply, Shared.mem_setNode]
    split_ifs with hk
    · exact .inl (by rw [hk])
    · exact .inl rfl
  | alloc key val =>
    exact .inl (by simp only [Effect.apply, Shared.mem_setNode, if_neg (show n ≠ s.fresh from h.ne)])
  | _ => exact .inl rfl

end Effects

/-! ## Pointers -/

/-- The pointer is to a node that is allocated, if it is not null. -/
def Below (f : Nat) (o : Option NodeId) : Prop := ∀ y, o = some y → y < f

theorem Below.some {f : Nat} {y : NodeId} (h : y < f) : Below f (some y) := by
  rintro _ ⟨⟩
  exact h

theorem Below.mono {f g : Nat} {o : Option NodeId} (h : Below f o) (hfg : f ≤ g) : Below g o :=
  fun y hy => (h y hy).trans_le hfg

/-- The pointers in what a thread has still to do are to nodes below `f`. -/
def Pc.Within (f : Nat) : Pc K V m → Prop
  | .idle | .returned _ _ | .ended _ | .stopped _ | .getPred _ _ => True
  | .test n _ yes no | .tryLock n yes no | .tryLockCas n _ yes no =>
    n < f ∧ yes.Within f ∧ no.Within f
  | .unlock n k | .unlockCas n _ k | .set n _ k | .store n _ k | .setVal n _ k | .indexAdd _ n k
  | .indexRemove _ n k | .retire n k => n < f ∧ k.Within f
  | .setNext n o k => n < f ∧ Below f o ∧ k.Within f
  | .increment k => k.Within f
  | .predTest _ pred | .firstTest _ pred | .firstNext _ pred | .advanceNext _ pred => pred < f
  | .firstRetest _ pred o | .advanceTest _ pred o | .found _ _ pred o | .putNode _ _ _ pred o
  | .putCheck _ _ _ pred o | .insertSame _ _ _ pred o | .insertNew _ _ _ pred o
  | .removeSame _ _ pred o => pred < f ∧ Below f o
  | .nextTest _ pred next | .reread _ pred next | .nextLocked _ pred next | .nextSame _ pred next
  | .advance _ pred next | .insertNext _ _ _ pred next | .insertPublish _ _ _ pred next
  | .insertVersion _ _ _ pred next
  | .removeRead _ _ pred next | .removeSecond _ _ pred next _ | .removeVersion _ _ pred next _ =>
    pred < f ∧ next < f
  | .putRead _ _ _ n | .putVersion _ _ _ n _ | .getVal _ _ n => n < f
  | .insertLink _ _ _ pred n after => pred < f ∧ n < f ∧ Below f after
  | .removeAfter _ _ pred next second _ => pred < f ∧ next < f ∧ second < f
  | .removeUnlink _ _ pred next second after _ => pred < f ∧ next < f ∧ second < f ∧ Below f after
  | .commit job locked => (∀ n ∈ job.nodes, n < f) ∧ ∀ n ∈ locked, n < f
  | .release locked k => (∀ n ∈ locked, n < f) ∧ k.Within f

/-- The pointers in shared memory are to nodes that are allocated. -/
structure Shared.Closed (s : Shared K V m) : Prop where
  heads : m ≤ s.fresh
  next : ∀ n, Below s.fresh (s.mem n).next
  index : ∀ l i, ((s.index l).nodes i).node < s.fresh

/-- The effect writes no pointer to a node that is not allocated. -/
def Effect.Within (s : Shared K V m) : Effect K V m → Prop
  | .next _ o => Below s.fresh o
  | .index _ ix => ∀ i, (ix.nodes i).node < s.fresh
  | _ => True

namespace Pc

variable {f g : Nat} {k abort ok : Pc K V m}

theorem Within.mono (hfg : f ≤ g) : ∀ {k : Pc K V m}, k.Within f → k.Within g := by
  intro k h
  induction k with
  | test n p yes no ihy ihn | tryLock n yes no ihy ihn | tryLockCas n l yes no ihy ihn =>
    exact ⟨h.1.trans_le hfg, ihy h.2.1, ihn h.2.2⟩
  | unlock n k ih | unlockCas n l k ih | set n p k ih | store n w k ih | setVal n o k ih
  | indexAdd l n k ih | indexRemove l n k ih | retire n k ih => exact ⟨h.1.trans_le hfg, ih h.2⟩
  | setNext n o k ih => exact ⟨h.1.trans_le hfg, h.2.1.mono hfg, ih h.2.2⟩
  | increment k ih => exact ih h
  | predTest op pred | firstTest op pred | firstNext op pred | advanceNext op pred
  | putRead l key val n | putVersion l key val n ret | getVal l key n => exact Nat.lt_of_lt_of_le h hfg
  | firstRetest op pred o | advanceTest op pred o | found op b pred o | putNode l key val pred o
  | putCheck l key val pred o | insertSame l key val pred o | insertNew l key val pred o
  | removeSame l key pred o => exact ⟨h.1.trans_le hfg, h.2.mono hfg⟩
  | nextTest op pred next | reread op pred next | nextLocked op pred next | nextSame op pred next
  | advance op pred next | insertNext l key val pred next | insertPublish l key val pred next
  | insertVersion l key val pred next
  | removeRead l key pred next | removeSecond l key pred next ret
  | removeVersion l key pred next ret => exact ⟨h.1.trans_le hfg, h.2.trans_le hfg⟩
  | removeAfter l key pred next second ret =>
    exact ⟨h.1.trans_le hfg, h.2.1.trans_le hfg, h.2.2.trans_le hfg⟩
  | insertLink l key val pred n after =>
    exact ⟨h.1.trans_le hfg, h.2.1.trans_le hfg, h.2.2.mono hfg⟩
  | removeUnlink l key pred next second after ret =>
    exact ⟨h.1.trans_le hfg, h.2.1.trans_le hfg, h.2.2.1.trans_le hfg, h.2.2.2.mono hfg⟩
  | commit job locked =>
    exact ⟨fun n hn => (h.1 n hn).trans_le hfg, fun n hn => (h.2 n hn).trans_le hfg⟩
  | release locked k ih => exact ⟨fun n hn => (h.1 n hn).trans_le hfg, ih h.2⟩
  | idle | returned op ret | ended b | stopped w | getPred op key => trivial

theorem within_loop {op : Access K V m} {pred : NodeId} (hp : pred < f) :
    ∀ {o : Option NodeId}, Below f o → (loop op pred o).Within f
  | none, h => ⟨hp, h⟩
  | some next, h => ⟨hp, h next rfl⟩

theorem within_unlockAll : ∀ {ns : List NodeId}, (∀ n ∈ ns, n < f) → k.Within f →
    (ns.foldr Pc.unlock k).Within f
  | [], _, hk => hk
  | n :: ns, h, hk =>
    ⟨h n (by simp), within_unlockAll (fun j hj => h j (by simp [hj])) hk⟩

theorem within_validate {rv : Nat} {locked : List NodeId} (ha : abort.Within f) (ho : ok.Within f) :
    ∀ {ns : List NodeId}, (∀ n ∈ ns, n < f) → (validate rv locked abort ok ns).Within f
  | [], _ => ho
  | n :: ns, h => by
    have hn : n < f := h n (by simp)
    have ih : (validate rv locked abort ok ns).Within f :=
      within_validate ha ho fun j hj => h j (by simp [hj])
    simp only [validate]
    split_ifs
    · exact ⟨hn, ha, hn, ⟨hn, ⟨hn, ha⟩, ih⟩, ih⟩
    · exact ⟨hn, ha, hn, ha, hn, ⟨hn, ⟨hn, ha⟩, ih⟩, ih⟩

theorem within_writeBack {wv : Nat} (hk : k.Within f) : ∀ {ws : List (NodeId × WriteElement V)},
    (∀ x ∈ ws, x.1 < f ∧ Below f x.2.next) → (writeBack wv k ws).Within f
  | [], _ => hk
  | (n, we) :: ws, h => by
    obtain ⟨hn, hnext⟩ := h (n, we) (by simp)
    have ih : (writeBack wv k ws).Within f := within_writeBack hk fun x hx => h x (by simp [hx])
    simp only [writeBack]
    split_ifs
    · exact ⟨hn, hnext, hn, hn, hn, hn, hn, ih⟩
    · exact ⟨hn, hnext, hn, hn, hn, ih⟩

theorem within_updateIndex {job : Job V m} (h : ∀ n ∈ job.nodes, n < f) :
    (updateIndex job : Pc K V m).Within f := by
  have hrem : ∀ xs : List (ListId m × NodeId), (∀ x ∈ xs, x.2 < f) → Pc.Within f (xs.foldr
      (fun x k => .indexRemove x.1 x.2 (.retire x.2 k)) (.ended true : Pc K V m)) := by
    intro xs hxs
    induction xs with
    | nil => trivial
    | cons x xs ih => exact ⟨hxs x (by simp), hxs x (by simp), ih fun y hy => hxs y (by simp [hy])⟩
  have hadd : ∀ {k : Pc K V m} (xs : List (ListId m × NodeId)), k.Within f → (∀ x ∈ xs, x.2 < f) →
      Pc.Within f (xs.foldr (fun x => .indexAdd x.1 x.2) k) := by
    intro k xs hk hxs
    induction xs with
    | nil => exact hk
    | cons x xs ih => exact ⟨hxs x (by simp), ih fun y hy => hxs y (by simp [hy])⟩
  refine hadd _ (hrem _ fun x hx => h x.2 ?_) fun x hx => h x.2 ?_
  · simp only [Job.nodes, List.mem_append, List.mem_map]
    exact .inr ⟨x, hx, rfl⟩
  · simp only [Job.nodes, List.mem_append, List.mem_map]
    exact .inl (.inr ⟨x, hx, rfl⟩)

theorem within_lockWriteSet {job : Job V m} (h : ∀ n ∈ job.nodes, n < f) : ∀ {ns locked : List NodeId},
    (∀ n ∈ ns, n < f) → (∀ n ∈ locked, n < f) → (lockWriteSet job ns locked : Pc K V m).Within f
  | [], locked, _, hl => by
    have hr : ∀ b, (Pc.release locked (.ended b) : Pc K V m).Within f := fun _ => ⟨hl, trivial⟩
    refine within_validate (hr false) ?_ fun n hn => h n ?_
    · split_ifs
      · exact hr true
      · exact ⟨h, hl⟩
    · simp [Job.nodes, hn]
  | n :: ns, locked, hns, hl => by
    refine ⟨hns n (by simp), within_lockWriteSet h (fun j hj => hns j (by simp [hj])) ?_, hl, trivial⟩
    intro j hj
    rcases List.mem_cons.1 hj with rfl | hj
    · exact hns j (by simp)
    · exact hl j hj

theorem within_TXend {job : Job V m} (h : ∀ n ∈ job.nodes, n < f) :
    (TXend job : Pc K V m).Within f := by
  simp only [TXend]
  split_ifs
  · refine within_lockWriteSet h (fun n hn => h n ?_) (by simp)
    simp only [Job.nodes, List.append_assoc, List.mem_append]
    exact .inl hn
  · exact ⟨by simp, trivial⟩

theorem within_find {op : Access K V m} {b : Bool} {pred : NodeId} {next : Option NodeId}
    (hp : pred < f) (hn : Below f next) : (find op b pred next).Within f := by
  cases op with
  | put l key val =>
    cases b with
    | true => exact ⟨hp, hn⟩
    | false => exact ⟨hp, ⟨hp, ⟨hp, trivial⟩, hp, hn⟩, trivial⟩
  | remove l key =>
    cases b with
    | true => exact ⟨hp, ⟨hp, ⟨hp, trivial⟩, hp, hn⟩, trivial⟩
    | false => trivial
  | get l key =>
    cases b with
    | true =>
      cases next with
      | none => trivial
      | some y => exact hn y rfl
    | false => trivial

theorem Within.ite {c : Prop} [Decidable c] {k k' : Pc K V m} (h : k.Within f) (h' : k'.Within f) :
    (if c then k else k').Within f := by
  split_ifs
  · exact h
  · exact h'

/-- A step that does `x`, and nothing else. -/
theorem after {Q : Effect K V m → Pc K V m → Prop} {x : Effect K V m × Pc K V m} (h : Q x.1 x.2) :
    ∀ e k', some x = some (e, k') → Q e k' := by
  rintro e k' ⟨⟩
  exact h

/-- A step of a thread whose pointers are to allocated nodes writes only such pointers, and leaves the
thread with such. -/
theorem Within.step [LinearOrder K] {s : Shared K V m} {d : Draw} (h : k.Within s.fresh)
    (hs : s.Closed) : ∀ e k', k.step s d = some (e, k') → e.Within s ∧ k'.Within (e.apply s).fresh := by
  have hnext := hs.next
  cases k with
  | idle | returned op ret | ended b | stopped w => simp [Pc.step]
  | test n p yes no => exact after ⟨trivial, h.2.1.ite h.2.2⟩
  | tryLock n yes no => exact after ⟨trivial, h.2.2.ite h⟩
  | tryLockCas n l yes no =>
    simp only [Pc.step]
    split_ifs
    · exact after ⟨trivial, h.2.1⟩
    · exact after ⟨trivial, h.2.2⟩
  | unlock n k => exact after ⟨trivial, .ite h trivial⟩
  | unlockCas n l k =>
    simp only [Pc.step]
    split_ifs
    · exact after ⟨trivial, h.2⟩
    · exact after ⟨trivial, trivial⟩
  | set n p k => exact after ⟨trivial, .ite trivial h⟩
  | store n w k | setVal n o k | retire n k => exact after ⟨trivial, h.2⟩
  | setNext n o k => exact after ⟨h.2.1, h.2.2⟩
  | increment k => exact after ⟨trivial, h⟩
  | indexAdd l n k =>
    simp only [Pc.step, Option.map_eq_some_iff, Prod.mk.injEq]
    rintro e k' ⟨ix, hix, rfl, rfl⟩
    refine ⟨fun i => ?_, h.2⟩
    rcases Index.nodes_add hix i with ⟨j, hj⟩ | hi
    · rw [hj]
      exact hs.index l j
    · rw [hi]
      exact h.1
  | indexRemove l n k =>
    simp only [Pc.step, Option.map_eq_some_iff, Prod.mk.injEq]
    rintro e k' ⟨ix, hix, rfl, rfl⟩
    refine ⟨fun i => ?_, h.2⟩
    rw [Index.node_remove hix i]
    exact hs.index l i
  | getPred op key =>
    simp only [Pc.step, Option.map_eq_some_iff, Prod.mk.injEq]
    rintro e k' ⟨⟨ix, p⟩, hix, rfl, rfl⟩
    obtain ⟨hsame, i, hi⟩ := Index.sameNodes_getPredLoop hix
    refine ⟨fun j => ?_, ?_⟩
    · rw [hsame.node j]
      exact hs.index _ j
    · show p < s.fresh
      rw [← hi]
      exact hs.index _ i
  | predTest op pred => exact after ⟨trivial, .ite (.ite h trivial) h⟩
  | firstTest op pred => exact after ⟨trivial, .ite trivial h⟩
  | firstNext op pred | advanceNext op pred => exact after ⟨trivial, h, hnext pred⟩
  | firstRetest op pred o | advanceTest op pred o =>
    exact after ⟨trivial, .ite trivial (within_loop h.1 h.2)⟩
  | nextTest op pred next =>
    exact after ⟨trivial, .ite trivial (.ite h (.ite ⟨h.1, .some h.2⟩ h))⟩
  | reread op pred next => exact after ⟨trivial, h.1, hnext pred⟩
  | nextLocked op pred next | nextSame op pred next => exact after ⟨trivial, .ite trivial h⟩
  | advance op pred next =>
    rcases hp : (s.mem pred).next with _ | y <;> simp only [Pc.step, hp]
    · exact after ⟨trivial, trivial⟩
    · exact after ⟨trivial, hnext pred y hp⟩
  | found op b pred o => exact after ⟨trivial, within_find h.1 h.2⟩
  | putNode l key val pred o =>
    rcases hp : (s.mem pred).next with _ | y <;> simp only [Pc.step, hp]
    · exact after ⟨trivial, trivial⟩
    · have hy := hnext pred y hp
      exact after ⟨trivial, hy, ⟨hy, h.2⟩, trivial⟩
  | putCheck l key val node o =>
    cases o with
    | none => exact after ⟨trivial, trivial⟩
    | some y => exact after ⟨trivial, .ite ⟨h.1, trivial⟩ ⟨h.1, ⟨h.1, trivial⟩, h.1⟩⟩
  | putRead l key val node => exact after ⟨trivial, h, h, h⟩
  | putVersion l key val node ret => exact after ⟨trivial, h, h, trivial⟩
  | insertSame l key val pred o => exact after ⟨trivial, .ite ⟨h.1, trivial⟩ h⟩
  | insertNew l key val pred o =>
    have hp : pred < s.fresh + 1 := h.1.trans (Nat.lt_succ_self _)
    have hn : s.fresh < s.fresh + 1 := Nat.lt_succ_self _
    exact after ⟨trivial, .ite ⟨hp, hn⟩ ⟨hp, hn⟩⟩
  | insertNext l key val pred n => exact after ⟨trivial, h.1, h.2, hnext pred⟩
  | insertLink l key val pred n o => exact after ⟨h.2.2, h.1, h.2.1⟩
  | insertPublish l key val pred n => exact after ⟨.some h.2, h⟩
  | insertVersion l key val pred n => exact after ⟨trivial, h.2, h.1, h.2, trivial⟩
  | removeSame l key pred o =>
    refine after ⟨trivial, .ite ⟨h.1, trivial⟩ ?_⟩
    cases o with
    | none => trivial
    | some y => exact ⟨h.2 y rfl, ⟨h.1, h.2 y rfl⟩, h.1, trivial⟩
  | removeRead l key pred next => exact after ⟨trivial, h.2, h⟩
  | removeSecond l key pred next ret =>
    rcases hp : (s.mem pred).next with _ | y <;> simp only [Pc.step, hp]
    · exact after ⟨trivial, trivial⟩
    · exact after ⟨trivial, h.1, h.2, hnext pred y hp⟩
  | removeAfter l key pred next second ret => exact after ⟨trivial, h.1, h.2.1, h.2.2, hnext second⟩
  | removeUnlink l key pred next second o ret => exact after ⟨h.2.2.2, h.1, h.2.1⟩
  | removeVersion l key pred next ret =>
    exact after ⟨trivial, h.2, h.1, h.2, h.1, h.2, h.2, trivial⟩
  | getVal l key next => exact after ⟨trivial, trivial⟩
  | commit job locked =>
    have hk : (Pc.release locked (updateIndex job) : Pc K V m).Within s.fresh :=
      ⟨h.2, within_updateIndex h.1⟩
    refine after ⟨trivial, .ite (within_writeBack hk fun x hx => ?_) trivial⟩
    refine ⟨h.1 x.1 ?_, fun y hy => h.1 y ?_⟩
    · simp only [Job.nodes, List.append_assoc, List.mem_append, List.mem_map]
      exact .inl ⟨x, hx, rfl⟩
    · simp only [Job.nodes, List.append_assoc, List.mem_append, List.mem_filterMap]
      exact .inr (.inl ⟨x, hx, hy⟩)
  | release locked k =>
    simp only [Pc.step]
    split_ifs with ho
    · exact after ⟨trivial, within_unlockAll (fun n hn => h.1 n (ho.mem_iff.1 hn)) h.2⟩
    · simp

end Pc

/-! ## Runs -/

namespace Machine

variable [LinearOrder K] {minKey : K} {dflt : V} {G : Guard K V m} {M M' : Machine K V m} {t : ThreadId}
  {mv : Move K V m} {e : Effect K V m} {k : Pc K V m}

/-- The rule of invariants: `J` holds at the start, and the steps that meet the guard keep it. -/
theorem Reach.keeps {J : Machine K V m → Prop} (hr : Reach minKey dflt G M)
    (h0 : J (.init minKey dflt))
    (hJ : ∀ {M : Machine K V m} {t : ThreadId} {mv : Move K V m} {e : Effect K V m} {k : Pc K V m},
      Reach minKey dflt G M → G M t mv → M.effect t mv = some (e, k) → J M → J (M.put t e k)) : J M := by
  induction hr with
  | init => exact h0
  | step hr hg hn ih =>
    obtain ⟨⟨e, k⟩, he, rfl⟩ := Option.map_eq_some_iff.1 hn
    exact hJ hr hg he ih

/-- What the thread of a step has to do before it, in the kinds of moves. -/
theorem effect_cases (h : M.effect t mv = some (e, k)) :
    (∃ op, mv = .access op ∧ (M.pc t).resting = true ∧ e = .none ∧ k = .start op) ∨
    (∃ key val next, mv = .newNode key val next ∧ (M.pc t).resting = true ∧
      Below M.shared.fresh next ∧ e = .alloc key val ∧ k = .setNext M.shared.fresh next .idle) ∨
    (mv = .increment ∧ (M.pc t).resting = true ∧ e = .increment ∧ k = .idle) ∨
    (∃ job, mv = .txEnd job ∧ (M.pc t).resting = true ∧ (∀ n ∈ job.nodes, n < M.shared.fresh) ∧
      e = .none ∧ k = .TXend job) ∨
    ∃ d, mv = .go d ∧ (M.pc t).step M.shared d = some (e, k) := by
  cases mv with
  | access op =>
    simp only [effect, Option.ite_none_right_eq_some, Option.some.injEq, Prod.mk.injEq] at h
    exact .inl ⟨op, rfl, h.1, h.2.1.symm, h.2.2.symm⟩
  | newNode key val next =>
    simp only [effect, Option.ite_none_right_eq_some, Option.some.injEq, Prod.mk.injEq] at h
    exact .inr (.inl ⟨key, val, next, rfl, h.1.1, h.1.2, h.2.1.symm, h.2.2.symm⟩)
  | increment =>
    simp only [effect, Option.ite_none_right_eq_some, Option.some.injEq, Prod.mk.injEq] at h
    exact .inr (.inr (.inl ⟨rfl, h.1, h.2.1.symm, h.2.2.symm⟩))
  | txEnd job =>
    simp only [effect, Option.ite_none_right_eq_some, Option.some.injEq, Prod.mk.injEq] at h
    exact .inr (.inr (.inr (.inl ⟨job, rfl, h.1.1, h.1.2, h.2.1.symm, h.2.2.symm⟩)))
  | go d => exact .inr (.inr (.inr (.inr ⟨d, rfl, h⟩)))

/-- The pointers in use are to allocated nodes. -/
structure Within (M : Machine K V m) : Prop where
  closed : M.shared.Closed
  pc : ∀ t, (M.pc t).Within M.shared.fresh

theorem Within.effect (h : M.Within) (he : M.effect t mv = some (e, k)) :
    e.Within M.shared ∧ k.Within (e.apply M.shared).fresh := by
  obtain ⟨op, -, -, rfl, rfl⟩ | ⟨key, val, next, -, -, hn, rfl, rfl⟩ | ⟨-, -, rfl, rfl⟩ |
    ⟨job, -, -, hj, rfl, rfl⟩ | ⟨d, -, hs⟩ := effect_cases he
  · exact ⟨trivial, trivial⟩
  · exact ⟨trivial, Nat.lt_succ_self _, hn.mono (Nat.le_succ _), trivial⟩
  · exact ⟨trivial, trivial⟩
  · exact ⟨trivial, Pc.within_TXend hj⟩
  · exact (h.pc t).step h.closed e k hs

end Machine

theorem Shared.Closed.apply {s : Shared K V m} {e : Effect K V m} (h : s.Closed) (he : e.Within s) :
    (e.apply s).Closed := by
  have hfresh : s.fresh ≤ (e.apply s).fresh := Effect.fresh_le
  refine ⟨h.heads.trans hfresh, fun n => ?_, fun l i => ?_⟩
  · cases e with
    | store k w | lock k w | unlock k w | val k o =>
      simp only [Effect.apply, Shared.mem_setNode]
      split_ifs with hk
      · exact h.next k
      · exact h.next n
    | next k o =>
      simp only [Effect.apply, Shared.mem_setNode]
      split_ifs with hk
      · exact he
      · exact h.next n
    | alloc key val =>
      simp only [Effect.apply, Shared.mem_setNode]
      split_ifs with hk
      · rintro y ⟨⟩
      · exact (h.next n).mono (Nat.le_succ _)
    | _ => exact h.next n
  · cases e with
    | index l' ix =>
      by_cases hl : l = l'
      · subst hl
        simpa [Effect.apply] using he i
      · simpa [Effect.apply, hl] using h.index l i
    | alloc key val => exact (h.index l i).trans (Nat.lt_succ_self _)
    | _ => exact h.index l i

namespace Machine

variable [LinearOrder K] {minKey : K} {dflt : V} {G : Guard K V m} {M M' : Machine K V m} {t : ThreadId}
  {mv : Move K V m} {e : Effect K V m} {k : Pc K V m}

theorem Reach.within (hr : Reach minKey dflt G M) : M.Within := by
  refine hr.keeps (J := Within) ?_ fun {M t mv e k} _ _ he h => ?_
  · refine ⟨⟨le_rfl, ?_, fun l i => ?_⟩, fun _ => trivial⟩
    · rintro n y ⟨⟩
    · exact l.isLt
  · obtain ⟨hw, hk⟩ := h.effect he
    refine ⟨h.closed.apply hw, fun u => ?_⟩
    by_cases hu : u = t
    · subst hu
      simpa [put] using hk
    · simpa [put, hu] using (h.pc u).mono Effect.fresh_le

end Machine

end TxList
