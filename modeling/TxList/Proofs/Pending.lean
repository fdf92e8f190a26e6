import TxList.Proofs.Ending
import TxList.Proofs.Commit

/-!
# The memory with every write made

While `TXend`s write back, the memory ahead is the one in which every write still pending is made and
no node is locked. A step of a `TXend` leaves it as it is, but for the increment of the clock, which
commits there at once.
-/

namespace TxList

variable {K V : Type} {m : Nat}

namespace LNode

variable {x : LNode K V} {b b' : Bool}

@[simp] theorem setLock_setLock : (x.setLock b).setLock b' = x.setLock b' := rfl

theorem setLock_of_unlocked (h : x.isLocked = false) : x.setLock false = x := by
  obtain ⟨k, v, o, w, d, s, n⟩ := x
  obtain rfl : w = false := h
  rfl

theorem writeBack_setLock {we : WriteElement V} {wv : Nat} :
    (x.setLock b).writeBack we wv = (x.writeBack we wv).setLock b := by
  simp only [writeBack]
  split_ifs <;> rfl

end LNode

/-! ## The writes to one node -/

/-- The node after a write to it. -/
def Write.onNode (x : LNode K V) : Write V → LNode K V
  | .next _ o => { x with next := o }
  | .val _ v => { x with val := v }
  | .set _ f => { x with word := f.apply x.word }

theorem Write.mem_effect (w : Write V) (s : Shared K V m) :
    ((w.effect s).apply s).mem w.node = w.onNode (s.mem w.node) := by
  cases w <;> exact (Shared.mem_setNode _ _ _ _).trans (if_pos rfl)

theorem Write.onNode_setLock (w : Write V) (x : LNode K V) (b : Bool) :
    w.onNode (x.setLock b) = (w.onNode x).setLock b := by
  rcases w with _ | _ | ⟨n, f⟩
  · rfl
  · rfl
  · cases f <;> rfl

theorem Write.key_onNode (w : Write V) (x : LNode K V) : (w.onNode x).key = x.key := by
  cases w <;> rfl

/-- Node `n` once the writes to it are made. -/
def finish (ws : List (Write V)) (n : NodeId) (x : LNode K V) : LNode K V :=
  (ws.filter (·.node = n)).foldl Write.onNode x

section Finish

variable {ws vs : List (Write V)} {w : Write V} {n : NodeId} {x : LNode K V}

theorem finish_cons_self : finish (w :: ws) w.node x = finish ws w.node (w.onNode x) := by
  simp [finish]

theorem finish_cons_ne (h : w.node ≠ n) : finish (w :: ws) n x = finish ws n x := by
  simp [finish, h]

theorem finish_append : finish (ws ++ vs) n x = finish vs n (finish ws n x) := by
  simp [finish]

/-- No write is to the node. -/
theorem finish_of_forall_ne (h : ∀ w ∈ ws, w.node ≠ n) : finish ws n x = x := by
  have hf : ws.filter (·.node = n) = [] := List.filter_eq_nil_iff.2 fun w hw => by simpa using h w hw
  rw [finish, hf, List.foldl_nil]

theorem finish_setLock (b : Bool) : finish ws n (x.setLock b) = (finish ws n x).setLock b := by
  induction ws generalizing x with
  | nil => rfl
  | cons w ws ih =>
    by_cases h : w.node = n
    · subst h
      rw [finish_cons_self, finish_cons_self, Write.onNode_setLock, ih]
    · rw [finish_cons_ne h, finish_cons_ne h, ih]

theorem key_finish : (finish ws n x).key = x.key := by
  induction ws generalizing x with
  | nil => rfl
  | cons w ws ih =>
    by_cases h : w.node = n
    · subst h
      rw [finish_cons_self, ih, Write.key_onNode]
    · rw [finish_cons_ne h, ih]

/-- The writes to a node are its write-back. -/
theorem finish_writes (we : WriteElement V) (n : NodeId) (wv : Nat) (x : LNode K V) :
    finish (we.writes n wv) n x = x.writeBack we wv := by
  have hall : (we.writes n wv).filter (fun w => decide (w.node = n)) = we.writes n wv :=
    List.filter_eq_self.2 fun w hw => by simpa using WriteElement.node_of_mem hw
  rw [finish, hall]
  unfold WriteElement.writes LNode.writeBack
  split_ifs <;> rfl

theorem finish_flatMap {we : WriteElement V} {wv : Nat} : ∀ {xs : List (NodeId × WriteElement V)},
    (xs.map Prod.fst).Nodup → (n, we) ∈ xs →
      finish (xs.flatMap fun x => x.2.writes x.1 wv) n x = x.writeBack we wv
  | [], _, h => by simp at h
  | y :: xs, hnd, h => by
    obtain ⟨hy, hnd⟩ := List.nodup_cons.1 hnd
    rw [List.flatMap_cons, finish_append]
    have hrest : ∀ {k : NodeId}, k ∉ xs.map Prod.fst →
        ∀ w ∈ xs.flatMap fun x => x.2.writes x.1 wv, w.node ≠ k := by
      intro k hk w hw he
      obtain ⟨z, hz, hw⟩ := List.mem_flatMap.1 hw
      rw [WriteElement.node_of_mem hw] at he
      exact hk (he ▸ List.mem_map_of_mem hz)
    rcases List.mem_cons.1 h with rfl | h
    · rw [finish_writes]
      exact finish_of_forall_ne (hrest hy)
    · have hne : y.1 ≠ n := fun he => hy (he ▸ List.mem_map_of_mem h)
      have hno : ∀ w ∈ y.2.writes y.1 wv, w.node ≠ n := fun w hw => by rwa [WriteElement.node_of_mem hw]
      rw [finish_of_forall_ne hno, finish_flatMap hnd h]

/-- The writes of a job are a write-back to each node of its write set. -/
theorem Job.finish_writes {job : Job V m} {we : WriteElement V} {wv : Nat} (h : job.keys.Nodup)
    (hn : (n, we) ∈ job.writeSet) : finish (job.writes wv) n x = x.writeBack we wv :=
  finish_flatMap h hn

end Finish

/-! ## The memory ahead -/

/-- No thread but `t` has a write to the node pending. -/
def OwedBy (E : ThreadId → Ending V m) (t : ThreadId) (n : NodeId) : Prop :=
  ∀ u, u ≠ t → ∀ w ∈ (E u).pending, w.node ≠ n

/-- `w` is `s` with every pending write made and no node locked. -/
structure Completes (s : Shared K V m) (E : ThreadId → Ending V m) (w : Shared K V m) : Prop where
  gvc : w.gvc = s.gvc
  fresh : w.fresh = s.fresh
  mem : ∀ n, ∃ t, OwedBy E t n ∧ w.mem n = (finish (E t).pending n (s.mem n)).setLock false

namespace Completes

variable {s s' w : Shared K V m} {E E' : ThreadId → Ending V m} {t : ThreadId} {n : NodeId}

theorem key (h : Completes s E w) (n : NodeId) : (w.mem n).key = (s.mem n).key := by
  obtain ⟨t, -, hw⟩ := h.mem n
  rw [hw]
  exact key_finish

/-- A node to which nobody has a write pending. -/
theorem mem_of_idle (h : Completes s E w) (hn : ∀ u, ∀ w ∈ (E u).pending, w.node ≠ n) :
    w.mem n = (s.mem n).setLock false := by
  obtain ⟨t, -, hw⟩ := h.mem n
  rw [hw, finish_of_forall_ne (hn t)]

/-- A node that is not locked is in the memory ahead as it is. -/
theorem same (h : Completes s E w) (hO : Orderly s E) (hn : (s.mem n).isLocked = false) :
    s.mem n = w.mem n := by
  rw [h.mem_of_idle fun u v hv he => ?_, LNode.setLock_of_unlocked hn]
  subst he
  rw [hO.locked_of_pending hv] at hn
  simp at hn

/-- A node held by a thread that does not write yet. -/
theorem mem_of_held (h : Completes s E w) (hO : Orderly s E) (hp : (E t).pending = [])
    (hn : n ∈ (E t).held) : w.mem n = (s.mem n).setLock false := by
  refine h.mem_of_idle fun u v hv he => ?_
  subst he
  obtain rfl := hO.apart hn ((hO.proper u).holds hv)
  rw [hp] at hv
  simp at hv

/-- Locks may come and go, and threads start or end that have nothing to write. -/
theorem congr (h : Completes s E w) (hE : ∀ u, (E' u).pending = (E u).pending) (hgvc : s'.gvc = s.gvc)
    (hfresh : s'.fresh = s.fresh) (hmem : ∀ n, (s'.mem n).setLock false = (s.mem n).setLock false) :
    Completes s' E' w := by
  refine ⟨h.gvc.trans hgvc.symm, h.fresh.trans hfresh.symm, fun n => ?_⟩
  obtain ⟨t, ht, hw⟩ := h.mem n
  refine ⟨t, fun u hu v hv => ht u hu v (hE u ▸ hv), ?_⟩
  rw [hw, hE, ← finish_setLock, ← finish_setLock, hmem]

/-- A write makes one pending write. -/
theorem write (h : Completes s E w) {v : Write V} {e : Ending V m} (hv : (E t).pending = v :: e.pending) :
    Completes ((v.effect s).apply s) (Function.update E t e) w := by
  have hgvc : ((v.effect s).apply s).gvc = s.gvc ∧ ((v.effect s).apply s).fresh = s.fresh := by
    cases v <;> exact ⟨rfl, rfl⟩
  refine ⟨h.gvc.trans hgvc.1.symm, h.fresh.trans hgvc.2.symm, fun n => ?_⟩
  obtain ⟨u, hu, hw⟩ := h.mem n
  by_cases hut : u = t
  · subst hut
    refine ⟨u, fun k hk => by simpa [hk] using hu k hk, ?_⟩
    rw [hw, hv, Function.update_self]
    by_cases hn : v.node = n
    · subst hn
      rw [finish_cons_self, Write.mem_effect]
    · rw [finish_cons_ne hn, Write.mem_effect_of_ne (Ne.symm hn)]
  · have ht : ∀ v' ∈ v :: e.pending, v'.node ≠ n := fun v' hv' => hu t (Ne.symm hut) v' (hv ▸ hv')
    refine ⟨u, fun k hk => ?_, ?_⟩
    · by_cases hkt : k = t
      · subst hkt
        rw [Function.update_self]
        exact fun v' hv' => ht v' (List.mem_cons_of_mem _ hv')
      · simpa [hkt] using hu k hk
    · rw [Function.update_of_ne hut, Write.mem_effect_of_ne (Ne.symm (ht v (List.mem_cons_self ..))), hw]

/-- The increment of the clock commits in the memory ahead. -/
theorem increment (h : Completes s E w) (hO : Orderly s E) {job : Job V m} {e : Ending V m}
    {ws : AList fun _ : NodeId => WriteElement V} {ix : ListId m → Index} (hp : (E t).pending = [])
    (he : e.pending = job.writes (s.gvc + 1)) (hnd : job.keys.Nodup)
    (hheld : ∀ n ∈ job.keys, n ∈ (E t).held)
    (hws : ∀ n we, (n, we) ∈ job.writeSet ↔ ws.lookup n = some we) :
    Completes { s with gvc := s.gvc + 1 } (Function.update E t e) { w.commit ws with index := ix } := by
  refine ⟨by rw [← h.gvc]; rfl, h.fresh, fun n => ?_⟩
  show ∃ u, _ ∧ (w.commit ws).mem n = _
  rcases hl : ws.lookup n with _ | we
  · have hn : n ∉ job.keys := fun hn => by
      obtain ⟨y, hy, rfl⟩ := List.mem_map.1 hn
      rw [(hws y.1 y.2).1 hy] at hl
      simp at hl
    have hno : ∀ v ∈ e.pending, v.node ≠ n := fun v hv hvn => hn (hvn ▸ job.node_of_mem (he ▸ hv))
    obtain ⟨u, hu, hw⟩ := h.mem n
    refine ⟨u, fun k hk => ?_, ?_⟩
    · by_cases hkt : k = t
      · subst hkt
        rwa [Function.update_self]
      · simpa [hkt] using hu k hk
    · rw [Shared.commit_mem_of_notMem _ (AList.lookup_eq_none.1 hl), hw]
      by_cases hut : u = t
      · subst hut
        rw [Function.update_self, hp, finish_of_forall_ne hno]
        rfl
      · rw [Function.update_of_ne hut]
  · have hn := (hws n we).2 hl
    have hheldn := hheld n (List.mem_map_of_mem hn)
    refine ⟨t, fun k hk => ?_, ?_⟩
    · rw [Function.update_of_ne hk]
      rintro v hv rfl
      exact hk (hO.apart ((hO.proper k).holds hv) hheldn)
    · rw [Shared.commit_mem _ hl, h.mem_of_held hO hp hheldn, Function.update_self, he,
        job.finish_writes hnd hn, h.gvc, LNode.writeBack_setLock]

/-- A call allocates. -/
theorem alloc (h : Completes s E w) (x : LNode K V) (hx : x.isLocked = false)
    (hheld : ∀ u, ∀ n ∈ (E u).held, n < s.fresh) (hp : ∀ u, (E u).Proper) :
    Completes (s.alloc x) E (w.alloc x) := by
  refine ⟨h.gvc, by rw [Shared.alloc_fresh, Shared.alloc_fresh, h.fresh], fun n => ?_⟩
  by_cases hn : n = s.fresh
  · subst hn
    have hno : ∀ u, ∀ v ∈ (E u).pending, v.node ≠ s.fresh := fun u v hv he =>
      (hheld u _ ((hp u).holds hv)).ne he
    refine ⟨0, fun u _ => hno u, ?_⟩
    rw [finish_of_forall_ne (hno 0), Shared.alloc_mem, Shared.alloc_mem, h.fresh, Function.update_self,
      Function.update_self, LNode.setLock_of_unlocked hx]
  · obtain ⟨t, ht, hw⟩ := h.mem n
    refine ⟨t, ht, ?_⟩
    rw [Shared.alloc_mem, Shared.alloc_mem, h.fresh, Function.update_of_ne hn, Function.update_of_ne hn, hw]

end Completes

end TxList
