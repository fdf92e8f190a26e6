import Mathlib.Data.List.Perm.Subperm
import TxList.Queue

/-!
# The lists in the memory

The queues' lists and the local queues' lie in one memory, no node on two of them (`Laid`). Each
operation keeps this: `enqueue` appends a new node to one of the lists, `dequeue` and `dequeueNodes`
take nodes off the front of one, `enqueueNodes` empties one and appends as many new nodes, with the
same values, to another. The values of the nodes allocated before never change.
-/

namespace TxQueue

open Chain

variable {V : Type}

/-- The list of `l` has the nodes `ids`. -/
structure Holds (h : Heap V) (l : Links) (ids : List NodeId) : Prop
    extends Linked h.next l.head l.tail ids where
  size_eq : l.size = ids.length

theorem Holds.empty (h : Heap V) : Holds h {} [] := ⟨.nil, rfl⟩

theorem Holds.isEmpty_iff {h : Heap V} {l : Links} {ids : List NodeId} (hl : Holds h l ids) :
    l.isEmpty = true ↔ ids = [] := by
  unfold Links.isEmpty
  rw [hl.size_eq, decide_eq_true_iff, ← List.length_eq_zero_iff]
  omega

/-- The lists `links` have the nodes `ids`, all allocated, and no node is on two of them. -/
structure Laid {ι : Type} (h : Heap V) (links : ι → Links) (ids : ι → List NodeId) : Prop where
  holds : ∀ i, Holds h (links i) (ids i)
  apart : Apart ids
  lt_fresh : ∀ i, ∀ x ∈ ids i, x < h.fresh

/-- The nodes allocated before have their values. -/
structure Heap.Grows (h h' : Heap V) : Prop where
  fresh : h.fresh ≤ h'.fresh
  val : ∀ x < h.fresh, h'.val x = h.val x

theorem Heap.Grows.refl (h : Heap V) : h.Grows h := ⟨le_rfl, fun _ _ => rfl⟩

theorem Heap.Grows.trans {h h' h'' : Heap V} (h₁ : h.Grows h') (h₂ : h'.Grows h'') :
    h.Grows h'' :=
  ⟨h₁.fresh.trans h₂.fresh, fun x hx => (h₂.val x (hx.trans_le h₁.fresh)).trans (h₁.val x hx)⟩

namespace Laid

variable {ι : Type} {h : Heap V} {links : ι → Links} {ids : ι → List NodeId} {i : ι}

theorem init {h : Heap V} : Laid h (fun _ : ι => {}) fun _ => [] :=
  ⟨fun _ => .empty h, fun _ _ _ hx => absurd hx List.not_mem_nil,
    fun _ _ hx => absurd hx List.not_mem_nil⟩

theorem length_le (hL : Laid h links ids) (i : ι) : (ids i).length ≤ h.fresh := by
  have hsub : ids i ⊆ List.range h.fresh := fun x hx => List.mem_range.2 (hL.lt_fresh i x hx)
  simpa using (List.subperm_of_subset (hL.holds i).nodup hsub).length_le

theorem vals_of_grows (hL : Laid h links ids) {h' : Heap V} (hh : h.Grows h') (j : ι) :
    (ids j).map h'.val = (ids j).map h.val :=
  List.map_congr_left fun x hx => hh.val x (hL.lt_fresh j x hx)

/-- One list changes, and only its own nodes and new ones are written to. -/
theorem update [DecidableEq ι] (hL : Laid h links ids) {h' : Heap V} {l : Links} {ids' : List NodeId}
    (hl : Holds h' l ids') (hn : ∀ x < h.fresh, x ∉ ids i → h'.next x = h.next x)
    (hfresh : h.fresh ≤ h'.fresh) (hids : ∀ x ∈ ids', x < h'.fresh)
    (hmem : ∀ x ∈ ids', x ∈ ids i ∨ h.fresh ≤ x) :
    Laid h' (Function.update links i l) (Function.update ids i ids') := by
  refine ⟨fun j => ?_, hL.apart.update fun x hx => ?_, fun j x hx => ?_⟩
  · rcases eq_or_ne j i with rfl | hj
    · rw [Function.update_self, Function.update_self]
      exact hl
    · rw [Function.update_of_ne hj, Function.update_of_ne hj]
      have hold := hL.holds j
      exact ⟨hold.toLinked.congr fun x hx =>
        hn x (hL.lt_fresh j x hx) (hL.apart.not_mem hx (Ne.symm hj)), hold.size_eq⟩
  · exact (hmem x hx).imp_right fun hx j hj => (hL.lt_fresh j x hj).not_ge hx
  · rcases eq_or_ne j i with rfl | hj
    · rw [Function.update_self] at hx
      exact hids x hx
    · rw [Function.update_of_ne hj] at hx
      exact (hL.lt_fresh j x hx).trans_le hfresh

end Laid

section Enqueue

variable (l : Links) (h : Heap V) (val : V)

theorem Links.enqueue_fresh : (l.enqueue h val).1.fresh = h.fresh + 1 := by
  dsimp only [Links.enqueue]
  split <;> rfl

theorem Links.enqueue_val_self : (l.enqueue h val).1.val h.fresh = val := by
  dsimp only [Links.enqueue]
  split
  · simp [Heap.val, Heap.alloc]
  · rename_i tail _
    by_cases ht : tail = h.fresh
    · simp [Heap.val, Heap.setNext, Heap.alloc, ht]
    · simp [Heap.val, Heap.setNext, Heap.alloc, Function.update_of_ne (Ne.symm ht)]

theorem Links.enqueue_val {x : NodeId} (hx : x < h.fresh) :
    (l.enqueue h val).1.val x = h.val x := by
  dsimp only [Links.enqueue]
  split
  · simp [Heap.val, Heap.alloc, hx.ne]
  · rename_i tail _
    by_cases ht : x = tail
    · subst ht
      simp [Heap.val, Heap.setNext, Heap.alloc, hx.ne]
    · simp [Heap.val, Heap.setNext, Heap.alloc, hx.ne, ht]

theorem Links.enqueue_grows : h.Grows (l.enqueue h val).1 :=
  ⟨by rw [Links.enqueue_fresh]; omega, fun _ hx => Links.enqueue_val l h val hx⟩

theorem Links.enqueue_next {x : NodeId} (hx : x < h.fresh) (ht : l.tail ≠ some x) :
    (l.enqueue h val).1.next x = h.next x := by
  dsimp only [Links.enqueue]
  split
  · simp [Heap.next, Heap.alloc, hx.ne]
  · rename_i tail he
    have hne : x ≠ tail := fun h' => ht (by rw [h']; exact he)
    simp [Heap.next, Heap.setNext, Heap.alloc, hx.ne, hne]

end Enqueue

/-- `enqueue` appends the new node. -/
theorem Holds.enqueue {l : Links} {h : Heap V} {ids : List NodeId} (hl : Holds h l ids)
    (hids : ∀ x ∈ ids, x < h.fresh) (val : V) :
    Holds (l.enqueue h val).1 (l.enqueue h val).2 (ids ++ [h.fresh]) := by
  have hne : ∀ x ∈ ids, x ≠ h.fresh := fun x hx => (hids x hx).ne
  dsimp only [Links.enqueue]
  rcases ht : l.tail with _ | tail
  · have htail := hl.toLinked
    rw [ht] at htail
    obtain rfl := htail.eq_nil_of_tail
    exact ⟨.singleton (by simp [Heap.next, Heap.alloc]), by simp [hl.size_eq]⟩
  · have htail := hl.toLinked
    rw [ht] at htail
    have hmem := hne tail htail.tail_mem
    refine ⟨htail.concat (fun hx => hne _ hx rfl) ?_ ?_ fun y hy hyt => ?_, ?_⟩
    · simp [Heap.next, Heap.setNext]
    · simp [Heap.next, Heap.setNext, Heap.alloc, Function.update_of_ne hmem.symm]
    · simp [Heap.next, Heap.setNext, Heap.alloc, hyt, hne y hy]
    · simp [hl.size_eq]

namespace Laid

variable {ι : Type} [DecidableEq ι] {h : Heap V} {links : ι → Links} {ids : ι → List NodeId}

theorem enqueue (hL : Laid h links ids) (i : ι) (val : V) :
    Laid ((links i).enqueue h val).1 (Function.update links i ((links i).enqueue h val).2)
      (Function.update ids i (ids i ++ [h.fresh])) := by
  have hl := hL.holds i
  have hf := Links.enqueue_fresh (links i) h val
  refine hL.update (hl.enqueue (hL.lt_fresh i) val) (fun x hx hxi => ?_) (by omega)
    (fun x hx => ?_) fun x hx => ?_
  · refine Links.enqueue_next _ _ _ hx fun ht => hxi ?_
    have htail := hl.toLinked
    rw [ht] at htail
    exact htail.tail_mem
  · rw [hf]
    rcases List.mem_append.1 hx with hx | hx
    · exact Nat.lt_succ_of_lt (hL.lt_fresh i x hx)
    · exact Nat.lt_succ_of_le (List.mem_singleton.1 hx).le
  · exact (List.mem_append.1 hx).imp_right fun hx => (List.mem_singleton.1 hx).ge

omit [DecidableEq ι] in
theorem enqueue_vals (hL : Laid h links ids) (i : ι) (val : V) :
    (ids i ++ [h.fresh]).map ((links i).enqueue h val).1.val = (ids i).map h.val ++ [val] := by
  rw [List.map_append, hL.vals_of_grows (Links.enqueue_grows _ _ _), List.map_singleton,
    Links.enqueue_val_self]

omit [DecidableEq ι] in
theorem dequeue_none (hL : Laid h links ids) {i : ι} (hd : (links i).dequeue h = none) :
    ids i = [] := by
  unfold Links.dequeue at hd
  split at hd
  · rename_i hn
    have hl := (hL.holds i).toLinked
    rw [hn] at hl
    exact hl.eq_nil_of_head
  · simp at hd

/-- `dequeue` takes the first node off. -/
theorem dequeue_some (hL : Laid h links ids) {i : ι} {val : V} {l : Links}
    (hd : (links i).dequeue h = some (val, l)) :
    ∃ a B, ids i = a :: B ∧ h.val a = val ∧
      Laid h (Function.update links i l) (Function.update ids i B) := by
  unfold Links.dequeue at hd
  split at hd
  · simp at hd
  · rename_i a ha
    obtain ⟨rfl, rfl⟩ := Prod.mk.inj (Option.some.inj hd)
    have hl := (hL.holds i).toLinked
    rw [ha] at hl
    obtain ⟨B, hB⟩ := hl.exists_cons
    rw [hB] at hl
    have hsize := (hL.holds i).size_eq
    rw [hB, List.length_cons] at hsize
    have hsub : ∀ x ∈ B, x ∈ ids i := fun x hx => hB ▸ List.mem_cons_of_mem _ hx
    refine ⟨a, B, hB, rfl, hL.update ⟨hl.pop, ?_⟩ (fun _ _ _ => rfl) le_rfl
      (fun x hx => hL.lt_fresh i x (hsub x hx)) fun x hx => .inl (hsub x hx)⟩
    show (links i).size - 1 = _
    omega

/-- `dequeueNodes` takes nodes off the front: all up to `upToNode` if this is one of the list's. -/
theorem dequeueNodes (hL : Laid h links ids) (i : ι) (upTo : Option NodeId) :
    ∃ l k, (links i).dequeueNodes h upTo = some l ∧
      Laid h (Function.update links i l) (Function.update ids i ((ids i).drop k)) ∧
      (upTo = none → k = 0) ∧
      ∀ (j : Nat) (hj : j < (ids i).length), upTo = some (ids i)[j] → k = j + 1 := by
  have hl := hL.holds i
  rcases upTo with _ | upTo
  · refine ⟨links i, 0, rfl, ?_, fun _ => rfl, fun _ _ h' => by simp at h'⟩
    simpa using hL
  obtain ⟨A, B, hAB, hs, hA, hB⟩ := skip_path (s := h.next upTo) hl.path
    (Nat.lt_succ_of_le (hL.length_le i))
  have hdrop : (ids i).drop A.length = B := by rw [hAB, List.drop_left]
  have hlen : (ids i).length = A.length + B.length := by rw [hAB, List.length_append]
  have hk : ∀ (j : Nat) (hj : j < (ids i).length), some upTo = some (ids i)[j] →
      A.length = j + 1 := by
    intro j hj hup
    obtain rfl := Option.some.inj hup
    rw [hl.getElem_next hj] at hA hB
    rcases Nat.lt_or_ge (j + 1) (ids i).length with hj' | hj'
    · rw [List.getElem?_eq_getElem hj'] at hA hB
      have hge : A.length ≤ j + 1 := by
        by_contra hlt
        refine hA (List.mem_map.2 ⟨_, ?_, rfl⟩)
        have he : (ids i)[j + 1] = A.get ⟨j + 1, by omega⟩ := by
          simp only [hAB]
          exact List.getElem_append_left (by omega)
        rw [he]
        exact List.getElem_mem _
      have hBne : B ≠ [] := by
        rintro rfl
        simp only [List.length_nil] at hlen
        omega
      have hhead : (ids i)[A.length]? = some (ids i)[j + 1] := by
        rw [← hB.resolve_left hBne, ← hdrop, List.head?_drop]
      exact (List.getElem?_inj (by
        have := List.length_pos_of_ne_nil hBne
        omega) hl.nodup).1 (hhead.trans (List.getElem?_eq_getElem hj').symm)
    · rw [List.getElem?_eq_none hj'] at hB
      have hBnil : B = [] := hB.elim id List.head?_eq_none_iff.1
      rw [hBnil, List.length_nil] at hlen
      omega
  have hsub : ∀ x ∈ B, x ∈ ids i := fun x hx => hAB ▸ List.mem_append_right _ hx
  have hlaid : ∀ {l : Links}, Holds h l B →
      Laid h (Function.update links i l) (Function.update ids i ((ids i).drop A.length)) := by
    intro l hl'
    rw [hdrop]
    exact hL.update hl' (fun _ _ _ => rfl) le_rfl (fun x hx => hL.lt_fresh i x (hsub x hx))
      fun x hx => .inl (hsub x hx)
  have hsize : (links i).size - A.length = B.length := by
    rw [hl.size_eq, hlen]
    omega
  rw [← hl.head_eq] at hs
  rcases hBc : B with _ | ⟨b, B'⟩
  · refine ⟨{ head := none, tail := none, size := 0 }, A.length, ?_, ?_, by simp, hk⟩
    · simp [Links.dequeueNodes, hs, hBc, hsize]
    · exact hlaid (hBc ▸ .empty h)
  · refine ⟨{ links i with head := B.head?, size := B.length }, A.length, ?_, ?_, by simp, hk⟩
    · simp [Links.dequeueNodes, hs, hBc, hsize]
    · have hne : B ≠ [] := by simp [hBc]
      refine hlaid ⟨?_, rfl⟩
      have := hl.toLinked
      rw [hAB] at this
      exact this.drop hne

/-- The loop of `enqueueNodes` moves the values of `j`'s list to the end of `i`'s. -/
theorem enqueueNodesLoop {i j : ι} (hij : j ≠ i) :
    ∀ (n : Nat) {h : Heap V} {links : ι → Links} {ids : ι → List NodeId}, Laid h links ids →
      (ids j).length < n → ∃ h' l l' new,
        Links.enqueueNodesLoop n (links i) h (links j) = some (h', l, l') ∧ h.Grows h' ∧
        Laid h' (Function.update (Function.update links i l) j l')
          (Function.update (Function.update ids i (ids i ++ new)) j []) ∧
        new.map h'.val = (ids j).map h.val
  | 0, _, _, _, _, hn => absurd hn (Nat.not_lt_zero _)
  | n + 1, h, links, ids, hL, hn => by
    unfold Links.enqueueNodesLoop
    split
    · rename_i he
      have hj := (hL.holds j).isEmpty_iff.1 he
      refine ⟨h, links i, links j, [], rfl, .refl h, ?_, by rw [hj]⟩
      rw [List.append_nil, ← hj]
      simpa using hL
    · rename_i he
      rcases hd : (links j).dequeue h with _ | ⟨val, lq⟩
      · exact absurd ((hL.holds j).isEmpty_iff.2 (hL.dequeue_none hd)) he
      obtain ⟨a, B, hB, rfl, hL₁⟩ := hL.dequeue_some hd
      have hL₂ := hL₁.enqueue i (h.val a)
      rw [Function.update_of_ne hij.symm, Function.update_of_ne hij.symm] at hL₂
      have hlen : B.length < n := by
        rw [hB, List.length_cons] at hn
        omega
      obtain ⟨h', l, l', new, heq, hg, hlaid, hnew⟩ :=
        enqueueNodesLoop hij n hL₂ (by rwa [Function.update_of_ne hij, Function.update_self])
      rw [Function.update_self, Function.update_of_ne hij, Function.update_self] at heq
      rw [Function.update_of_ne hij, Function.update_self] at hnew
      have hg₁ := Links.enqueue_grows (links i) h (h.val a)
      refine ⟨h', l, l', h.fresh :: new, heq, hg₁.trans hg, ?_, ?_⟩
      · convert hlaid using 1 <;> funext k <;> simp only [Function.update_apply] <;> split_ifs <;> simp
      · have hself : h'.val h.fresh = h.val a := by
          rw [hg.val _ (by rw [Links.enqueue_fresh]; exact Nat.lt_succ_self _),
            Links.enqueue_val_self]
        have hB' : B.map ((links i).enqueue h (h.val a)).1.val = B.map h.val :=
          List.map_congr_left fun x hx =>
            hg₁.val x (hL.lt_fresh j x (hB ▸ List.mem_cons_of_mem _ hx))
        rw [List.map_cons, hself, hnew, hB', hB, List.map_cons]

theorem enqueueNodes (hL : Laid h links ids) {i j : ι} (hij : j ≠ i) :
    ∃ h' l l' new, (links i).enqueueNodes h (links j) = some (h', l, l') ∧ h.Grows h' ∧
      Laid h' (Function.update (Function.update links i l) j l')
        (Function.update (Function.update ids i (ids i ++ new)) j []) ∧
      new.map h'.val = (ids j).map h.val :=
  enqueueNodesLoop hij _ hL (Nat.lt_succ_of_le (hL.length_le j))

end Laid

end TxQueue
