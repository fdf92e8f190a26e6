import TxList.Proofs.Overlay

/-!
# What a transaction's own operations do to its view

`put` and `remove` inside a transaction keep the view a patch of the shared lists: an overwriting
`put` changes one value in it, an inserting one links a new node in, and `remove` unlinks a node.
-/

namespace TxList

open Prog Chain

variable {K V : Type} {m : Nat}

namespace LocalStorage

variable {ls : LocalStorage V m} {mem : NodeId → LNode K V} {n : NodeId}

section Overwrite

variable {x : NodeId} {val : V}

theorem overwrite_lookup : (ls.overwrite mem x val).writeSet.lookup n =
    if n = x then some ⟨ls.nextOf mem x, some val, ls.deletes x⟩ else ls.writeSet.lookup n := by
  simp only [overwrite, addToReadSet_writeSet, putIntoWriteSet_writeSet]
  split_ifs with h
  · rw [h, AList.lookup_insert]
  · rw [AList.lookup_insert_ne h]

theorem overwrite_nextOf : (ls.overwrite mem x val).nextOf mem n = ls.nextOf mem n := by
  rw [nextOf, overwrite_lookup]
  split_ifs with h
  · rw [h]
  · rfl

theorem overwrite_deletes : (ls.overwrite mem x val).deletes n = ls.deletes n := by
  rw [deletes, overwrite_lookup]
  split_ifs with h
  · rw [h]
  · rfl

theorem overwrite_valOf : (ls.overwrite mem x val).valOf mem n =
    if n = x then some val else ls.valOf mem n := by
  rw [valOf, overwrite_lookup]
  split_ifs with h <;> rfl

theorem mem_overwrite : n ∈ (ls.overwrite mem x val).writeSet ↔ n = x ∨ n ∈ ls.writeSet :=
  AList.mem_insert _

end Overwrite

section Insert

variable {pred k : NodeId} {l : ListId m}

theorem insertAfter_lookup : (ls.insertAfter mem l pred k).writeSet.lookup n =
    if n = pred then some ⟨some k, ls.valOf mem pred, false⟩ else ls.writeSet.lookup n := by
  simp only [insertAfter, addToReadSet_writeSet, addToIndexAdd_writeSet, putIntoWriteSet_writeSet]
  split_ifs with h
  · rw [h, AList.lookup_insert]
  · rw [AList.lookup_insert_ne h]

theorem insertAfter_nextOf : (ls.insertAfter mem l pred k).nextOf mem n =
    if n = pred then some k else ls.nextOf mem n := by
  rw [nextOf, insertAfter_lookup]
  split_ifs <;> rfl

theorem insertAfter_deletes (h : ls.deletes pred = false) :
    (ls.insertAfter mem l pred k).deletes n = ls.deletes n := by
  rw [deletes, insertAfter_lookup]
  split_ifs with he
  · rw [he, h]
  · rfl

theorem insertAfter_valOf : (ls.insertAfter mem l pred k).valOf mem n = ls.valOf mem n := by
  rw [valOf, insertAfter_lookup]
  split_ifs with h
  · rw [h]
  · rfl

theorem mem_insertAfter : n ∈ (ls.insertAfter mem l pred k).writeSet ↔ n = pred ∨ n ∈ ls.writeSet :=
  AList.mem_insert _

theorem insertAfter_indexAdd (l' : ListId m) : (ls.insertAfter mem l pred k).indexAdd l' =
    if l' = l then ls.indexAdd l ++ [k] else ls.indexAdd l' := by
  simp only [insertAfter, addToReadSet_indexAdd, addToIndexAdd, putIntoWriteSet_indexAdd,
    Function.update_apply]

end Insert

section Unlink

variable {pred x : NodeId} {l : ListId m} {o : Option NodeId}

theorem unlink_lookup (hne : pred ≠ x) : (ls.unlink mem l pred x o).writeSet.lookup n =
    if n = x then some ⟨none, ls.valOf mem x, true⟩
    else if n = pred then some ⟨o, ls.valOf mem pred, false⟩ else ls.writeSet.lookup n := by
  simp only [unlink, addToIndexRemove_writeSet, addToReadSet_writeSet, putIntoWriteSet_writeSet,
    relink_valOf ls mem hne]
  split_ifs with h h'
  · rw [h, AList.lookup_insert]
  · rw [AList.lookup_insert_ne h, h', relink, putIntoWriteSet_writeSet, AList.lookup_insert]
  · rw [AList.lookup_insert_ne h, relink, putIntoWriteSet_writeSet, addToReadSet_writeSet,
      AList.lookup_insert_ne h']

theorem unlink_nextOf (hne : pred ≠ x) : (ls.unlink mem l pred x o).nextOf mem n =
    if n = x then none else if n = pred then o else ls.nextOf mem n := by
  rw [nextOf, unlink_lookup hne]
  split_ifs <;> rfl

theorem unlink_deletes (hne : pred ≠ x) (h : ls.deletes pred = false) :
    (ls.unlink mem l pred x o).deletes n = (decide (n = x) || ls.deletes n) := by
  rw [deletes, unlink_lookup hne]
  split_ifs with h1 h2
  · simp [h1]
  · simp [h2, hne, h]
  · simp [h1, deletes]

theorem unlink_valOf (hne : pred ≠ x) :
    (ls.unlink mem l pred x o).valOf mem n = ls.valOf mem n := by
  rw [valOf, unlink_lookup hne]
  split_ifs with h1 h2
  · rw [h1]
  · rw [h2]
  · rfl

theorem mem_unlink : n ∈ (ls.unlink mem l pred x o).writeSet ↔
    n = x ∨ n = pred ∨ n ∈ ls.writeSet := by
  simp only [unlink, addToIndexRemove_writeSet, addToReadSet_writeSet, putIntoWriteSet_writeSet,
    AList.mem_insert, relink]

theorem unlink_indexAdd : (ls.unlink mem l pred x o).indexAdd = ls.indexAdd := rfl

theorem mem_unlink_indexRemove (l' : ListId m) : n ∈ (ls.unlink mem l pred x o).indexRemove l' ↔
    n ∈ ls.indexRemove l' ∨ l' = l ∧ n = x := by
  simp only [unlink, addToIndexRemove, addToReadSet_indexRemove, putIntoWriteSet_indexRemove, relink]
  by_cases h : l' = l
  · subst h
    simp
  · simp [h]

end Unlink

/-! ### What is seen after them -/

section Seen

variable {S : ListId m → Finset NodeId} {l l' : ListId m} {pred x k : NodeId} {o : Option NodeId}

theorem seen_overwrite {val : V} : (ls.overwrite mem x val).seen S l = ls.seen S l := by
  ext n
  simp only [mem_seen, overwrite_deletes]
  rfl

theorem mem_seen_insertAfter (hp : ls.deletes pred = false) (hk : k ∉ ls.writeSet) :
    n ∈ (ls.insertAfter mem l pred k).seen S l' ↔ n ∈ ls.seen S l' ∨ l' = l ∧ n = k := by
  rw [mem_seen, mem_seen, insertAfter_deletes hp, insertAfter_indexAdd]
  by_cases hl : l' = l
  · subst hl
    by_cases hn : n = k
    · subst hn
      simp [deletes_of_notMem hk]
    · simp [hn]
  · simp [hl]

theorem mem_seen_unlink (hne : pred ≠ x) (hp : ls.deletes pred = false) :
    n ∈ (ls.unlink mem l pred x o).seen S l' ↔ n ∈ ls.seen S l' ∧ n ≠ x := by
  rw [mem_seen, mem_seen, unlink_deletes hne hp, unlink_indexAdd]
  by_cases hn : n = x <;> simp [hn]

end Seen

end LocalStorage

variable [LinearOrder K]

namespace Overlay

variable {s : Shared K V m} {S : ListId m → Finset NodeId} {ls : LocalStorage V m} {l l' : ListId m}
  {n : NodeId}

/-- What the transaction sees does not depend on its read set. -/
theorem addToReadSet (hO : Overlay s S ls) (n : NodeId) : Overlay s S (ls.addToReadSet n) :=
  ⟨hO.patch, hO.threads, hO.val, hO.head_kept, hO.remove, hO.order, hO.dead, hO.new, hO.apart,
    hO.writes⟩

theorem kept (hO : Overlay s S ls) (hn : n ∈ insert (head l) (ls.seen S l)) :
    ls.deletes n = false := by
  rcases Finset.mem_insert.1 hn with rfl | hn
  · exact hO.head_kept l
  · exact (LocalStorage.mem_seen.1 hn).2

theorem le_of_seen (hO : Overlay s S ls) (hL : Lists s S) (hn : n ∈ ls.seen S l) : m ≤ n := by
  rcases (LocalStorage.mem_seen.1 hn).1 with h | h
  · exact (hL.bound l n h).1
  · exact (hO.new l n h).1

theorem rank_seen (hO : Overlay s S ls) (hL : Lists s S) (hn : n ∈ ls.seen S l) :
    s.rank n = ((s.mem n).key : WithBot K) :=
  s.rank_of_le (hO.le_of_seen hL hn)

/-- No node is on two of the lists it sees. -/
theorem seen_unique (hO : Overlay s S ls) (hL : Lists s S) (hn : n ∈ insert (head l) (ls.seen S l))
    (hn' : n ∈ insert (head l') (ls.seen S l')) : l = l' := by
  by_contra hne
  rcases Finset.mem_insert.1 hn with h | h <;> rcases Finset.mem_insert.1 hn' with h' | h'
  · exact hne (Fin.ext (h.symm.trans h'))
  · exact absurd (hO.le_of_seen hL h') (by rw [h]; exact Nat.not_le.2 l.isLt)
  · exact absurd (hO.le_of_seen hL h) (by rw [h']; exact Nat.not_le.2 l'.isLt)
  · rcases (LocalStorage.mem_seen.1 h).1 with h | h <;>
      rcases (LocalStorage.mem_seen.1 h').1 with h' | h'
    · exact Finset.disjoint_left.1 (hL.disjoint l l' hne) h h'
    · exact (hO.apart l' l (Ne.symm hne) n h').1 h
    · exact (hO.apart l l' hne n h).1 h'
    · exact (hO.apart l l' hne n h).2 h'

/-- The node right below a rank in the shared list is the one seen there, or one written to. -/
theorem prev_eq_or_written (hO : Overlay s S ls) (hL : Lists s S) {r : WithBot K} {p q : NodeId}
    (hp : IsPrev s.rank (ls.seen S l) (head l) r p) (hq : IsPrev s.rank (S l) (head l) r q) :
    q = p ∨ q ∈ ls.writeSet :=
  ((hO.patch l).mono LocalStorage.added_subset (Set.Subset.refl _)).eq_or_mem
    (hL.threads l).toRanked (hO.threads l).toRanked hp hq

/-! ## An overwriting `put` -/

theorem overwrite (hO : Overlay s S ls) {x : NodeId} (hx : x ∈ ls.seen S l) (val : V) :
    Overlay s S (ls.overwrite s.mem x val) := by
  have hdel : ∀ n, (ls.overwrite s.mem x val).deletes n = ls.deletes n := fun n =>
    LocalStorage.overwrite_deletes
  have hgone : ∀ A, (ls.overwrite s.mem x val).gone A = ls.gone A := fun A => by
    simp only [LocalStorage.gone, hdel]
  have hseen : ∀ l, (ls.overwrite s.mem x val).seen S l = ls.seen S l := fun l =>
    LocalStorage.seen_overwrite
  refine ⟨fun l => ?_, fun l => ?_, fun l n hn => ?_, fun l => ?_, fun l n => ?_, fun l => ?_,
    fun l y hy hd n hn => ?_, hO.new, hO.apart, fun n hn => ?_⟩
  · rw [hgone]
    exact (hO.patch l).mono (Finset.Subset.refl _) fun n hn => LocalStorage.mem_overwrite.2 (.inr hn)
  · rw [hseen]
    exact (hO.threads l).congr (fun _ _ => rfl) fun n _ => LocalStorage.overwrite_nextOf
  · rw [hseen] at hn
    rw [LocalStorage.overwrite_valOf]
    split_ifs
    · rfl
    · exact hO.val l n hn
  · rw [hdel]
    exact hO.head_kept l
  · rw [hdel]
    exact hO.remove l n
  · simp only [hdel]
    exact hO.order l
  · rw [hdel] at hd ⊢
    exact hO.dead l y hy hd n hn
  · rcases LocalStorage.mem_overwrite.1 hn with rfl | hn
    · exact ⟨l, (LocalStorage.mem_seen.1 hx).1.imp_left (Finset.mem_insert_of_mem)⟩
    · exact hO.writes n hn

end Overlay

/-! ## An inserting `put` -/

/-- A node `f` of the transaction's own that it links behind `pred` of list `l`. -/
structure Placing (s : Shared K V m) (S : ListId m → Finset NodeId) (ls : LocalStorage V m)
    (l : ListId m) (pred f : NodeId) : Prop where
  overlay : Overlay s S ls
  lists : Lists s S
  prev : IsPrev s.rank (ls.seen S l) (head l) (s.rank f) pred
  absent : ∀ n ∈ ls.seen S l, s.rank n ≠ s.rank f
  notMem : ∀ l, f ∉ S l ∧ f ∉ ls.indexAdd l
  unwritten : f ∉ ls.writeSet
  new : m ≤ f ∧ f < s.fresh ∧ (s.mem f).val.isSome = true ∧ (s.mem f).isDeleted = false
  next : (s.mem f).next = ls.nextOf s.mem pred

namespace Placing

variable {s : Shared K V m} {S : ListId m → Finset NodeId} {ls : LocalStorage V m} {l l' : ListId m}
  {pred f n : NodeId}

theorem deletes_eq (h : Placing s S ls l pred f) :
    (ls.insertAfter s.mem l pred f).deletes = ls.deletes :=
  funext fun _ => LocalStorage.insertAfter_deletes (h.overlay.kept h.prev.1)

theorem deletes_self (h : Placing s S ls l pred f) : ls.deletes f = false :=
  LocalStorage.deletes_of_notMem h.unwritten

omit [LinearOrder K] in
theorem mem_indexAdd : n ∈ (ls.insertAfter s.mem l pred f).indexAdd l' ↔
    n ∈ ls.indexAdd l' ∨ l' = l ∧ n = f := by
  rw [LocalStorage.insertAfter_indexAdd]
  split_ifs with h <;> simp [h]

theorem seen_self (h : Placing s S ls l pred f) :
    (ls.insertAfter s.mem l pred f).seen S l = insert f (ls.seen S l) := by
  ext n
  simp [LocalStorage.mem_seen_insertAfter (h.overlay.kept h.prev.1) h.unwritten, or_comm]

theorem seen_of_ne (h : Placing s S ls l pred f) (hl : l' ≠ l) :
    (ls.insertAfter s.mem l pred f).seen S l' = ls.seen S l' := by
  ext n
  simp [LocalStorage.mem_seen_insertAfter (h.overlay.kept h.prev.1) h.unwritten, hl]

theorem bot_lt (h : Placing s S ls l pred f) : ⊥ < s.rank f := by
  rw [s.rank_of_le h.new.1]
  exact WithBot.bot_lt_coe _

theorem notMem_seen (h : Placing s S ls l pred f) : f ∉ insert (head l') (ls.seen S l') := by
  intro hf
  rcases Finset.mem_insert.1 hf with he | hf
  · exact h.bot_lt.ne' (he ▸ s.rank_head l')
  · exact (LocalStorage.mem_seen.1 hf).1.elim (h.notMem l').1 (h.notMem l').2

theorem patch (h : Placing s S ls l pred f) (l' : ListId m) :
    Patch s.rank (head l') (S l') ((ls.insertAfter s.mem l pred f).gone (S l'))
      ((ls.insertAfter s.mem l pred f).indexAdd l').toFinset
      (ls.insertAfter s.mem l pred f).written := by
  have hPl : Patch s.rank (head l') (S l') (ls.gone (S l')) (ls.indexAdd l').toFinset
      (ls.insertAfter s.mem l pred f).written :=
    (h.overlay.patch l').mono (Finset.Subset.refl _) fun n hn =>
      LocalStorage.mem_insertAfter.2 (.inr hn)
  rw [LocalStorage.gone, h.deletes_eq]
  refine ⟨hPl.sub, fun y hy => ?_, fun y hy => ?_, hPl.del, fun y hy p hpy => ?_⟩
  · rcases mem_indexAdd.1 (List.mem_toFinset.1 hy) with hy | ⟨-, rfl⟩
    · exact hPl.new y (List.mem_toFinset.2 hy)
    · exact (h.notMem l').1
  · rcases mem_indexAdd.1 (List.mem_toFinset.1 hy) with hy | ⟨-, rfl⟩
    · exact hPl.above y (List.mem_toFinset.2 hy)
    · rw [s.rank_head]
      exact h.bot_lt
  · rcases Finset.mem_union.1 hy with hy | hy
    · exact hPl.prev y (Finset.mem_union_left _ hy) p hpy
    · rcases mem_indexAdd.1 (List.mem_toFinset.1 hy) with hy | ⟨rfl, rfl⟩
      · exact hPl.prev y (Finset.mem_union_right _ (List.mem_toFinset.2 hy)) p hpy
      · exact LocalStorage.mem_insertAfter.2 (h.overlay.prev_eq_or_written h.lists h.prev hpy)

theorem threads (h : Placing s S ls l pred f) (l' : ListId m) :
    Threads s.rank ((ls.insertAfter s.mem l pred f).nextOf s.mem) (head l')
      ((ls.insertAfter s.mem l pred f).seen S l') := by
  by_cases hne : l' = l
  · subst hne
    rw [h.seen_self]
    refine (h.overlay.threads l').insert_node h.prev h.absent ?_ ?_ fun n _ hnp => ?_
    · rw [LocalStorage.insertAfter_nextOf, if_pos rfl]
    · rw [LocalStorage.insertAfter_nextOf, if_neg fun he => h.notMem_seen (he ▸ h.prev.1),
        LocalStorage.nextOf_of_notMem h.unwritten, h.next]
    · rw [LocalStorage.insertAfter_nextOf, if_neg hnp]
  · rw [h.seen_of_ne hne]
    refine (h.overlay.threads l').congr (fun _ _ => rfl) fun n hn => ?_
    rw [LocalStorage.insertAfter_nextOf, if_neg]
    rintro rfl
    exact hne (h.overlay.seen_unique h.lists hn h.prev.1)

theorem val (h : Placing s S ls l pred f)
    (hn : n ∈ insert (head l') ((ls.insertAfter s.mem l pred f).seen S l')) :
    ((ls.insertAfter s.mem l pred f).valOf s.mem n).isSome = true := by
  rw [LocalStorage.insertAfter_valOf]
  by_cases hf : n = f
  · rw [hf, LocalStorage.valOf_of_notMem h.unwritten]
    exact h.new.2.2.1
  · refine h.overlay.val l' n ?_
    by_cases hne : l' = l
    · subst hne
      rw [h.seen_self, Finset.insert_comm] at hn
      exact Finset.mem_of_mem_insert_of_ne hn hf
    · rwa [h.seen_of_ne hne] at hn

theorem order (h : Placing s S ls l pred f) (l' : ListId m) :
    ((ls.insertAfter s.mem l pred f).indexAdd l').Pairwise fun a b =>
      a ≠ b ∧ (ls.deletes a = false → s.rank a ≠ s.rank b) := by
  rw [LocalStorage.insertAfter_indexAdd]
  split_ifs with he
  · subst he
    refine List.pairwise_append.2
      ⟨h.overlay.order l', List.pairwise_singleton _ _, fun a ha b hb => ?_⟩
    rw [List.mem_singleton.1 hb]
    exact ⟨fun he => (h.notMem l').2 (he ▸ ha),
      fun hd => h.absent a (LocalStorage.mem_seen.2 ⟨.inr ha, hd⟩)⟩
  · exact h.overlay.order l'

theorem apart (h : Placing s S ls l pred f) {l₁ l₂ : ListId m} (hne : l₁ ≠ l₂)
    (hn : n ∈ (ls.insertAfter s.mem l pred f).indexAdd l₁) :
    n ∉ S l₂ ∧ n ∉ (ls.insertAfter s.mem l pred f).indexAdd l₂ := by
  rw [mem_indexAdd, not_or, not_and]
  rcases mem_indexAdd.1 hn with hn | ⟨rfl, rfl⟩
  · obtain ⟨h1, h2⟩ := h.overlay.apart l₁ l₂ hne n hn
    exact ⟨h1, h2, fun _ he => (h.notMem l₁).2 (he ▸ hn)⟩
  · exact ⟨(h.notMem l₂).1, (h.notMem l₂).2, fun he => absurd he.symm hne⟩

theorem remove (h : Placing s S ls l pred f) (l' : ListId m) (n : NodeId) :
    n ∈ ls.indexRemove l' ↔ ls.deletes n = true ∧
      (n ∈ S l' ∨ n ∈ (ls.insertAfter s.mem l pred f).indexAdd l') := by
  rw [h.overlay.remove l' n, mem_indexAdd]
  refine and_congr_right fun hd => or_congr_right (iff_self_or.2 ?_)
  rintro ⟨-, rfl⟩
  rw [h.deletes_self] at hd
  exact absurd hd Bool.false_ne_true

/-- The new node takes its place in what the transaction sees. -/
theorem insertAfter (h : Placing s S ls l pred f) :
    Overlay s S (ls.insertAfter s.mem l pred f) where
  patch := h.patch
  threads := h.threads
  val _ _ hn := h.val hn
  head_kept l' := by
    rw [h.deletes_eq]
    exact h.overlay.head_kept l'
  remove l' n := by
    rw [h.deletes_eq]
    exact h.remove l' n
  order l' := by
    rw [h.deletes_eq]
    exact h.order l'
  dead l' x hx hd n hn hr := by
    rw [h.deletes_eq] at hd ⊢
    rcases mem_indexAdd.1 hx with hx | ⟨-, rfl⟩
    · exact h.overlay.dead l' x hx hd n hn hr
    · rw [h.deletes_self] at hd
      exact absurd hd Bool.false_ne_true
  new l' x hx := by
    rcases mem_indexAdd.1 hx with hx | ⟨-, rfl⟩
    · exact h.overlay.new l' x hx
    · exact h.new
  apart _ _ hne _ hn := h.apart hne hn
  writes n hn := by
    rcases LocalStorage.mem_insertAfter.1 hn with rfl | hn
    · refine ⟨l, ?_⟩
      rcases Finset.mem_insert.1 h.prev.1 with he | hn
      · exact .inl (he ▸ Finset.mem_insert_self _ _)
      · exact (LocalStorage.mem_seen.1 hn).1.imp Finset.mem_insert_of_mem
          fun hn => mem_indexAdd.2 (.inl hn)
    · obtain ⟨l', hn⟩ := h.overlay.writes n hn
      exact ⟨l', hn.imp_right fun hn => mem_indexAdd.2 (.inl hn)⟩

end Placing

namespace Overlay

variable {s : Shared K V m} {S : ListId m → Finset NodeId} {ls : LocalStorage V m} {l : ListId m}

/-- A `put` allocates its node with what it sees behind `pred` as its next one. -/
theorem placing (hO : Overlay s S ls) (hL : Lists s S) (hm : m ≤ s.fresh)
    (hws : ∀ n ∈ ls.writeSet, n < s.fresh) {key : K} {val : V} {pred : NodeId}
    (hp : IsPrev s.rank (ls.seen S l) (head l) key pred)
    (habs : ∀ n ∈ ls.seen S l, s.rank n ≠ (key : WithBot K)) :
    Placing (s.alloc { key := key, val := some val, next := ls.nextOf s.mem pred }) S ls l pred
      s.fresh := by
  set s' := s.alloc { key := key, val := some val, next := ls.nextOf s.mem pred } with hs'
  have hmem : ∀ n < s.fresh, s'.mem n = s.mem n := fun n hn => by
    simp [hs', Function.update_of_ne (show n ≠ s.fresh from hn.ne)]
  have hnew : s'.mem s.fresh = { key := key, val := some val, next := ls.nextOf s.mem pred } := by
    simp [hs']
  have hM : Mutates s s' S (fun _ => ∅) (fun _ => ∅) ∅ :=
    Mutates.of_same hL hm (Nat.le_succ _) (fun n hn => by rw [hmem n hn])
      (fun n hn => by rw [hmem n hn]; exact ⟨rfl, rfl, rfl⟩) rfl
  have hO' : Overlay s' S ls := by
    have := hO.mutate hL hm hM (Set.disjoint_empty _) (fun l f hf => by simp at hf)
      fun l x _ => Set.notMem_empty x
    simpa only [patched_empty] using this
  have hL' : Lists s' S := by
    have := hM.lists
    simpa only [patched_empty] using this
  have hrnew : s'.rank s.fresh = (key : WithBot K) := by rw [s'.rank_of_le hm, hnew]
  have hlt : ∀ n ∈ insert (head l) (ls.seen S l), n < s.fresh := by
    intro n hn
    rcases Finset.mem_insert.1 hn with rfl | hn
    · exact l.isLt.trans_le hm
    · rcases (LocalStorage.mem_seen.1 hn).1 with h | h
      · exact (hL.bound l n h).2
      · exact (hO.new l n h).2.1
  refine ⟨hO', hL', ?_, fun n hn => ?_, fun l' => ⟨?_, ?_⟩, fun h => (hws _ h).ne rfl,
    ⟨hm, Nat.lt_succ_self _, by rw [hnew]; rfl, by rw [hnew]; rfl⟩, ?_⟩
  · rw [hrnew]
    exact hp.congr_rank fun n hn => hM.rank (hlt n hn)
  · rw [hrnew, hM.rank (hlt n (Finset.mem_insert_of_mem hn))]
    exact habs n hn
  · exact fun h => (hL.bound l' _ h).2.ne rfl
  · exact fun h => (hO.new l' _ h).2.1.ne rfl
  · rw [hnew]
    exact LocalStorage.nextOf_congr fun _ => by rw [hmem pred (hlt pred hp.1)]

end Overlay

/-! ## `remove` -/

/-- A node `x` behind `pred` of list `l` that the transaction takes out. -/
structure Taking (s : Shared K V m) (S : ListId m → Finset NodeId) (ls : LocalStorage V m)
    (l : ListId m) (pred x : NodeId) : Prop where
  overlay : Overlay s S ls
  lists : Lists s S
  mem : x ∈ ls.seen S l
  prev : IsPrev s.rank (ls.seen S l) (head l) (s.rank x) pred

namespace Taking

variable {s : Shared K V m} {S : ListId m → Finset NodeId} {ls : LocalStorage V m} {l l' : ListId m}
  {pred x n : NodeId} {o : Option NodeId}

theorem ne (h : Taking s S ls l pred x) : pred ≠ x := fun he => h.prev.2.1.ne (by rw [he])

theorem deletes_eq (h : Taking s S ls l pred x) :
    (ls.unlink s.mem l pred x o).deletes n = (decide (n = x) || ls.deletes n) :=
  LocalStorage.unlink_deletes h.ne (h.overlay.kept h.prev.1)

theorem deletes_ne (h : Taking s S ls l pred x) (hn : n ≠ x) :
    (ls.unlink s.mem l pred x o).deletes n = ls.deletes n := by
  simp [h.deletes_eq, hn]

theorem deletes_self (h : Taking s S ls l pred x) :
    (ls.unlink s.mem l pred x o).deletes x = true := by
  simp [h.deletes_eq]

theorem kept (h : Taking s S ls l pred x) : ls.deletes x = false :=
  (LocalStorage.mem_seen.1 h.mem).2

theorem mem_or (h : Taking s S ls l pred x) : x ∈ S l ∨ x ∈ ls.indexAdd l :=
  (LocalStorage.mem_seen.1 h.mem).1

/-- It is on no other list. -/
theorem other (h : Taking s S ls l pred x) (hl : l' ≠ l) : x ∉ S l' ∧ x ∉ ls.indexAdd l' := by
  rcases h.mem_or with hx | hx
  · exact ⟨fun h' => Finset.disjoint_left.1 (h.lists.disjoint l' l hl) h' hx,
      fun h' => (h.overlay.apart l' l hl x h').1 hx⟩
  · exact h.overlay.apart l l' (Ne.symm hl) x hx

theorem mem_gone (h : Taking s S ls l pred x) : n ∈ (ls.unlink s.mem l pred x o).gone (S l') ↔
    n ∈ ls.gone (S l') ∨ n = x ∧ x ∈ S l' := by
  simp only [LocalStorage.mem_gone]
  by_cases hn : n = x
  · subst hn
    simp [h.deletes_self, h.kept]
  · simp [h.deletes_ne hn, hn]

theorem seen_eq (h : Taking s S ls l pred x) :
    (ls.unlink s.mem l pred x o).seen S l' = (ls.seen S l').erase x := by
  ext n
  rw [LocalStorage.mem_seen_unlink h.ne (h.overlay.kept h.prev.1), Finset.mem_erase, and_comm]

theorem patch (h : Taking s S ls l pred x) (l' : ListId m) :
    Patch s.rank (head l') (S l') ((ls.unlink s.mem l pred x o).gone (S l'))
      (ls.indexAdd l').toFinset (ls.unlink s.mem l pred x o).written := by
  have hsub : ls.written ⊆ (ls.unlink s.mem l pred x o).written := fun n hn =>
    LocalStorage.mem_unlink.2 (.inr (.inr hn))
  have hPl := (h.overlay.patch l').mono (Finset.Subset.refl _) hsub
  refine ⟨fun d hd => ?_, hPl.new, hPl.above, fun d hd => ?_, fun y hy p hpy => ?_⟩
  · rcases h.mem_gone.1 hd with hd | ⟨rfl, hx⟩
    · exact hPl.sub hd
    · exact hx
  · rcases h.mem_gone.1 hd with hd | ⟨rfl, -⟩
    · exact hPl.del d hd
    · exact LocalStorage.mem_unlink.2 (.inl rfl)
  · rcases Finset.mem_union.1 hy with hy | hy
    · rcases h.mem_gone.1 hy with hy | ⟨rfl, hx⟩
      · exact hPl.prev y (Finset.mem_union_left _ hy) p hpy
      · have hl : l' = l := not_imp_comm.1 h.other fun h' => h'.1 hx
        subst hl
        rcases h.overlay.prev_eq_or_written h.lists h.prev hpy with rfl | hp
        · exact LocalStorage.mem_unlink.2 (.inr (.inl rfl))
        · exact hsub hp
    · exact hPl.prev y (Finset.mem_union_right _ hy) p hpy

theorem threads (h : Taking s S ls l pred x) (l' : ListId m) :
    Threads s.rank ((ls.unlink s.mem l pred x (ls.nextOf s.mem x)).nextOf s.mem) (head l')
      ((ls.seen S l').erase x) := by
  have hx := Finset.mem_insert_of_mem (a := x) (b := head l) h.mem
  by_cases hl : l' = l
  · subst hl
    refine (h.overlay.threads l').erase_node h.prev.1
      ((h.overlay.threads l').next_of_isPrev h.mem h.prev) ?_ fun n _ hnp hnx => ?_
    · rw [LocalStorage.unlink_nextOf h.ne, if_neg h.ne, if_pos rfl]
    · rw [LocalStorage.unlink_nextOf h.ne, if_neg hnx, if_neg hnp]
  · have hxn : x ∉ ls.seen S l' := fun hx' => hl
      (h.overlay.seen_unique h.lists (Finset.mem_insert_of_mem hx') hx)
    rw [Finset.erase_eq_of_notMem hxn]
    refine (h.overlay.threads l').congr (fun _ _ => rfl) fun n hn => ?_
    rw [LocalStorage.unlink_nextOf h.ne, if_neg, if_neg]
    · rintro rfl
      exact hl (h.overlay.seen_unique h.lists hn h.prev.1)
    · rintro rfl
      exact hl (h.overlay.seen_unique h.lists hn hx)

theorem remove (h : Taking s S ls l pred x) (l' : ListId m) (n : NodeId) :
    n ∈ (ls.unlink s.mem l pred x o).indexRemove l' ↔
      (ls.unlink s.mem l pred x o).deletes n = true ∧ (n ∈ S l' ∨ n ∈ ls.indexAdd l') := by
  rw [LocalStorage.mem_unlink_indexRemove, h.overlay.remove l' n]
  by_cases hn : n = x
  · subst hn
    rw [h.kept, h.deletes_self]
    by_cases hl : l' = l
    · subst hl
      simpa using h.mem_or
    · simpa [hl] using h.other hl
  · simp [h.deletes_ne hn, hn]

theorem dead (h : Taking s S ls l pred x) {y : NodeId} (hy : y ∈ ls.indexAdd l')
    (hd : (ls.unlink s.mem l pred x o).deletes y = true) (hn : n ∈ S l')
    (hr : s.rank n = s.rank y) : (ls.unlink s.mem l pred x o).deletes n = true := by
  by_cases hnx : n = x
  · rw [hnx]
    exact h.deletes_self
  rw [h.deletes_ne hnx]
  by_cases hyx : y = x
  · subst hyx
    by_contra hnd
    -- a node seen with the rank of `y` would be `y`
    obtain rfl : l' = l := not_imp_comm.1 h.other fun h' => h'.2 hy
    refine hnx ((h.overlay.threads l').inj n ?_ y h.mem hr)
    exact LocalStorage.mem_seen.2 ⟨.inl hn, by simpa using hnd⟩
  · rw [h.deletes_ne hyx] at hd
    exact h.overlay.dead l' y hy hd n hn hr

/-- The node `x` leaves what the transaction sees. -/
theorem unlink (h : Taking s S ls l pred x) :
    Overlay s S (ls.unlink s.mem l pred x (ls.nextOf s.mem x)) where
  patch := h.patch
  threads l' := by
    rw [h.seen_eq]
    exact h.threads l'
  val l' n hn := by
    rw [LocalStorage.unlink_valOf h.ne]
    rw [h.seen_eq] at hn
    exact h.overlay.val l' n (Finset.insert_subset_insert _ (Finset.erase_subset _ _) hn)
  head_kept l' := by
    rw [h.deletes_ne]
    · exact h.overlay.head_kept l'
    · rintro rfl
      exact Nat.not_le.2 l'.isLt (h.overlay.le_of_seen h.lists h.mem)
  remove := h.remove
  order l' := by
    refine (h.overlay.order l').imp fun h' => ⟨h'.1, fun hd => h'.2 ?_⟩
    rw [h.deletes_eq] at hd
    exact (Bool.or_eq_false_iff.1 hd).2
  dead _ _ hy hd _ hn hr := h.dead hy hd hn hr
  new := h.overlay.new
  apart := h.overlay.apart
  writes n hn := by
    rcases LocalStorage.mem_unlink.1 hn with rfl | rfl | hn
    · exact ⟨l, h.mem_or.imp_left Finset.mem_insert_of_mem⟩
    · refine ⟨l, ?_⟩
      rcases Finset.mem_insert.1 h.prev.1 with he | hn
      · exact .inl (he ▸ Finset.mem_insert_self _ _)
      · exact (LocalStorage.mem_seen.1 hn).1.imp_left Finset.mem_insert_of_mem
    · exact h.overlay.writes n hn

end Taking

end TxList
