import TxList.Proofs.Commit

/-!
# What a singleton operation leaves

An overwriting put writes to the node with the key, an insertion to the node before the new one,
a removal to the removed node and the one before it. Each leaves sorted lists with one node more,
one node less or the same nodes.
-/

namespace TxList

open Prog Chain

variable {K V : Type} {m : Nat} [LinearOrder K]

/-- The nodes `A` at list `l`, none at the others. -/
def only (l : ListId m) (A : Finset NodeId) : ListId m → Finset NodeId :=
  Function.update (fun _ => ∅) l A

omit [LinearOrder K] in
@[simp] theorem only_self (l : ListId m) (A : Finset NodeId) : only l A l = A := by simp [only]

omit [LinearOrder K] in
@[simp] theorem only_ne {l l' : ListId m} (A : Finset NodeId) (h : l' ≠ l) : only l A l' = ∅ := by
  simp [only, h]

omit [LinearOrder K] in
theorem mem_only {l l' : ListId m} {A : Finset NodeId} {n : NodeId} :
    n ∈ only l A l' ↔ l' = l ∧ n ∈ A := by
  by_cases h : l' = l
  · subst h
    simp
  · simp [h]

namespace Lists

variable {s : Shared K V m} {S : ListId m → Finset NodeId} {l l' : ListId m} {n : NodeId}

/-- No node is on two lists. -/
theorem unique_list (hL : Lists s S) (hn : n ∈ insert (head l) (S l))
    (hn' : n ∈ insert (head l') (S l')) : l = l' := by
  by_contra hne
  rcases Finset.mem_insert.1 hn with h | h <;> rcases Finset.mem_insert.1 hn' with h' | h'
  · exact hne (Fin.ext (h.symm.trans h'))
  · exact absurd (hL.bound l' n h').1 (by rw [h]; exact Nat.not_le.2 l.isLt)
  · exact absurd (hL.bound l n h).1 (by rw [h']; exact Nat.not_le.2 l'.isLt)
  · exact Finset.disjoint_left.1 (hL.disjoint l l' hne) h h'

theorem stampValue_mutates (hL : Lists s S) (hm : m ≤ s.fresh) {y : NodeId} (hy : y ∈ S l) (val : V) :
    Mutates s (s.stampValue y val) S (fun _ => ∅) (fun _ => ∅) {y} := by
  have hne : ∀ n, n ≠ y → (s.stampValue y val).mem n = s.mem n := fun n h => by
    simp [Shared.stampValue, h]
  have heq : (s.stampValue y val).mem y = { s.mem y with
      val := some val, word := { (s.mem y).word with singleton := true, version := s.gvc } } := by
    simp [Shared.stampValue]
  have hlive := hL.live l y (Finset.mem_insert_of_mem hy)
  have hkey : ∀ n, ((s.stampValue y val).mem n).key = (s.mem n).key := fun n => by
    by_cases h : n = y
    · rw [h, heq]
    · rw [hne n h]
  refine ⟨le_rfl, fun n _ => hkey n, fun l => .empty _ _ _, ?_, fun n _ hn => ?_, fun n _ hn => ?_,
    fun l n hn => by simp at hn⟩
  · simp only [patched_empty]
    refine hL.congr hm le_rfl (fun n _ => hkey n) (fun l n _ => ?_) (fun l n _ => ?_)
      (fun l n _ => ?_) rfl <;> by_cases h : n = y
    · rw [h, heq]
    · rw [hne n h]
    · rw [h, heq, hlive.1]
      rfl
    · rw [hne n h]
    · rw [h, heq]
      rfl
    · rw [hne n h]
  · rw [hne n hn]
    exact ⟨rfl, rfl, rfl⟩
  · rcases hn with hn | ⟨_, hn⟩
    · rw [show n = y from hn]
      exact hlive.2
    · simp at hn

end Lists

/-- In `s'` a new node of `key` is on list `l`, behind `p`. -/
structure Joined (s s' : Shared K V m) (S : ListId m → Finset NodeId) (l : ListId m) (key : K)
    (p : NodeId) : Prop where
  lists : Lists s S
  heads : m ≤ s.fresh
  isPrev : IsPrev s.rank (S l) (head l) key p
  absent : ∀ n ∈ S l, s.rank n ≠ (key : WithBot K)
  fresh : s'.fresh = s.fresh + 1
  new_key : (s'.mem s.fresh).key = key
  new_next : s'.next s.fresh = s.next p
  new_live : (s'.mem s.fresh).val.isSome = true ∧ (s'.mem s.fresh).isDeleted = false
  pred : s'.mem p = { s.mem p with next := some s.fresh }
  out : ∀ n < s.fresh, n ≠ p → s'.mem n = s.mem n
  other : ∀ l', l' ≠ l → s'.index l' = s.index l'
  index : Index.Indexed s'.view s'.rank (head l) (s'.index l) (insert s.fresh (S l))

namespace Joined

variable {s s' : Shared K V m} {S : ListId m → Finset NodeId} {l l' : ListId m} {key : K}
  {p n : NodeId}

theorem key_eq (h : Joined s s' S l key p) (hn : n < s.fresh) : (s'.mem n).key = (s.mem n).key := by
  by_cases he : n = p
  · rw [he, h.pred]
  · rw [h.out n hn he]

theorem rank_eq (h : Joined s s' S l key p) (hn : n ∈ insert (head l') (S l')) :
    s'.rank n = s.rank n := by
  simp only [Shared.rank, h.key_eq (h.lists.lt_fresh h.heads hn)]

theorem rank_new (h : Joined s s' S l key p) : s'.rank s.fresh = key := by
  rw [s'.rank_of_le h.heads, h.new_key]

theorem isPrev_new (h : Joined s s' S l key p) :
    IsPrev s'.rank (S l) (head l) (s'.rank s.fresh) p := by
  rw [h.rank_new]
  exact h.isPrev.congr_rank fun n hn => h.rank_eq hn

theorem threads_old (h : Joined s s' S l key p) (l' : ListId m) :
    Threads s'.rank s.next (head l') (S l') :=
  (h.lists.threads l').congr (fun _ hn => h.rank_eq hn) fun _ _ => rfl

omit [LinearOrder K] in
theorem mem_patched {f : NodeId} :
    n ∈ patched (S l') ∅ (only l {f} l') ↔ n ∈ S l' ∨ l' = l ∧ n = f := by
  simp [patched, mem_only]

omit [LinearOrder K] in
theorem patched_self {f : NodeId} : patched (S l) ∅ (only l {f} l) = insert f (S l) := by
  ext n
  rw [mem_patched]
  simp [or_comm]

omit [LinearOrder K] in
theorem patched_ne {f : NodeId} (hl : l' ≠ l) : patched (S l') ∅ (only l {f} l') = S l' := by
  rw [only_ne _ hl, patched_empty]

theorem patch (h : Joined s s' S l key p) (l' : ListId m) :
    Patch s'.rank (head l') (S l') ∅ (only l {s.fresh} l') {p} := by
  by_cases hl : l' = l
  · subst hl
    refine ⟨Finset.empty_subset _, fun f hf => ?_, fun f hf => ?_, fun d hd => by simp at hd,
      fun x hx q hq => ?_⟩
    · rw [only_self, Finset.mem_singleton] at hf
      exact fun hS => (h.lists.bound l' f hS).2.ne hf
    · rw [only_self, Finset.mem_singleton] at hf
      rw [hf, h.rank_new, s'.rank_head]
      exact WithBot.bot_lt_coe key
    · rw [only_self, Finset.empty_union, Finset.mem_singleton] at hx
      rw [hx] at hq
      exact IsPrev.unique (h.threads_old l').toRanked hq h.isPrev_new
  · rw [only_ne _ hl]
    exact .empty _ _ _

theorem threads (h : Joined s s' S l key p) (l' : ListId m) :
    Threads s'.rank s'.next (head l') (patched (S l') ∅ (only l {s.fresh} l')) := by
  have hout : ∀ {l' n}, n ∈ insert (head l') (S l') → n ≠ p → s'.next n = s.next n :=
    fun hn he => by
      rw [Shared.next, h.out _ (h.lists.lt_fresh h.heads hn) he]
      rfl
  by_cases hl : l' = l
  · subst hl
    rw [patched_self]
    refine (h.threads_old l').insert_node h.isPrev_new (fun n hn => ?_) ?_ h.new_next
      fun n hn he => hout hn he
    · rw [h.rank_eq (Finset.mem_insert_of_mem hn), h.rank_new]
      exact h.absent n hn
    · rw [Shared.next, h.pred]
  · rw [patched_ne hl]
    refine (h.threads_old l').congr (fun _ _ => rfl) fun n hn => hout hn fun he => ?_
    exact hl (h.lists.unique_list hn (he ▸ h.isPrev.1))

theorem live (h : Joined s s' S l key p)
    (hn : n ∈ insert (head l') (patched (S l') ∅ (only l {s.fresh} l'))) :
    (s'.mem n).val.isSome = true ∧ (s'.mem n).isDeleted = false := by
  rw [Finset.mem_insert, mem_patched, ← or_assoc, ← Finset.mem_insert] at hn
  rcases hn with hn | ⟨-, rfl⟩
  · have hlive := h.lists.live l' n hn
    by_cases he : n = p
    · rw [he] at hlive ⊢
      rw [h.pred]
      exact hlive
    · rwa [h.out n (h.lists.lt_fresh h.heads hn) he]
  · exact h.new_live

theorem disjoint (h : Joined s s' S l key p) {l₁ l₂ : ListId m} (hne : l₁ ≠ l₂) :
    Disjoint (patched (S l₁) ∅ (only l {s.fresh} l₁)) (patched (S l₂) ∅ (only l {s.fresh} l₂)) := by
  rw [Finset.disjoint_left]
  intro n h1 h2
  rcases mem_patched.1 h1 with h1 | ⟨h1, h1'⟩ <;> rcases mem_patched.1 h2 with h2 | ⟨h2, h2'⟩
  · exact Finset.disjoint_left.1 (h.lists.disjoint l₁ l₂ hne) h1 h2
  · exact (h.lists.bound l₁ n h1).2.ne h2'
  · exact (h.lists.bound l₂ n h2).2.ne h1'
  · exact hne (h1.trans h2.symm)

theorem lists_after (h : Joined s s' S l key p) :
    Lists s' fun l' => patched (S l') ∅ (only l {s.fresh} l') where
  threads := h.threads
  bound l' n hn := by
    rw [h.fresh]
    rcases mem_patched.1 hn with hn | ⟨-, rfl⟩
    · exact ⟨(h.lists.bound l' n hn).1, Nat.lt_succ_of_lt (h.lists.bound l' n hn).2⟩
    · exact ⟨h.heads, Nat.lt_succ_self _⟩
  live _ _ hn := h.live hn
  indexed l' := by
    by_cases hl : l' = l
    · subst hl
      rw [patched_self]
      exact h.index
    · rw [patched_ne hl, h.other l' hl]
      exact (h.lists.indexed l').congr (fun _ hn => h.rank_eq hn) fun n hn =>
        h.key_eq (h.lists.bound l' n hn).2
  disjoint _ _ hne := h.disjoint hne

theorem mutates (h : Joined s s' S l key p) :
    Mutates s s' S (fun _ => ∅) (only l {s.fresh}) {p} where
  fresh := by
    rw [h.fresh]
    exact Nat.le_succ _
  key _ hn := h.key_eq hn
  patch := h.patch
  lists := h.lists_after
  same n hn hnp := by
    rw [h.out n hn hnp]
    exact ⟨rfl, rfl, rfl⟩
  alive n hn hor := by
    rcases hor with he | ⟨l', hn'⟩
    · rw [show n = p from he]
      exact (h.lists.live l p h.isPrev.1).2
    · exact absurd (Finset.mem_singleton.1 (mem_only.1 hn').2) hn.ne
  dead _ _ hn := absurd hn (Finset.notMem_empty _)

end Joined

/-- In `s'` the node `x` behind `p` has left list `l`. -/
structure Unlinked (s s' : Shared K V m) (S : ListId m → Finset NodeId) (l : ListId m)
    (p x : NodeId) : Prop where
  lists : Lists s S
  mem_pred : p ∈ insert (head l) (S l)
  next : s.next p = some x
  fresh : s'.fresh = s.fresh
  gone : s'.mem x = { s.mem x with
    val := none, word := { (s.mem x).word with singleton := true, deleted := true, version := s.gvc } }
  pred : s'.mem p = { s.mem p with
    next := s.next x, word := { (s.mem p).word with singleton := true, version := s.gvc } }
  out : ∀ n, n ≠ p → n ≠ x → s'.mem n = s.mem n
  other : ∀ l', l' ≠ l → s'.index l' = s.index l'
  index : Index.Indexed s'.view s'.rank (head l) (s'.index l) ((S l).erase x)

namespace Unlinked

variable {s s' : Shared K V m} {S : ListId m → Finset NodeId} {l l' : ListId m} {p x n : NodeId}

theorem mem (h : Unlinked s s' S l p x) : x ∈ S l := (h.lists.threads l).next_mem h.mem_pred h.next

theorem key_eq (h : Unlinked s s' S l p x) : (s'.mem n).key = (s.mem n).key := by
  by_cases hp : n = p
  · rw [hp, h.pred]
  · by_cases hx : n = x
    · rw [hx, h.gone]
    · rw [h.out n hp hx]

theorem rank_eq (h : Unlinked s s' S l p x) : s'.rank = s.rank := by
  funext n
  simp only [Shared.rank, h.key_eq]

theorem next_eq (h : Unlinked s s' S l p x) (hp : n ≠ p) (hx : n ≠ x) : s'.next n = s.next n := by
  rw [Shared.next, h.out n hp hx]
  rfl

omit [LinearOrder K] in
theorem mem_patched : n ∈ patched (S l') (only l {x} l') ∅ ↔ n ∈ S l' ∧ ¬ (l' = l ∧ n = x) := by
  simp [patched, mem_only]

omit [LinearOrder K] in
theorem patched_self : patched (S l) (only l {x} l) ∅ = (S l).erase x := by
  ext n
  rw [mem_patched]
  simp [and_comm]

omit [LinearOrder K] in
theorem patched_ne (hl : l' ≠ l) : patched (S l') (only l {x} l') ∅ = S l' := by
  rw [only_ne _ hl, patched_empty]

theorem patch (h : Unlinked s s' S l p x) (l' : ListId m) :
    Patch s'.rank (head l') (S l') (only l {x} l') ∅ {p, x} := by
  by_cases hl : l' = l
  · subst hl
    refine ⟨by simpa using h.mem, fun f hf => by simp at hf, fun f hf => by simp at hf,
      fun d hd => ?_, fun y hy q hq => ?_⟩
    · rw [only_self, Finset.mem_singleton] at hd
      exact .inr hd
    · rw [only_self, Finset.union_empty, Finset.mem_singleton] at hy
      rw [hy, h.rank_eq] at hq
      have hp := IsNext.isPrev h.mem_pred (h.next ▸ (h.lists.threads l').next p h.mem_pred)
      exact .inl (IsPrev.unique (h.lists.threads l').toRanked hq hp)
  · rw [only_ne _ hl]
    exact .empty _ _ _

theorem threads (h : Unlinked s s' S l p x) (l' : ListId m) :
    Threads s'.rank s'.next (head l') (patched (S l') (only l {x} l') ∅) := by
  rw [h.rank_eq]
  by_cases hl : l' = l
  · subst hl
    rw [patched_self]
    refine (h.lists.threads l').erase_node h.mem_pred h.next ?_ fun n _ hp hx => h.next_eq hp hx
    rw [Shared.next, h.pred]
  · rw [patched_ne hl]
    refine (h.lists.threads l').congr (fun _ _ => rfl) fun n hn => h.next_eq ?_ ?_
    · exact fun he => hl (h.lists.unique_list hn (he ▸ h.mem_pred))
    · exact fun he => hl (h.lists.unique_list hn (he ▸ Finset.mem_insert_of_mem h.mem))

theorem live (h : Unlinked s s' S l p x)
    (hn : n ∈ insert (head l') (patched (S l') (only l {x} l') ∅)) :
    (s'.mem n).val.isSome = true ∧ (s'.mem n).isDeleted = false := by
  have hx : n ≠ x := by
    rintro rfl
    rcases Finset.mem_insert.1 hn with he | hn
    · have hm := (h.lists.bound l n h.mem).1
      rw [he] at hm
      exact Nat.not_le.2 l'.isLt hm
    · obtain ⟨hn, hne⟩ := mem_patched.1 hn
      exact hne ⟨h.lists.unique_list (Finset.mem_insert_of_mem hn)
        (Finset.mem_insert_of_mem h.mem), rfl⟩
  have hlive := h.lists.live l' n (Finset.insert_subset_insert _
    (fun _ hn => (mem_patched.1 hn).1) hn)
  by_cases hp : n = p
  · rw [hp] at hlive ⊢
    rw [h.pred]
    exact hlive
  · rwa [h.out n hp hx]

theorem lists_after (h : Unlinked s s' S l p x) :
    Lists s' fun l' => patched (S l') (only l {x} l') ∅ where
  threads := h.threads
  bound l' n hn := by
    rw [h.fresh]
    exact h.lists.bound l' n (mem_patched.1 hn).1
  live _ _ hn := h.live hn
  indexed l' := by
    by_cases hl : l' = l
    · subst hl
      rw [patched_self]
      exact h.index
    · rw [patched_ne hl, h.other l' hl, h.rank_eq]
      exact (h.lists.indexed l').congr (fun _ _ => rfl) fun _ _ => h.key_eq
  disjoint l₁ l₂ hne := Finset.disjoint_of_subset_left (fun _ hn => (mem_patched.1 hn).1)
    (Finset.disjoint_of_subset_right (fun _ hn => (mem_patched.1 hn).1) (h.lists.disjoint l₁ l₂ hne))

theorem mutates (h : Unlinked s s' S l p x) : Mutates s s' S (only l {x}) (fun _ => ∅) {p, x} where
  fresh := h.fresh.ge
  key _ _ := h.key_eq
  patch := h.patch
  lists := h.lists_after
  same n _ hn := by
    rw [h.out n (fun he => hn (.inl he)) fun he => hn (.inr he)]
    exact ⟨rfl, rfl, rfl⟩
  alive n _ hor := by
    rcases hor with (rfl | rfl) | ⟨_, hn⟩
    · exact (h.lists.live l _ h.mem_pred).2
    · exact (h.lists.live l _ (Finset.mem_insert_of_mem h.mem)).2
    · exact absurd hn (Finset.notMem_empty _)
  dead l' n hn := by
    obtain ⟨-, hn⟩ := mem_only.1 hn
    rw [Finset.mem_singleton.1 hn, h.gone]
    exact ⟨rfl, rfl⟩

end Unlinked

namespace Lists

variable {s s' : Shared K V m} {S : ListId m → Finset NodeId} {l : ListId m} {key : K} {val : V}
  {p : NodeId}

theorem insertStamped_mutates (hL : Lists s S) (hm : m ≤ s.fresh)
    (hp : IsPrev s.rank (S l) (head l) key p) (habs : ∀ n ∈ S l, s.rank n ≠ (key : WithBot K))
    (hmem : s'.mem = (s.insertStamped key val p (s.next p)).mem) (hfresh : s'.fresh = s.fresh + 1)
    (hother : ∀ l', l' ≠ l → s'.index l' = s.index l')
    (hindex : Index.Indexed s'.view s'.rank (head l) (s'.index l) (insert s.fresh (S l))) :
    Mutates s s' S (fun _ => ∅) (only l {s.fresh}) {p} := by
  have hpf : p < s.fresh := hL.lt_fresh hm hp.1
  have hnew : s'.mem s.fresh = ⟨key, some val, s.next p, ⟨false, false, true, s.gvc⟩⟩ := by
    simp [hmem, Shared.insertStamped, Function.update_of_ne (show s.fresh ≠ p from hpf.ne')]
  refine Joined.mutates ⟨hL, hm, hp, habs, hfresh, by rw [hnew], by rw [Shared.next, hnew],
    by rw [hnew]; exact ⟨rfl, rfl⟩, ?_, fun n hn he => ?_, hother, hindex⟩
  · simp [hmem, Shared.insertStamped]
  · simp [hmem, Shared.insertStamped, he, Function.update_of_ne (show n ≠ s.fresh from hn.ne)]

theorem unlinkStamped_mutates {x : NodeId} (hL : Lists s S) (hp : p ∈ insert (head l) (S l))
    (hpx : s.next p = some x) (hmem : s'.mem = (s.unlinkStamped p x).mem)
    (hfresh : s'.fresh = s.fresh) (hother : ∀ l', l' ≠ l → s'.index l' = s.index l')
    (hindex : Index.Indexed s'.view s'.rank (head l) (s'.index l) ((S l).erase x)) :
    Mutates s s' S (only l {x}) (fun _ => ∅) {p, x} := by
  have hne : p ≠ x := fun he => ((hL.threads l).lt_next hp hpx).ne (by rw [he])
  refine Unlinked.mutates ⟨hL, hp, hpx, hfresh, ?_, ?_, fun n h1 h2 => ?_, hother, hindex⟩
  · simp [hmem, Shared.unlinkStamped, hne.symm]
  · simp [hmem, Shared.unlinkStamped, hne, Shared.next]
  · simp [hmem, Shared.unlinkStamped, h1, h2]

end Lists

end TxList
