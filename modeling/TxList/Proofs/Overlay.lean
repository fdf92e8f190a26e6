import TxList.Proofs.Lists

/-!
# A transaction's view of the lists

A running transaction sees each list through its write set: without the nodes it deletes and with
the ones it added. `Overlay` says that what it sees is a sorted list again, and that its write set
holds every node it would have to write for that: its view is a patch of the shared list
(`Chain.Patch`). A change of the shared lists by someone else that writes to none of these nodes
leaves the view a patch of the lists as they are then (`Overlay.mutate`).
-/

namespace TxList

open Prog Chain

variable {K V : Type} {m : Nat}

namespace LocalStorage

variable (ls : LocalStorage V m)

/-- The nodes of `A` that the transaction deletes. -/
def gone (A : Finset NodeId) : Finset NodeId := A.filter (ls.deletes ·)

/-- The nodes it has added to a list and not deleted again. -/
def added (l : ListId m) : Finset NodeId := (ls.indexAdd l).toFinset.filter (ls.deletes · = false)

/-- The nodes of a list as it sees it. -/
def seen (S : ListId m → Finset NodeId) (l : ListId m) : Finset NodeId :=
  patched (S l) (ls.gone (S l)) (ls.added l)

/-- The nodes it writes to. -/
def written : Set NodeId := {n | n ∈ ls.writeSet}

variable {ls} {S : ListId m → Finset NodeId} {l : ListId m} {n : NodeId}

theorem mem_gone {A : Finset NodeId} : n ∈ ls.gone A ↔ n ∈ A ∧ ls.deletes n = true := by
  simp [gone]

theorem mem_added : n ∈ ls.added l ↔ n ∈ ls.indexAdd l ∧ ls.deletes n = false := by
  simp [added]

theorem mem_seen : n ∈ ls.seen S l ↔ (n ∈ S l ∨ n ∈ ls.indexAdd l) ∧ ls.deletes n = false := by
  rw [seen, mem_patched, mem_gone, mem_added]
  rcases ls.deletes n with _ | _ <;> simp

theorem added_subset : ls.added l ⊆ (ls.indexAdd l).toFinset := Finset.filter_subset _ _

end LocalStorage

variable [LinearOrder K]

/-- What the transaction with storage `ls` sees of the lists. -/
structure Overlay (s : Shared K V m) (S : ListId m → Finset NodeId) (ls : LocalStorage V m) :
    Prop where
  patch : ∀ l, Patch s.rank (head l) (S l) (ls.gone (S l)) (ls.indexAdd l).toFinset ls.written
  threads : ∀ l, Threads s.rank (ls.nextOf s.mem) (head l) (ls.seen S l)
  val : ∀ l, ∀ n ∈ insert (head l) (ls.seen S l), (ls.valOf s.mem n).isSome = true
  head_kept : ∀ l : ListId m, ls.deletes (head l) = false
  remove : ∀ l n, n ∈ ls.indexRemove l ↔ ls.deletes n = true ∧ (n ∈ S l ∨ n ∈ ls.indexAdd l)
  order : ∀ l, (ls.indexAdd l).Pairwise fun a b =>
    a ≠ b ∧ (ls.deletes a = false → s.rank a ≠ s.rank b)
  dead : ∀ l, ∀ x ∈ ls.indexAdd l, ls.deletes x = true →
    ∀ n ∈ S l, s.rank n = s.rank x → ls.deletes n = true
  new : ∀ l, ∀ x ∈ ls.indexAdd l, m ≤ x ∧ x < s.fresh ∧ (s.mem x).val.isSome = true ∧
    (s.mem x).isDeleted = false
  apart : ∀ l l', l ≠ l' → ∀ x ∈ ls.indexAdd l, x ∉ S l' ∧ x ∉ ls.indexAdd l'
  writes : ∀ n ∈ ls.writeSet, ∃ l, n ∈ insert (head l) (S l) ∨ n ∈ ls.indexAdd l

/-- A change of the shared lists: list `l` loses the nodes `D l` and gets the nodes `F l`, and of
the nodes that were there only those in `W` are written to. -/
structure Mutates (s s' : Shared K V m) (S D F : ListId m → Finset NodeId) (W : Set NodeId) :
    Prop where
  fresh : s.fresh ≤ s'.fresh
  key : ∀ n < s.fresh, (s'.mem n).key = (s.mem n).key
  patch : ∀ l, Patch s'.rank (head l) (S l) (D l) (F l) W
  lists : Lists s' fun l => patched (S l) (D l) (F l)
  same : ∀ n < s.fresh, n ∉ W → (s'.mem n).next = (s.mem n).next ∧
    (s'.mem n).val = (s.mem n).val ∧ (s'.mem n).isDeleted = (s.mem n).isDeleted
  alive : ∀ n < s.fresh, n ∈ W ∨ (∃ l, n ∈ F l) → (s.mem n).isDeleted = false
  dead : ∀ l, ∀ n ∈ D l, (s'.mem n).isDeleted = true ∧ (s'.mem n).val = none

namespace Mutates

variable {s s' : Shared K V m} {S D F : ListId m → Finset NodeId} {W : Set NodeId}

theorem rank (h : Mutates s s' S D F W) {n : NodeId} (hn : n < s.fresh) : s'.rank n = s.rank n := by
  simp only [Shared.rank, h.key n hn]

/-- Nothing of the lists changes. -/
theorem of_same (hL : Lists s S) (hm : m ≤ s.fresh) (hfresh : s.fresh ≤ s'.fresh)
    (hkey : ∀ n < s.fresh, (s'.mem n).key = (s.mem n).key)
    (hsame : ∀ n < s.fresh, (s'.mem n).next = (s.mem n).next ∧ (s'.mem n).val = (s.mem n).val ∧
      (s'.mem n).isDeleted = (s.mem n).isDeleted) (hindex : s'.index = s.index) :
    Mutates s s' S (fun _ => ∅) (fun _ => ∅) ∅ := by
  refine ⟨hfresh, hkey, fun l => .empty _ _ _, ?_, fun n hn _ => hsame n hn,
    fun n _ h => by simp at h, fun l n hn => by simp at hn⟩
  simp only [patched_empty]
  exact hL.congr hm hfresh hkey (fun l n hn => (hsame n (hL.lt_fresh hm hn)).1)
    (fun l n hn => by rw [(hsame n (hL.lt_fresh hm hn)).2.1])
    (fun l n hn => (hsame n (hL.lt_fresh hm hn)).2.2) hindex

end Mutates

namespace Overlay

variable {s s' : Shared K V m} {S D F : ListId m → Finset NodeId} {W : Set NodeId}
  {ls : LocalStorage V m}

theorem mutate (hO : Overlay s S ls) (hL : Lists s S) (hm : m ≤ s.fresh) (hM : Mutates s s' S D F W)
    (hW : Disjoint ls.written W) (hF : ∀ l, ∀ f ∈ F l, f ∉ ls.writeSet ∧ ∀ l', f ∉ ls.indexAdd l')
    (hA : ∀ l, ∀ x ∈ ls.indexAdd l, x ∉ W) :
    Overlay s' (fun l => patched (S l) (D l) (F l)) ls := by
  have hrankS : ∀ l, ∀ n ∈ insert (head l) (S l), s'.rank n = s.rank n := fun l n hn =>
    hM.rank (hL.lt_fresh hm hn)
  have hrankA : ∀ l, ∀ n ∈ ls.indexAdd l, s'.rank n = s.rank n := fun l n hn =>
    hM.rank (hO.new l n hn).2.1
  have hWd : ∀ {n}, n ∈ ls.writeSet → n ∉ W := fun hn => Set.disjoint_left.1 hW hn
  -- a node the transaction writes to stays on its list, and no node it writes to joins one
  have hstay : ∀ {l n}, n ∈ ls.writeSet → (n ∈ patched (S l) (D l) (F l) ↔ n ∈ S l) := by
    intro l n hn
    rw [mem_patched]
    constructor
    · rintro (h | h)
      · exact h.1
      · exact absurd hn (hF l n h).1
    · exact fun h => .inl ⟨h, fun hd => hWd hn ((hM.patch l).del n hd)⟩
  have hgone : ∀ l, ls.gone (patched (S l) (D l) (F l)) = ls.gone (S l) := by
    intro l
    ext n
    simp only [LocalStorage.mem_gone]
    constructor <;> rintro ⟨h1, h2⟩ <;> have := hstay (l := l) (LocalStorage.mem_of_deletes h2)
    · exact ⟨this.1 h1, h2⟩
    · exact ⟨this.2 h1, h2⟩
  have hP : ∀ l, Patch s'.rank (head l) (S l) (ls.gone (S l)) (ls.indexAdd l).toFinset ls.written :=
    fun l => (hO.patch l).congr fun n hn => by
      rcases hn with hn | hn
      · exact hrankS l n hn
      · exact hrankA l n (List.mem_toFinset.1 hn)
  have hRS : ∀ l, Ranked s'.rank (head l) (S l) := fun l =>
    ((hL.threads l).congr (hrankS l) fun n _ => rfl).toRanked
  have hsame : ∀ l, ∀ n ∈ ls.indexAdd l, (s'.mem n).next = (s.mem n).next ∧
      (s'.mem n).val = (s.mem n).val ∧ (s'.mem n).isDeleted = (s.mem n).isDeleted := fun l n hn =>
    hM.same n (hO.new l n hn).2.1 (hA l n hn)
  refine ⟨fun l => ?_, fun l => ?_, fun l n hn => ?_, hO.head_kept, fun l n => ?_, fun l => ?_,
    fun l x hx hdx n hn hr => ?_, fun l x hx => ?_, fun l l' hne x hx => ?_, fun n hn => ?_⟩
  · rw [hgone]
    exact (hP l).after (hM.patch l) (hRS l) (hM.lists.threads l).toRanked hW
      fun f hf hf' => (hF l f hf').2 l (List.mem_toFinset.1 hf)
  · have hT₁ : Threads s'.rank (ls.nextOf s.mem) (head l) (patched (S l) (ls.gone (S l))
        (ls.added l)) := by
      refine (hO.threads l).congr (fun n hn => ?_) fun _ _ => rfl
      rcases Finset.mem_insert.1 hn with rfl | hn
      · exact hrankS l _ (Finset.mem_insert_self _ _)
      · rcases (LocalStorage.mem_seen.1 hn).1 with h | h
        · exact hrankS l n (Finset.mem_insert_of_mem h)
        · exact hrankA l n h
    rw [LocalStorage.seen, hgone]
    refine ((hP l).mono LocalStorage.added_subset (Set.Subset.refl _)).commute (hM.patch l) (hRS l)
      hT₁ (hM.lists.threads l) hW (fun f hf => hA l f (LocalStorage.mem_added.1 hf).1)
      (fun f hf => (hF l f hf).1) (fun n hn => ?_) fun n _ hnw _ => ?_
    · refine LocalStorage.nextOf_congr fun hnw => ?_
      exact (hsame l n (LocalStorage.mem_added.1 (hn.resolve_left hnw)).1).1
    · exact LocalStorage.nextOf_of_notMem hnw
  · by_cases hnw : n ∈ ls.writeSet
    · rw [LocalStorage.valOf_congr fun h => absurd hnw h]
      refine hO.val l n ?_
      rcases Finset.mem_insert.1 hn with rfl | hn
      · exact Finset.mem_insert_self _ _
      · obtain ⟨hn, hd⟩ := LocalStorage.mem_seen.1 hn
        exact Finset.mem_insert_of_mem (LocalStorage.mem_seen.2 ⟨hn.imp_left (hstay hnw).1, hd⟩)
    · rw [LocalStorage.valOf_of_notMem hnw]
      rcases Finset.mem_insert.1 hn with rfl | hn
      · exact (hM.lists.live l _ (Finset.mem_insert_self _ _)).1
      · rcases (LocalStorage.mem_seen.1 hn).1 with h | h
        · exact (hM.lists.live l n (Finset.mem_insert_of_mem h)).1
        · rw [(hsame l n h).2.1]
          exact (hO.new l n h).2.2.1
  · rw [hO.remove l n]
    refine and_congr_right fun hd => ?_
    rw [hstay (LocalStorage.mem_of_deletes hd)]
  · refine (hO.order l).imp_of_mem fun ha hb h => ⟨h.1, fun hd => ?_⟩
    rw [hrankA l _ ha, hrankA l _ hb]
    exact h.2 hd
  · -- the gap the dead node stood in is one nobody else writes to
    have hbot : s'.rank (head l) < s'.rank x := (hP l).above x (List.mem_toFinset.2 hx)
    obtain ⟨p, hp⟩ := IsPrev.exists_of_bot (S := S l) hbot
    have hpw := (hP l).prev x (Finset.mem_union_right _ (List.mem_toFinset.2 hx)) p hp
    have hnS : n ∈ S l := ((hM.patch l).mem_iff hp (hWd hpw) hr).1 hn
    refine hO.dead l x hx hdx n hnS ?_
    rw [← hrankA l x hx, ← hrankS l n (Finset.mem_insert_of_mem hnS), hr]
  · obtain ⟨h1, h2, h3, h4⟩ := hO.new l x hx
    obtain ⟨-, hv, hdl⟩ := hsame l x hx
    exact ⟨h1, h2.trans_le hM.fresh, by rw [hv]; exact h3, by rw [hdl]; exact h4⟩
  · refine ⟨fun h => ?_, (hO.apart l l' hne x hx).2⟩
    rcases mem_patched.1 h with h | h
    · exact (hO.apart l l' hne x hx).1 h.1
    · exact (hF l' x h).2 l hx
  · obtain ⟨l, h⟩ := hO.writes n hn
    refine ⟨l, h.imp_left fun h => ?_⟩
    rcases Finset.mem_insert.1 h with rfl | h
    · exact Finset.mem_insert_self _ _
    · exact Finset.mem_insert_of_mem ((hstay hn).2 h)

end Overlay

end TxList
