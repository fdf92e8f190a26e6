import TxList.Proofs.OverlayOps
import TxList.Proofs.StepFrame

/-!
# What a commit leaves

The write-back gives the shared nodes what the transaction saw of them, and the index update then
takes the nodes it added in and the nodes it deleted out. Afterwards the lists are the ones the
transaction saw.
-/

namespace TxList

open Prog Chain

variable {K V : Type} {m : Nat}

section WriteBack

variable {s : Shared K V m} {ls : LocalStorage V m} {n : NodeId}

theorem commit_key : ((s.commit ls.writeSet).mem n).key = (s.mem n).key := by
  simp only [Shared.commit]
  rcases ls.writeSet.lookup n with _ | ⟨_, _, _ | _⟩ <;> rfl

theorem commit_next : ((s.commit ls.writeSet).mem n).next = ls.nextOf s.mem n := by
  simp only [Shared.commit, LocalStorage.nextOf]
  rcases ls.writeSet.lookup n with _ | ⟨_, _, _ | _⟩ <;> rfl

theorem commit_val : ((s.commit ls.writeSet).mem n).val =
    if ls.deletes n then none else ls.valOf s.mem n := by
  rcases hw : ls.writeSet.lookup n with _ | ⟨_, _, _ | _⟩ <;>
    simp [Shared.commit, LocalStorage.deletes, LocalStorage.valOf, LNode.writeBack, hw] <;> rfl

theorem commit_isDeleted : ((s.commit ls.writeSet).mem n).isDeleted =
    (ls.deletes n || (s.mem n).isDeleted) := by
  simp only [Shared.commit, LocalStorage.deletes]
  rcases ls.writeSet.lookup n with _ | ⟨_, _, _ | _⟩ <;> rfl

/-- What a commit writes to is marked for every transaction that is running. -/
theorem commit_marked (h : n ∈ ls.writeSet) {rv : Nat} (hrv : rv ≤ s.gvc) :
    Marked ((s.commit ls.writeSet).mem n) rv := by
  obtain ⟨we, hwe⟩ := Option.isSome_iff_exists.1 (AList.lookup_isSome.2 h)
  rw [Shared.commit_mem _ hwe]
  exact .inl (Nat.lt_succ_of_le hrv)

theorem commit_rank : (s.commit ls.writeSet).rank n = s.rank n := by
  simp only [Shared.rank, commit_key]

end WriteBack

variable [LinearOrder K]

/-! ## The index update -/

section Index

variable {c : Ctx K V m} {S : ListId m → Finset NodeId} {l : ListId m} {fuel : Nat}
  {level : NodeId → Nat}

/-- The indexes may differ, and more may be retired. -/
structure Ctx.Updated (c c' : Ctx K V m) : Prop where
  mem : c'.shared.mem = c.shared.mem
  gvc : c'.shared.gvc = c.shared.gvc
  fresh : c'.shared.fresh = c.shared.fresh
  storage : c'.storage = c.storage
  transaction : c'.transaction = c.transaction

namespace Ctx.Updated

variable {c' c'' : Ctx K V m}

omit [LinearOrder K] in
theorem refl (c : Ctx K V m) : c.Updated c := ⟨rfl, rfl, rfl, rfl, rfl⟩

omit [LinearOrder K] in
theorem trans (h : c.Updated c') (h' : c'.Updated c'') : c.Updated c'' :=
  ⟨h'.mem.trans h.mem, h'.gvc.trans h.gvc, h'.fresh.trans h.fresh, h'.storage.trans h.storage,
    h'.transaction.trans h.transaction⟩

omit [LinearOrder K] in
theorem view (h : c.Updated c') : c'.shared.view = c.shared.view := by
  simp only [Shared.view, h.mem]

omit [LinearOrder K] in
theorem rank (h : c.Updated c') : c'.shared.rank = c.shared.rank := by
  funext n
  simp only [Shared.rank, h.mem]

end Ctx.Updated

/-- Whatever the lists look like. -/
theorem updateIndex_updated {ch : Choice} :
    Ends (updateIndex ch) c (fun _ c' => c.Updated c') (OnAbort fun _ => False) := by
  have hindex : ∀ {l : ListId m} {f : NodeView K → Index → Option (Index × Unit)} {c' : Ctx K V m},
      Ends (onIndex l f) c' (fun _ c'' => c'.Updated c'') (OnAbort fun _ => False) := by
    intro l f c'
    simp only [Ends_onIndex, OnAbort_diverged, implies_true, true_and]
    exact fun _ _ _ => ⟨rfl, rfl, rfl, rfl, rfl⟩
  have hadd : ∀ {l : ListId m} (ns : List NodeId) {c' : Ctx K V m}, c.Updated c' →
      Ends (addToIndex ch.fuel ch.level l ns) c' (fun _ => c.Updated) (OnAbort fun _ => False) := by
    intro l ns
    induction ns with
    | nil => exact fun h => h
    | cons n ns ih =>
      intro c' h
      simp only [addToIndex, Ends_bind]
      exact hindex.mono (fun _ c₁ h₁ => ih (h.trans h₁)) fun _ _ he => he
  have hremove : ∀ {l : ListId m} (ns : List NodeId) {c' : Ctx K V m}, c.Updated c' →
      Ends (removeFromIndex ch.fuel l ns) c' (fun _ => c.Updated) (OnAbort fun _ => False) := by
    intro l ns
    induction ns with
    | nil => exact fun h => h
    | cons n ns ih =>
      intro c' h
      simp only [removeFromIndex, Ends_bind, Ends_retire_node]
      refine hindex.mono (fun _ c₁ h₁ => ih ?_) fun _ _ he => he
      exact (h.trans h₁).trans ⟨rfl, rfl, rfl, rfl, rfl⟩
  have hlists : ∀ {f : ListId m → Call K V m Unit} (ls : List (ListId m)) {c' : Ctx K V m},
      (∀ l {c' : Ctx K V m}, c.Updated c' → Ends (f l) c' (fun _ => c.Updated) (OnAbort fun _ => False)) →
      c.Updated c' → Ends (forLists f ls) c' (fun _ => c.Updated) (OnAbort fun _ => False) := by
    intro f ls
    induction ls with
    | nil => exact fun _ h => h
    | cons l ls ih =>
      intro c' hf h
      simp only [forLists, Ends_bind]
      exact (hf l h).mono (fun _ c₁ h₁ => ih hf h₁) fun _ _ he => he
  simp only [updateIndex, Ends_bind, Ends_get]
  exact (hlists _ (fun l _ h => hadd _ h) (.refl c)).mono
    (fun _ c₁ h₁ => hlists _ (fun l _ h => hremove _ h) h₁) fun _ _ he => he

/-- List `l`'s index holds the nodes of `A`. -/
def HoldsIndex (c : Ctx K V m) (l : ListId m) (A : Finset NodeId) : Prop :=
  Index.Indexed c.shared.view c.shared.rank (head l) (c.shared.index l) A

/-- Every other list's index is as it was. -/
def OthersKept (c c' : Ctx K V m) (l : ListId m) : Prop :=
  ∀ l', l' ≠ l → c'.shared.index l' = c.shared.index l'

/-- One node's addition. -/
theorem index_add_ends {n : NodeId} {A : Finset NodeId} {E : Err → Ctx K V m → Prop}
    (h : HoldsIndex c l A) (hhead : (c.shared.mem (head l)).val.isSome = true) (hn : m ≤ n)
    (hne : ∀ a ∈ A, (c.shared.mem a).val.isSome = true → c.shared.rank a ≠ c.shared.rank n)
    (hE : (c.shared.index l).add c.shared.view fuel (level n) n = none → E .diverged c) :
    Ends (onIndex l fun v ix => (ix.add v fuel (level n) n).map (·, ())) c
      (fun _ c' => c.Updated c' ∧ OthersKept c c' l ∧
        ∃ A', HoldsIndex c' l (insert n A') ∧ Index.Drops c.shared.view A A') E := by
  simp only [Ends_onIndex, Option.map_eq_none_iff]
  refine ⟨hE, fun ix _ hix => ?_⟩
  obtain ⟨ix', hix', he⟩ := Option.map_eq_some_iff.1 hix
  obtain ⟨rfl, -⟩ := Prod.mk.inj he
  obtain ⟨A', hA', hdrop⟩ := (Index.add_spec h (c.shared.rank_head l) hhead
    (c.shared.rank_of_le hn) hne (level n)).1 fuel ix' hix'
  refine ⟨⟨rfl, rfl, rfl, rfl, rfl⟩, fun l' hl => by simp [hl], A', ?_, hdrop⟩
  simp only [HoldsIndex, Function.update_self]
  exact hA'

/-- One node's removal. -/
theorem index_remove_ends {n : NodeId} {A : Finset NodeId} {E : Err → Ctx K V m → Prop}
    (h : HoldsIndex c l A) (hhead : (c.shared.mem (head l)).val.isSome = true) (hn : m ≤ n)
    (hdead : (c.shared.mem n).val.isSome = false)
    (hE : (c.shared.index l).remove c.shared.view fuel n = none → E .diverged c) :
    Ends (onIndex l fun v ix => (ix.remove v fuel n).map (·, ())) c
      (fun _ c' => c.Updated c' ∧ OthersKept c c' l ∧
        ∃ A', HoldsIndex c' l A' ∧ Index.Drops c.shared.view A A' ∧ n ∉ A') E := by
  simp only [Ends_onIndex, Option.map_eq_none_iff]
  refine ⟨hE, fun ix _ hix => ?_⟩
  obtain ⟨ix', hix', he⟩ := Option.map_eq_some_iff.1 hix
  obtain ⟨rfl, -⟩ := Prod.mk.inj he
  obtain ⟨A', hA', hdrop, hnA⟩ := (Index.remove_spec h (c.shared.rank_head l) hhead
    (c.shared.rank_of_le hn) hdead).1 fuel ix' hix'
  refine ⟨⟨rfl, rfl, rfl, rfl, rfl⟩, fun l' hl => by simp [hl], A', ?_, hdrop, hnA⟩
  simp only [HoldsIndex, Function.update_self]
  exact hA'

/-- The index holds the live nodes of `B` and no node outside it. -/
def Held (c : Ctx K V m) (l : ListId m) (B : Finset NodeId) : Prop :=
  ∃ A, HoldsIndex c l A ∧ A ⊆ B ∧ ∀ a ∈ B, (c.shared.mem a).val.isSome = true → a ∈ A

theorem Held.congr {c' : Ctx K V m} {B : Finset NodeId} (h : Held c l B) (hu : c.Updated c')
    (hi : c'.shared.index l = c.shared.index l) : Held c' l B := by
  obtain ⟨A, hA, hsub, hlive⟩ := h
  refine ⟨A, ?_, hsub, by rwa [hu.mem]⟩
  rwa [HoldsIndex, hu.view, hu.rank, hi]

/-- When all the nodes are live the index holds exactly them. -/
theorem Held.all {B : Finset NodeId} (h : Held c l B)
    (hB : ∀ a ∈ B, (c.shared.mem a).val.isSome = true) : HoldsIndex c l B := by
  obtain ⟨A, hA, hsub, hlive⟩ := h
  rwa [show B = A from Finset.Subset.antisymm (fun a ha => hlive a ha (hB a ha)) hsub]

/-- What an index update of list `l` leaves: `B` in the index, everything else as it was. -/
structure Reindexes (c c' : Ctx K V m) (l : ListId m) (B : Finset NodeId) : Prop where
  updated : c.Updated c'
  others : OthersKept c c' l
  held : Held c' l B

theorem addToIndex_reindexes : ∀ (ns : List NodeId) {c : Ctx K V m} {B : Finset NodeId},
    (c.shared.mem (head l)).val.isSome = true → Held c l B → (∀ n ∈ ns, m ≤ n) →
    ns.Pairwise (fun a b => (c.shared.mem a).val.isSome = true → c.shared.rank a ≠ c.shared.rank b) →
    (∀ n ∈ ns, ∀ a ∈ B, (c.shared.mem a).val.isSome = true → c.shared.rank a ≠ c.shared.rank n) →
    Ends (addToIndex fuel level l ns) c (fun _ c' => Reindexes c c' l (B ∪ ns.toFinset))
      (OnAbort fun _ => False)
  | [], c, B, _, hB, _, _, _ => by
    simpa [addToIndex] using ⟨.refl c, fun _ _ => rfl, hB⟩
  | n :: ns, c, B, hhead, ⟨A, hA, hsub, hlive⟩, hle, hpw, hne => by
    obtain ⟨hn, hpw⟩ := List.pairwise_cons.1 hpw
    simp only [addToIndex, Ends_bind]
    refine (index_add_ends hA hhead (hle n (by simp)) (fun a ha => hne n (by simp) a (hsub ha))
      fun _ => trivial).mono (fun _ c₁ h₁ => ?_) fun _ _ he => he
    obtain ⟨hu, ho, A', hA', hdrop⟩ := h₁
    have hB₁ : Held c₁ l (insert n B) := by
      refine ⟨insert n A', hA', Finset.insert_subset_insert _ (hdrop.sub.trans hsub), fun a ha hl => ?_⟩
      rw [hu.mem] at hl
      rcases Finset.mem_insert.1 ha with rfl | ha
      · exact Finset.mem_insert_self _ _
      · exact Finset.mem_insert_of_mem (hdrop.keeps a (hlive a ha hl) hl)
    refine (addToIndex_reindexes ns (by rwa [hu.mem]) hB₁ (fun k hk => hle k (by simp [hk])) ?_
      fun k hk a ha => ?_).mono (fun _ c₂ h₂ => ⟨hu.trans h₂.updated, fun l' hl' =>
        (h₂.others l' hl').trans (ho l' hl'), ?_⟩) fun _ _ he => he
    · rwa [hu.mem, hu.rank]
    · rw [hu.mem, hu.rank]
      rcases Finset.mem_insert.1 ha with rfl | ha
      · exact hn k hk
      · exact hne k (by simp [hk]) a ha
    · have := h₂.held
      rwa [Finset.insert_union, ← Finset.union_insert, ← List.toFinset_cons] at this

theorem removeFromIndex_reindexes : ∀ (ns : List NodeId) {c : Ctx K V m} {B : Finset NodeId},
    (c.shared.mem (head l)).val.isSome = true → Held c l B →
    (∀ n ∈ ns, m ≤ n ∧ (c.shared.mem n).val.isSome = false) →
    Ends (removeFromIndex fuel l ns) c (fun _ c' => Reindexes c c' l (B \ ns.toFinset))
      (OnAbort fun _ => False)
  | [], c, B, _, hB, _ => by
    simpa [removeFromIndex] using ⟨.refl c, fun _ _ => rfl, hB⟩
  | n :: ns, c, B, hhead, ⟨A, hA, hsub, hlive⟩, hns => by
    obtain ⟨hle, hdead⟩ := hns n (by simp)
    simp only [removeFromIndex, Ends_bind, Ends_retire_node]
    refine (index_remove_ends hA hhead hle hdead fun _ => trivial).mono (fun _ c₁ h₁ => ?_)
      fun _ _ he => he
    obtain ⟨hu, ho, A', hA', hdrop, hnA⟩ := h₁
    have hu' : c.Updated { c₁ with shared := { c₁.shared with retired := n :: c₁.shared.retired } } :=
      hu.trans ⟨rfl, rfl, rfl, rfl, rfl⟩
    have hB₁ : Held { c₁ with shared := { c₁.shared with retired := n :: c₁.shared.retired } } l
        (B.erase n) := by
      refine ⟨A', hA', fun a ha => Finset.mem_erase.2 ⟨fun h => hnA (h ▸ ha), hsub (hdrop.sub ha)⟩,
        fun a ha hl => ?_⟩
      rw [hu'.mem] at hl
      exact hdrop.keeps a (hlive a (Finset.mem_of_mem_erase ha) hl) hl
    refine (removeFromIndex_reindexes ns (by rwa [hu'.mem]) hB₁ fun k hk => ?_).mono
      (fun _ c₂ h₂ => ⟨hu'.trans h₂.updated, fun l' hl' =>
        (h₂.others l' hl').trans (ho l' hl'), ?_⟩) fun _ _ he => he
    · rw [hu'.mem]
      exact hns k (by simp [hk])
    · have he : B.erase n \ ns.toFinset = B \ (n :: ns).toFinset := by
        ext a
        simp [and_assoc, and_left_comm]
      exact he ▸ h₂.held

/-- An index update of every list in turn. -/
theorem forLists_held {f : ListId m → Call K V m Unit} {B B' : ListId m → Finset NodeId}
    (hf : ∀ l c', c.Updated c' → Held c' l (B l) →
      Ends (f l) c' (fun _ c'' => Reindexes c' c'' l (B' l)) (OnAbort fun _ => False)) :
    ∀ (ls : List (ListId m)) {c' : Ctx K V m}, ls.Nodup → c.Updated c' →
      (∀ l ∈ ls, Held c' l (B l)) → (∀ l ∉ ls, Held c' l (B' l)) →
      Ends (forLists f ls) c' (fun _ c'' => c.Updated c'' ∧ ∀ l, Held c'' l (B' l))
        (OnAbort fun _ => False)
  | [], c', _, hu, _, hdone => by
    simpa [forLists] using ⟨hu, fun l => hdone l (by simp)⟩
  | l :: ls, c', hnd, hu, htodo, hdone => by
    obtain ⟨hl, hnd⟩ := List.nodup_cons.1 hnd
    simp only [forLists, Ends_bind]
    refine (hf l c' hu (htodo l (by simp))).mono (fun _ c₁ h₁ => ?_) fun _ _ he => he
    refine forLists_held hf ls hnd (hu.trans h₁.updated) (fun l' hl' => ?_) fun l' hl' => ?_
    · have hne : l' ≠ l := fun h => hl (h ▸ hl')
      exact (htodo l' (by simp [hl'])).congr h₁.updated (h₁.others l' hne)
    · by_cases he : l' = l
      · exact he ▸ h₁.held
      · exact (hdone l' (by simp [he, hl'])).congr h₁.updated (h₁.others l' he)

end Index

/-! ## The whole commit -/

section Commit

variable {c : Ctx K V m} {S : ListId m → Finset NodeId} {l : ListId m} {n : NodeId} {ch : Choice}

/-- The state after the write-back. -/
def Ctx.written (c : Ctx K V m) : Ctx K V m :=
  { c with
    shared := c.shared.commit c.storage.writeSet
    transaction := { c.transaction with writeVersion := c.shared.gvc + 1 } }

variable (hL : Lists c.shared S) (hO : Overlay c.shared S c.storage)

include hL hO

omit hL in
/-- Of the nodes of a list and those added to it the write-back leaves the seen ones alive. -/
theorem Overlay.written_live (hn : n ∈ S l ∨ n ∈ c.storage.indexAdd l) :
    (c.written.shared.mem n).val.isSome = !c.storage.deletes n := by
  rw [Ctx.written, commit_val]
  rcases hd : c.storage.deletes n with _ | _
  · simpa using hO.val l n (Finset.mem_insert_of_mem (LocalStorage.mem_seen.2 ⟨hn, hd⟩))
  · simp

omit hL in
theorem Overlay.written_head_live (l : ListId m) :
    (c.written.shared.mem (head l)).val.isSome = true := by
  rw [Ctx.written, commit_val, hO.head_kept l]
  simpa using hO.val l (head l) (Finset.mem_insert_self _ _)

theorem Overlay.le_of_listed (hn : n ∈ S l ∨ n ∈ c.storage.indexAdd l) : m ≤ n := by
  rcases hn with hn | hn
  · exact (hL.bound l n hn).1
  · exact (hO.new l n hn).1

omit hL in
/-- A node to be added to the index has no live node of its key there. -/
theorem Overlay.indexAdd_rank_ne {a : NodeId} (hn : n ∈ c.storage.indexAdd l) (ha : a ∈ S l)
    (hda : c.storage.deletes a = false) : c.shared.rank a ≠ c.shared.rank n := by
  intro he
  rcases hdn : c.storage.deletes n with _ | _
  · have hne := (hO.threads l).inj a (LocalStorage.mem_seen.2 ⟨.inl ha, hda⟩) n
      (LocalStorage.mem_seen.2 ⟨.inr hn, hdn⟩) he
    exact (hO.patch l).new n (List.mem_toFinset.2 hn) (hne ▸ ha)
  · rw [hO.dead l n hn hdn a ha he] at hda
    simp at hda

/-- The first half of the index update. -/
theorem Overlay.addAll_held :
    Ends (forLists (fun l => addToIndex ch.fuel ch.level l (c.storage.indexAdd l)) (List.finRange m))
      c.written (fun _ c' => c.written.Updated c' ∧
        ∀ l, Held c' l (S l ∪ (c.storage.indexAdd l).toFinset)) (OnAbort fun _ => False) := by
  have hstart : ∀ l, Held c.written l (S l) := by
    intro l
    refine ⟨S l, ?_, Finset.Subset.refl _, fun a ha _ => ha⟩
    exact (hL.indexed l).congr (fun n _ => commit_rank) fun n _ => commit_key
  have hadd : ∀ l c', c.written.Updated c' → Held c' l (S l) →
      Ends (addToIndex ch.fuel ch.level l (c.storage.indexAdd l)) c'
        (fun _ c'' => Reindexes c' c'' l (S l ∪ (c.storage.indexAdd l).toFinset))
        (OnAbort fun _ => False) := by
    intro l c' hu hB
    have hrank : ∀ n, c'.shared.rank n = c.shared.rank n := fun n => by rw [hu.rank]; exact commit_rank
    refine addToIndex_reindexes _ (by rw [hu.mem]; exact hO.written_head_live l) hB
      (fun n hn => hO.le_of_listed hL (.inr hn)) ?_ fun n hn a ha hla => ?_
    · refine (hO.order l).imp_of_mem fun {a b} ha hb h hla => ?_
      rw [hu.mem, hO.written_live (.inr ha), Bool.not_eq_true'] at hla
      rw [hrank, hrank]
      exact h.2 hla
    · rw [hu.mem, hO.written_live (.inl ha), Bool.not_eq_true'] at hla
      rw [hrank, hrank]
      exact hO.indexAdd_rank_ne hn ha hla
  exact forLists_held hadd _ (List.nodup_finRange m) (.refl _) (fun l _ => hstart l)
    fun l hl => absurd (List.mem_finRange l) hl

theorem Overlay.updateIndex_held : Ends (updateIndex ch) c.written
    (fun _ c' => c.written.Updated c' ∧ ∀ l, Held c' l (c.storage.seen S l))
    (OnAbort fun _ => False) := by
  have hrem : ∀ l c', c.written.Updated c' → Held c' l (S l ∪ (c.storage.indexAdd l).toFinset) →
      Ends (removeFromIndex ch.fuel l (c.storage.indexRemove l)) c'
        (fun _ c'' => Reindexes c' c'' l (c.storage.seen S l)) (OnAbort fun _ => False) := by
    intro l c' hu hB
    have hseen : c.storage.seen S l
        = (S l ∪ (c.storage.indexAdd l).toFinset) \ (c.storage.indexRemove l).toFinset := by
      ext n
      simp only [LocalStorage.mem_seen, Finset.mem_sdiff, Finset.mem_union, List.mem_toFinset,
        hO.remove l n]
      refine and_congr_right fun hn => ?_
      rcases c.storage.deletes n with _ | _ <;> simp [hn]
    rw [hseen]
    refine removeFromIndex_reindexes _ (by rw [hu.mem]; exact hO.written_head_live l) hB
      fun n hn => ?_
    obtain ⟨hd, hn⟩ := (hO.remove l n).1 hn
    refine ⟨hO.le_of_listed hL hn, ?_⟩
    rw [hu.mem, hO.written_live hn, hd]
    rfl
  simp only [updateIndex, Ends_bind, Ends_get]
  refine (hO.addAll_held hL).mono (fun _ c₁ h₁ => ?_) fun _ _ he => he
  exact forLists_held hrem _ (List.nodup_finRange m) h₁.1 (fun l _ => h₁.2 l)
    fun l hl => absurd (List.mem_finRange l) hl

/-- The lists after a commit are the ones the transaction saw. -/
theorem Overlay.lists_written {c' : Ctx K V m} (hu : c.written.Updated c')
    (hh : ∀ l, Held c' l (c.storage.seen S l)) : Lists c'.shared (c.storage.seen S) := by
  have hrank : ∀ n, c'.shared.rank n = c.shared.rank n := fun n => by rw [hu.rank]; exact commit_rank
  have hlive : ∀ l, ∀ n ∈ c.storage.seen S l, (c'.shared.mem n).val.isSome = true := by
    intro l n hn
    obtain ⟨hn, hd⟩ := LocalStorage.mem_seen.1 hn
    rw [hu.mem, hO.written_live hn, hd]
    rfl
  refine ⟨fun l => (hO.threads l).congr (fun n _ => hrank n) fun n _ => ?_, fun l n hn => ?_,
    fun l n hn => ?_, fun l => (hh l).all (hlive l), fun l l' hne => ?_⟩
  · rw [Shared.next, hu.mem]
    exact commit_next
  · rw [hu.fresh]
    refine ⟨hO.le_of_seen hL hn, ?_⟩
    rcases (LocalStorage.mem_seen.1 hn).1 with hn | hn
    · exact (hL.bound l n hn).2
    · exact (hO.new l n hn).2.1
  · have hd : (c'.shared.mem n).isDeleted = (c.shared.mem n).isDeleted := by
      rw [hu.mem, Ctx.written, commit_isDeleted, hO.kept hn, Bool.false_or]
    rw [hd]
    rcases Finset.mem_insert.1 hn with rfl | hn
    · rw [hu.mem]
      exact ⟨hO.written_head_live l, (hL.live l _ (Finset.mem_insert_self _ _)).2⟩
    · refine ⟨hlive l n hn, ?_⟩
      rcases (LocalStorage.mem_seen.1 hn).1 with hn | hn
      · exact (hL.live l n (Finset.mem_insert_of_mem hn)).2
      · exact (hO.new l n hn).2.2.2
  · rw [Finset.disjoint_left]
    exact fun n hn hn' => hne (hO.seen_unique hL (Finset.mem_insert_of_mem hn)
      (Finset.mem_insert_of_mem hn'))

theorem Overlay.commit_mutates {c' : Ctx K V m} (hu : c.written.Updated c')
    (hh : ∀ l, Held c' l (c.storage.seen S l)) : Mutates c.shared c'.shared S
      (fun l => c.storage.gone (S l)) (fun l => c.storage.added l) c.storage.written := by
  refine ⟨by rw [hu.fresh]; exact le_rfl, fun n _ => by rw [hu.mem]; exact commit_key, fun l => ?_,
    hO.lists_written hL hu hh, fun n _ hn => ?_, fun n _ hn => ?_, fun l n hn => ?_⟩
  · refine ((hO.patch l).mono LocalStorage.added_subset (Set.Subset.refl _)).congr fun n _ => ?_
    rw [hu.rank]
    exact commit_rank
  · have : c'.shared.mem n = c.shared.mem n := by
      rw [hu.mem]
      exact Shared.commit_mem_of_notMem _ hn
    rw [this]
    exact ⟨rfl, rfl, rfl⟩
  · rcases hn with hn | ⟨l, hn⟩
    · obtain ⟨l, hn | hn⟩ := hO.writes n hn
      · exact (hL.live l n hn).2
      · exact (hO.new l n hn).2.2.2
    · exact (hO.new l n (LocalStorage.mem_added.1 hn).1).2.2.2
  · have hd := (LocalStorage.mem_gone.1 hn).2
    rw [hu.mem, Ctx.written, commit_isDeleted, commit_val, hd]
    exact ⟨rfl, rfl⟩

end Commit

end TxList
