import TxList.IndexRuns
import TxList.Proofs.IndexOps

/-!
# The index on its own stays in order

Every operation keeps the levels laid out and the live nodes on the bottom level, whichever dead nodes
its search has taken out.
-/

namespace TxList

open Chain

variable {K : Type} [LinearOrder K]

namespace Index

variable {v : NodeView K} {rank : NodeId → WithBot K} {hn : NodeId} {ix : Index} {top : Nat}
  {hd : Nat → IdxId} {row : Nat → List IdxId} {A : Finset NodeId} {n : NodeId} {i : IdxId}

theorem Shape.isHead (h : Shape v rank hn ix top hd row) (hi : ix.IsHead i) :
    ∃ l ≤ top, i = hd l := by
  induction hi with
  | top => exact ⟨top, le_rfl, h.top_eq⟩
  | @down i j _ hj ih =>
    obtain ⟨l, hl, rfl⟩ := ih
    rcases l with _ | l
    · rw [h.down_zero _ (h.hd_mem hl)] at hj
      simp at hj
    · rw [h.hd_down l hl, Option.some.injEq] at hj
      exact ⟨l, Nat.le_of_succ_le hl, hj.symm⟩

theorem Shape.onLevel (h : Shape v rank hn ix top hd row) (hi : ix.OnLevel i) :
    ∃ l ≤ top, i ∈ row l := by
  induction hi with
  | head hi =>
    obtain ⟨l, hl, rfl⟩ := h.isHead hi
    exact ⟨l, hl, h.hd_mem hl⟩
  | right _ hj ih =>
    obtain ⟨l, hl, hi⟩ := ih
    exact ⟨l, hl, (h.path l hl).next_mem hi hj⟩

/-- The levels hold the bottom level's nodes and the head. -/
theorem Indexed.mem_of_holds (h : Indexed v rank hn ix A) (hh : ix.Holds n) : n ∈ insert hn A := by
  obtain ⟨top, hd, row, hSh, hA⟩ := h
  obtain ⟨i, hi, rfl⟩ := hh
  obtain ⟨l, hl, hi⟩ := hSh.onLevel hi
  by_cases hne : i = hd l
  · rw [hne, hSh.hd_node l hl]
    exact Finset.mem_insert_self _ _
  · exact Finset.mem_insert_of_mem (hSh.node_mem hA l hl i hi hne)

theorem Shape.topLevel (h : Shape v rank hn ix top hd row) : ix.topLevel = top := by
  rw [Index.topLevel, h.top_eq, h.hd_level top le_rfl]

theorem Shape.levels (h : Shape v rank hn ix top hd row) (hr : ∀ n, n ≠ hn → rank n = v.key n) :
    ix.Levels v.key hn top hd fun l => (row l).tail := by
  have hrow : ∀ l ≤ top, row l = hd l :: (row l).tail := fun l hl => by
    obtain ⟨rest, hrest⟩ := h.row_eq l hl
    rw [hrest, List.tail_cons]
  have hne : ∀ l ≤ top, ∀ i ∈ (row l).tail, i ≠ hd l := by
    rintro l hl i hi rfl
    have hnd := h.nodup hl
    rw [hrow l hl] at hnd
    exact (List.nodup_cons.1 hnd).1 hi
  have hnode : ∀ l ≤ top, ∀ i ∈ (row l).tail, (ix.nodes i).node ≠ hn := fun l hl i hi =>
    h.hd_ne_node hl (List.mem_of_mem_tail hi) (hne l hl i hi)
  refine ⟨h.top_eq, h.bottom, h.hd_level, h.hd_node, h.hd_down, fun l hl => ?_, ?_, fun i hi => ?_,
    fun l hl => ?_, fun l hl => ?_, fun l hl i hi => ?_⟩
  · rw [h.hd_up l hl.le, if_neg hl.ne]
  · rw [h.hd_up top le_rfl, if_pos rfl]
  · rw [← hrow 0 (Nat.zero_le _)] at hi
    exact h.down_zero i hi
  · rw [← hrow l hl]
    exact h.path l hl
  · refine ((h.sorted l hl).sublist (List.tail_sublist _)).imp_of_mem fun hi hj hlt => ?_
    rwa [hr _ (hnode l hl _ hi), hr _ (hnode l hl _ hj), WithBot.coe_lt_coe] at hlt
  · obtain ⟨j, hj, hdown, hjn⟩ := h.down_succ l hl i (List.mem_of_mem_tail hi)
    refine ⟨j, ?_, hdown, hjn⟩
    rw [hrow l hl.le] at hj
    refine (List.mem_cons.1 hj).resolve_left ?_
    rintro rfl
    exact hnode (l + 1) hl i hi (hjn.symm.trans (h.hd_node l hl.le))

end Index

namespace Indexing

variable {hn : NodeId} {v : NodeView K} {s s' : Indexing K} {n : NodeId}

/-- The head comes before every key. -/
def rank (hn : NodeId) (key : NodeId → K) (n : NodeId) : WithBot K :=
  if n = hn then ⊥ else key n

omit [LinearOrder K] in
theorem rank_of_ne {key : NodeId → K} (h : n ≠ hn) : rank hn key n = key n := if_neg h

omit [LinearOrder K] in
theorem rank_self {key : NodeId → K} : rank hn key hn = ⊥ := if_pos rfl

/-- The index holds nodes that were added, and the live ones among those. -/
structure Inv (hn : NodeId) (s : Indexing K) : Prop where
  head : hn ∉ s.added
  live : s.view.live hn = true
  indexed : ∃ A, Index.Indexed s.view (rank hn s.view.key) hn s.index A ∧ A ⊆ s.added ∧
    ∀ a ∈ s.added, s.view.live a = true → a ∈ A

/-- The index after a search that has dropped dead nodes only. -/
theorem Inv.drop (h : s.Inv hn) {ix : Index} {A A' : Finset NodeId}
    (hI : Index.Indexed s.view (rank hn s.view.key) hn ix A')
    (hdrop : Index.Drops s.view A A') (hA : A ⊆ s.added)
    (hall : ∀ a ∈ s.added, s.view.live a = true → a ∈ A) :
    Inv hn { s with index := ix } :=
  ⟨h.head, h.live, A', hI, hdrop.sub.trans hA, fun a ha hl => hdrop.keeps a (hall a ha hl) hl⟩

theorem MayAdd.rank_ne (h : s.Inv hn) (hadd : s.MayAdd hn n) {A : Finset NodeId} (hA : A ⊆ s.added) :
    ∀ a ∈ A, s.view.live a = true → rank hn s.view.key a ≠ rank hn s.view.key n := by
  intro a ha hl he
  have hne : a ≠ hn := fun he => h.head (he ▸ hA ha)
  rw [rank_of_ne hne, rank_of_ne hadd.1, WithBot.coe_inj] at he
  exact hadd.2 a (hA ha) hl he

theorem Inv.step (h : s.Inv hn) (hs : s.Step hn s') : s'.Inv hn := by
  obtain ⟨A, hI, hA, hall⟩ := h.indexed
  cases hs with
  | @add n fuel drawn ix hadd hix =>
    obtain ⟨A', hI', hdrop⟩ := (Index.add_spec hI rank_self h.live (rank_of_ne hadd.1)
      (hadd.rank_ne h hA) drawn).1 fuel ix hix
    refine ⟨fun hmem => ?_, h.live, insert n A', hI',
      Finset.insert_subset_insert n (hdrop.sub.trans hA), fun a ha hl => ?_⟩
    · exact (Finset.mem_insert.1 hmem).elim (fun he => hadd.1 he.symm) h.head
    · rcases Finset.mem_insert.1 ha with rfl | ha
      · exact Finset.mem_insert_self _ _
      · exact Finset.mem_insert_of_mem (hdrop.keeps a (hall a ha hl) hl)
  | @clear n hn' =>
    have hne : hn ≠ n := fun he => h.head (he ▸ hn')
    refine ⟨h.head, by simpa [NodeView.clear, hne] using h.live, A,
      hI.congr (fun _ _ => rfl) fun _ _ => rfl, hA, fun a ha hl => hall a ha ?_⟩
    by_cases hne : a = n
    · simp [NodeView.clear, hne] at hl
    · simpa [NodeView.clear, hne] using hl
  | @remove n fuel ix hn' hdead hix =>
    have hne : n ≠ hn := fun he => h.head (he ▸ hn')
    obtain ⟨A', hI', hdrop, -⟩ := (Index.remove_spec hI rank_self h.live (rank_of_ne hne)
      hdead).1 fuel ix hix
    exact h.drop hI' hdrop hA hall
  | getPred hix =>
    obtain ⟨⟨A', hI', hdrop⟩, -⟩ := (Index.getPred_spec _ hI rank_self h.live).1 _ _ _ hix
    exact h.drop hI' hdrop hA hall

theorem Inv.of_reach (hlive : v.live hn = true) (h : Reach hn v s) : s.Inv hn := by
  induction h with
  | new => exact ⟨Finset.notMem_empty _, hlive, ∅, Index.indexed_new, fun _ h => h, fun _ h _ => h⟩
  | step _ hs ih => exact ih.step hs

/-- In every state that operations one after another lead to, the index is in order and every
operation does what it should. -/
theorem Reach.in_order (hlive : v.live hn = true) (h : Reach hn v s) : s.Correct hn := by
  have hI := Inv.of_reach hlive h
  obtain ⟨A, hA, hsub, hall⟩ := hI.indexed
  have hrank : ∀ n, n ≠ hn → rank hn s.view.key n = s.view.key n := fun n hne => rank_of_ne hne
  refine ⟨?_, fun n drawn hadd => ?_, fun n hn' hdead => ?_, fun key => ?_⟩
  · obtain ⟨top, hd, row, hSh, hbot⟩ := hA
    refine ⟨top, hd, _, hSh.levels hrank, fun n hn' hl => ?_⟩
    obtain ⟨i, hi, hne, rfl⟩ := (hbot n).1 (hall n hn' hl)
    obtain ⟨rest, hrest⟩ := hSh.row_eq 0 (Nat.zero_le _)
    rw [hrest] at hi ⊢
    exact ⟨i, (List.mem_cons.1 hi).resolve_left hne, rfl⟩
  · obtain ⟨top, hd, row, hSh, hbot⟩ := hA
    obtain ⟨hspec, hN⟩ := hSh.add hbot rank_self hI.live (hrank n hadd.1) (hadd.rank_ne hI hsub) drawn
    refine ⟨fun fuel ix hix => ?_, hN⟩
    obtain ⟨top', hd', row', A', hSh', hle, -⟩ := hspec fuel ix hix
    rw [hSh.topLevel, hSh'.topLevel]
    exact hle
  · have hne : n ≠ hn := fun he => hI.head (he ▸ hn')
    obtain ⟨hspec, hN⟩ := Index.remove_spec hA rank_self hI.live (hrank n hne) hdead
    refine ⟨fun fuel ix hix hh => ?_, hN⟩
    obtain ⟨A', hI', -, hout⟩ := hspec fuel ix hix
    exact (Finset.mem_insert.1 (hI'.mem_of_holds hh)).elim hne hout
  · obtain ⟨hspec, hN⟩ := Index.getPred_spec key hA rank_self hI.live
    refine ⟨fun fuel ix p hix => ?_, hN⟩
    obtain ⟨-, ⟨hmem, hlt, hmax⟩, -⟩ := hspec fuel ix p hix
    have hrank' : ∀ a ∈ s.added, rank hn s.view.key a = s.view.key a := fun a ha =>
      hrank a fun he => hI.head (he ▸ ha)
    refine ⟨?_, fun a ha hl hak => ?_⟩
    · refine (Finset.mem_insert.1 hmem).imp id fun hp => ?_
      obtain ⟨hp, hpl⟩ := Finset.mem_filter.1 hp
      rw [hrank' p (hsub hp), WithBot.coe_lt_coe] at hlt
      exact ⟨hsub hp, hpl, hlt⟩
    · have hle := hmax a (Finset.mem_filter.2 ⟨hall a ha hl, hl⟩)
        (by rwa [hrank' a ha, WithBot.coe_lt_coe])
      rw [hrank' a ha] at hle
      by_cases hp : p = hn
      · rw [hp, rank_self] at hle
        exact absurd hle (by simp)
      · rw [hrank p hp, WithBot.coe_le_coe] at hle
        exact ⟨hp, hle⟩

/-- A node is added, loses its value, and another node of its key is added while it is still on two
levels. -/
theorem Reach.in_order_reused : ∃ s : Indexing Nat, s.added = {2, 1} ∧ s.view.live 1 = false ∧
    s.Correct 0 := by
  let v : NodeView Nat := ⟨fun _ => 5, fun _ => true⟩
  let ix₁ := ((Index.new 0).add v 9 1 1).get (by decide)
  let ix₂ := (ix₁.add (v.clear 1) 9 0 2).get (by decide)
  have h₁ : Reach 0 v ⟨v, ix₁, {1}⟩ := .step .new (.add ⟨by decide, fun a ha => absurd ha (Finset.notMem_empty a)⟩
    (Option.some_get (x := (Index.new 0).add v 9 1 1) (by decide)).symm)
  have h₂ : Reach 0 v ⟨v.clear 1, ix₁, {1}⟩ := .step h₁ (.clear (by simp))
  have h₃ : Reach 0 v ⟨v.clear 1, ix₂, {2, 1}⟩ := .step h₂ (.add ⟨by decide, by decide⟩
    (Option.some_get (x := ix₁.add (v.clear 1) 9 0 2) (by decide)).symm)
  exact ⟨_, rfl, rfl, Reach.in_order rfl h₃⟩

end Indexing

end TxList
