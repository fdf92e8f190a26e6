import TxList.Proofs.IndexWalk
import TxList.Contents
import TxList.Lib.Chain

/-!
# What the index's operations do

`Indexed A` says that `A` is the set of list nodes on the bottom level. `getPred` finds the highest
live node below a key; on its way, like `add` and `remove`, it may drop dead nodes from `A` and never
drops a live one. `add` puts its node into `A`, and `remove` of a dead node leaves it out.
-/

namespace TxList

namespace Index

open Chain

variable {K : Type} [LinearOrder K] {v : NodeView K} {rank : NodeId → WithBot K} {hn : NodeId}

theorem Searched.node {key : K} {ix ix' : Index} {top : Nat} {hd : Nat → IdxId}
    {row row' : Nat → List IdxId} {points : List (IdxId × Option IdxId)}
    (hS : Searched v rank hn key ix ix' top hd row row' points) (i : IdxId) :
    (ix'.nodes i).node = (ix.nodes i).node := by
  rw [hS.nodes i]

/-- Past a node of a row comes something no higher than what lies past it. -/
theorem Shape.right_le {ix : Index} {top : Nat} {hd : Nat → IdxId} {row : Nat → List IdxId}
    (h : Shape v rank hn ix top hd row) {l : Nat} (hl : l ≤ top) {p i : IdxId} (hp : p ∈ row l)
    (hi : i ∈ row l) (hlt : rank (ix.nodes p).node < rank (ix.nodes i).node) :
    ∃ r, ix.right p = some r ∧ rank (ix.nodes r).node ≤ rank (ix.nodes i).node := by
  obtain ⟨B, C, hrow⟩ := List.append_of_mem hp
  have hsort := h.sorted l hl
  have hpath := h.path l hl
  rw [hrow] at hi hsort hpath
  obtain ⟨-, hsC, hBC⟩ := List.pairwise_append.1 hsort
  rcases List.mem_append.1 hi with hi | hi
  · exact absurd hlt (hBC i hi p (by simp)).not_gt
  rcases List.mem_cons.1 hi with rfl | hi
  · exact absurd hlt (lt_irrefl _)
  have hr := hpath.of_append.1
  rcases C with _ | ⟨r, C⟩
  · simp at hi
  refine ⟨r, hr, ?_⟩
  rcases List.mem_cons.1 hi with rfl | hi
  · exact le_rfl
  · exact ((List.pairwise_cons.1 (List.pairwise_cons.1 hsC).2).1 i hi).le

theorem Shape.length_le {ix : Index} {top : Nat} {hd : Nat → IdxId} {row : Nat → List IdxId}
    (h : Shape v rank hn ix top hd row) {l : Nat} (hl : l ≤ top) : (row l).length ≤ ix.fresh := by
  have hsub : row l ⊆ List.range ix.fresh := fun i hi => List.mem_range.2 (h.bound l hl i hi)
  simpa using ((h.nodup hl).subperm hsub).length_le

/-- `A` is the set of list nodes on the bottom level. -/
def Bottom (ix : Index) (hd : Nat → IdxId) (row : Nat → List IdxId) (A : Finset NodeId) : Prop :=
  ∀ n, n ∈ A ↔ ∃ i ∈ row 0, i ≠ hd 0 ∧ (ix.nodes i).node = n

variable (v rank hn) in
/-- The index is well formed, and `A` is the set of list nodes on its bottom level. -/
def Indexed (ix : Index) (A : Finset NodeId) : Prop :=
  ∃ top hd row, Shape v rank hn ix top hd row ∧ Bottom ix hd row A

/-- The live nodes stay when `A` becomes `A'`, and nothing joins. -/
structure Drops (v : NodeView K) (A A' : Finset NodeId) : Prop where
  sub : A' ⊆ A
  keeps : ∀ a ∈ A, v.live a = true → a ∈ A'

omit [LinearOrder K] in
/-- With no dead node nothing is dropped. -/
theorem Drops.eq {A A' : Finset NodeId} (h : Drops v A A') (hl : ∀ a ∈ A, v.live a = true) :
    A' = A :=
  Finset.Subset.antisymm h.sub fun a ha => h.keeps a ha (hl a ha)

section Search

variable {ix : Index} {top : Nat} {hd : Nat → IdxId} {row row' : Nat → List IdxId} {key : K}
  {A : Finset NodeId}

theorem Shape.hd_ne_node (h : Shape v rank hn ix top hd row) {l : Nat} (hl : l ≤ top) {i : IdxId}
    (hi : i ∈ row l) (hne : i ≠ hd l) : (ix.nodes i).node ≠ hn := by
  intro he
  refine hne (h.inj hl hi (h.hd_mem hl) ?_)
  rw [he, h.hd_node l hl]

/-- The levels' nodes stand for nodes that are on the bottom level too. -/
theorem Shape.node_mem (h : Shape v rank hn ix top hd row) (hA : Bottom ix hd row A) :
    ∀ l ≤ top, ∀ i ∈ row l, i ≠ hd l → (ix.nodes i).node ∈ A
  | 0, _, i, hi, hne => (hA _).2 ⟨i, hi, hne, rfl⟩
  | l + 1, hl, i, hi, hne => by
    obtain ⟨j, hj, -, hj2⟩ := h.down_succ l hl i hi
    rw [← hj2]
    refine h.node_mem hA l (by omega) j hj ?_
    rintro rfl
    exact h.hd_ne_node hl hi hne (hj2.symm.trans (h.hd_node l (by omega)))

theorem Indexed.rank_of_mem (h : Indexed v rank hn ix A) {n : NodeId} (hn' : n ∈ A) :
    rank n = v.key n := by
  obtain ⟨top, hd, row, hSh, hA⟩ := h
  obtain ⟨i, hi, hne, rfl⟩ := (hA n).1 hn'
  exact hSh.key 0 (Nat.zero_le _) i hi hne

/-- The index depends on the keys and ranks of its own nodes only. -/
theorem Indexed.congr (h : Indexed v rank hn ix A) {v' : NodeView K} {rank' : NodeId → WithBot K}
    (hr : ∀ n ∈ insert hn A, rank' n = rank n) (hk : ∀ n ∈ A, v'.key n = v.key n) :
    Indexed v' rank' hn ix A := by
  obtain ⟨top, hd, row, hSh, hA⟩ := h
  have hmem : ∀ {l i}, l ≤ top → i ∈ row l → (ix.nodes i).node ∈ insert hn A := by
    intro l i hl hi
    by_cases hne : i = hd l
    · rw [hne, hSh.hd_node l hl]
      exact Finset.mem_insert_self _ _
    · exact Finset.mem_insert_of_mem (hSh.node_mem hA l hl i hi hne)
  refine ⟨top, hd, row, ⟨hSh.bottom, hSh.top_eq, hSh.row_eq, hSh.path, fun l hl => ?_,
    fun l hl i hi hne => ?_, hSh.hd_node, hSh.hd_level, hSh.hd_up, hSh.hd_down, hSh.down_zero,
    hSh.down_succ, hSh.bound, hSh.disj⟩, hA⟩
  · refine (hSh.sorted l hl).imp_of_mem fun hi hj hlt => ?_
    rw [hr _ (hmem hl hi), hr _ (hmem hl hj)]
    exact hlt
  · rw [hr _ (hmem hl hi), hk _ (hSh.node_mem hA l hl i hi hne)]
    exact hSh.key l hl i hi hne

/-- The nodes on the bottom level after a search. -/
theorem Searched.bottom {ix' : Index} {points : List (IdxId × Option IdxId)}
    (hS : Searched v rank hn key ix ix' top hd row row' points) (hA : Bottom ix hd row A) :
    ∃ A', Bottom ix' hd row' A' ∧ Drops v A A' := by
  classical
  refine ⟨((row' 0).filter (· ≠ hd 0)).toFinset.image fun i => (ix'.nodes i).node, fun n => ?_,
    fun n hn' => ?_, fun n hn' hl => ?_⟩
  · simp [and_assoc]
  · simp only [Finset.mem_image, List.mem_toFinset, List.mem_filter] at hn'
    obtain ⟨i, ⟨hi, hne⟩, rfl⟩ := hn'
    exact (hA _).2 ⟨i, (hS.sub 0 (Nat.zero_le _)).subset hi, by simpa using hne, (hS.node i).symm⟩
  · obtain ⟨i, hi, hne, rfl⟩ := (hA n).1 hn'
    simp only [Finset.mem_image, List.mem_toFinset, List.mem_filter]
    exact ⟨i, ⟨hS.keeps 0 (Nat.zero_le _) i hi hl, by simpa using hne⟩, hS.node i⟩

/-- A search leaves an index without dead nodes as it is. -/
theorem Searched.eq {ix' : Index} {points : List (IdxId × Option IdxId)}
    (hS : Searched v rank hn key ix ix' top hd row row' points)
    (h : Shape v rank hn ix top hd row) (hl : ∀ l ≤ top, ∀ i ∈ row l, ix.live v i = true) :
    ix' = ix := by
  have hrow : ∀ l ≤ top, row' l = row l := fun l hle =>
    (hS.sub l hle).eq_of_length_le ((h.nodup hle).subperm fun i hi =>
      hS.keeps l hle i hi (hl l hle i hi)).length_le
  have hnodes : ix'.nodes = ix.nodes := by
    funext i
    by_cases hi : ∃ l ≤ top, i ∈ row l
    · obtain ⟨l, hle, hi⟩ := hi
      rw [hS.nodes i]
      have hp' := hS.shape.path l hle
      rw [hrow l hle] at hp'
      have : (ix'.nodes i).right = (ix.nodes i).right := (h.path l hle).agree hp' hi
      rw [this]
    · exact hS.out i fun l hle hi' => hi ⟨l, hle, hi'⟩
  obtain ⟨nodes, fresh, t, b⟩ := ix
  obtain ⟨nodes', fresh', t', b'⟩ := ix'
  have h1 : fresh' = fresh := hS.fresh
  have h2 : t' = t := hS.shape.top_eq.trans h.top_eq.symm
  have h3 : b' = b := hS.shape.bottom.trans h.bottom.symm
  subst h1 h2 h3
  simp only at hnodes
  rw [hnodes]

/-- All the levels' nodes are live when the bottom level's are. -/
theorem Shape.live_of_bottom (h : Shape v rank hn ix top hd row) (hA : Bottom ix hd row A)
    (hhn : v.live hn = true) (hl : ∀ a ∈ A, v.live a = true) :
    ∀ l ≤ top, ∀ i ∈ row l, ix.live v i = true
  | 0, hle, i, hi => by
    by_cases hne : i = hd 0
    · simp only [Index.live, hne, h.hd_node 0 hle, hhn]
    · exact hl _ ((hA _).2 ⟨i, hi, hne, rfl⟩)
  | l + 1, hle, i, hi => by
    obtain ⟨j, hj, -, hn⟩ := h.down_succ l hle i hi
    have := h.live_of_bottom hA hhn hl l (by omega) j hj
    simpa only [Index.live, hn] using this

/-- The bottom point of a search is the highest live node below the key. -/
theorem Searched.isPrev {ix' : Index} {points : List (IdxId × Option IdxId)}
    {pt : IdxId × Option IdxId} (hS : Searched v rank hn key ix ix' top hd row row' points)
    (hA : Bottom ix hd row A) (hpt : points[0]? = some pt) :
    IsPrev rank (A.filter (v.live ·)) hn key (ix'.nodes pt.1).node := by
  obtain ⟨pt', hpt', hP⟩ := hS.point 0 (Nat.zero_le _)
  rw [hpt] at hpt'
  obtain rfl := Option.some.inj hpt'
  obtain ⟨A', hA', hdrop⟩ := hS.bottom hA
  refine ⟨?_, hP.below, fun a ha hlt => ?_⟩
  · by_cases he : pt.1 = hd 0
    · rw [he, hS.shape.hd_node 0 (Nat.zero_le _)]
      exact Finset.mem_insert_self _ _
    · exact Finset.mem_insert_of_mem (Finset.mem_filter.2
        ⟨hdrop.sub ((hA' _).2 ⟨pt.1, hP.mem, he, rfl⟩), hP.live⟩)
  · obtain ⟨ha, hal⟩ := Finset.mem_filter.1 ha
    obtain ⟨i, hi, -, rfl⟩ := (hA' a).1 (hdrop.keeps a ha hal)
    by_contra hc
    obtain ⟨r, hr, hle⟩ := hS.shape.right_le (Nat.zero_le _) hP.mem hi (not_le.1 hc)
    rw [hP.right] at hr
    exact ((hP.next_live r hr).2.trans hle).not_gt hlt

theorem getPred_spec (key : K) (h : Indexed v rank hn ix A) (hbot : rank hn = ⊥) (hhn : v.live hn = true) :
    (∀ fuel ix' p, getPred v key fuel ix = some (ix', p) →
      (∃ A', Indexed v rank hn ix' A' ∧ Drops v A A')
        ∧ IsPrev rank (A.filter (v.live ·)) hn key p
        ∧ ((∀ a ∈ A, v.live a = true) → ix' = ix))
    ∧ ∃ N, ∀ fuel, N ≤ fuel → (getPred v key fuel ix).isSome := by
  obtain ⟨top, hd, row, hSh, hA⟩ := h
  have hpoint : ∀ {ix' points fuel}, findInsertionPoints v key fuel ix = some (ix', points) →
      ∃ row' prev next rest, points = (prev, next) :: rest ∧
        Searched v rank hn key ix ix' top hd row row' points := by
    intro ix' points fuel hf
    obtain ⟨row', hS⟩ := (findInsertionPoints_spec _ hSh hbot hhn fuel).1 ix' points hf
    have hlen := hS.length
    rcases points with _ | ⟨⟨prev, next⟩, rest⟩
    · simp at hlen
    · exact ⟨row', prev, next, rest, rfl, hS⟩
  have hlive : ∀ {ix' prev next rest row'},
      Searched v rank hn key ix ix' top hd row row' ((prev, next) :: rest) →
      v.live (ix'.nodes prev).node = true := by
    intro ix' prev next rest row' hS
    obtain ⟨pt, hpt, hP⟩ := hS.point 0 (Nat.zero_le _)
    simp only [List.getElem?_cons_zero, Option.some.injEq] at hpt
    subst hpt
    exact hP.live
  refine ⟨fun fuel ix' p hg => ?_, ?_⟩
  · rcases fuel with _ | fuel
    · simp [getPred, getPredLoop] at hg
    simp only [getPred, getPredLoop, findPredecessor] at hg
    rcases hf : findInsertionPoints v key (fuel + 1) ix with _ | ⟨ix₁, points⟩
    · simp [hf] at hg
    obtain ⟨row', prev, next, rest, rfl, hS⟩ := hpoint hf
    simp only [hf, hlive hS, if_true, Option.some.injEq, Prod.mk.injEq] at hg
    obtain ⟨rfl, rfl⟩ := hg
    obtain ⟨A', hA', hdrop⟩ := hS.bottom hA
    refine ⟨⟨A', ⟨top, hd, row', hS.shape, hA'⟩, hdrop⟩, hS.isPrev hA rfl, fun hl => ?_⟩
    exact hS.eq hSh (hSh.live_of_bottom hA hhn hl)
  · refine ⟨top + 1 + (ix.fresh + 1), fun fuel hf => ?_⟩
    have hlen : ∀ l ≤ top, (row l).length < fuel := fun l hl => by
      have := hSh.length_le hl
      omega
    have hsome := (findInsertionPoints_spec key hSh hbot hhn fuel).2 (by omega) hlen
    obtain ⟨⟨ix', points⟩, hf'⟩ := Option.isSome_iff_exists.1 hsome
    obtain ⟨row', prev, next, rest, rfl, hS⟩ := hpoint hf'
    rcases fuel with _ | fuel
    · omega
    simp [getPred, getPredLoop, findPredecessor, hf', hlive hS]

end Search

section Add

variable {ix : Index} {top : Nat} {hd : Nat → IdxId} {row : Nat → List IdxId} {key : K}
  {A : Finset NodeId}

theorem createNewIndexNodes_spec (n : NodeId) : ∀ (count : Nat) (down : Option IdxId) (ix : Index),
    (createNewIndexNodes n count down ix).2 = (List.range count).map (ix.fresh + ·)
    ∧ (createNewIndexNodes n count down ix).1.fresh = ix.fresh + count
    ∧ (createNewIndexNodes n count down ix).1.headTop = ix.headTop
    ∧ (createNewIndexNodes n count down ix).1.headBottom = ix.headBottom
    ∧ (∀ i < ix.fresh, (createNewIndexNodes n count down ix).1.nodes i = ix.nodes i)
    ∧ (0 < count → (createNewIndexNodes n count down ix).1.nodes ix.fresh = { node := n, down })
    ∧ ∀ j, j + 1 < count → (createNewIndexNodes n count down ix).1.nodes (ix.fresh + (j + 1))
        = { node := n, down := some (ix.fresh + j) }
  | 0, _, _ => by simp [createNewIndexNodes]
  | count + 1, down, ix => by
    obtain ⟨ix₁, hix₁⟩ : ∃ ix₁ : Index, ix₁ =
      { ix.setNode ix.fresh { node := n, down := down } with fresh := ix.fresh + 1 } := ⟨_, rfl⟩
    have hfresh : ix₁.fresh = ix.fresh + 1 := by rw [hix₁]
    have hself : ix₁.nodes ix.fresh = { node := n, down := down } := by simp [hix₁, setNode]
    have hlt : ∀ i < ix.fresh, ix₁.nodes i = ix.nodes i := fun i hi => by
      simp [hix₁, setNode, Function.update_of_ne hi.ne]
    obtain ⟨h1, h2, h3, h4, h5, h6, h7⟩ := createNewIndexNodes_spec n count (some ix.fresh) ix₁
    have hc : createNewIndexNodes n (count + 1) down ix =
        ((createNewIndexNodes n count (some ix.fresh) ix₁).1,
          ix.fresh :: (createNewIndexNodes n count (some ix.fresh) ix₁).2) := by
      simp only [createNewIndexNodes, ← hix₁]
    rw [hc]
    refine ⟨?_, by simp only [h2, hfresh]; omega, ?_, ?_, fun i hi => ?_, fun _ => ?_,
      fun j hj => ?_⟩
    · simp only [h1, hfresh, List.range_succ_eq_map, List.map_cons, List.map_map, Nat.add_zero]
      congr 1
      refine List.map_congr_left fun j _ => ?_
      simp only [Function.comp_apply, Nat.succ_eq_add_one]
      omega
    · rw [h3, hix₁]
      rfl
    · rw [h4, hix₁]
      rfl
    · rw [h5 i (by omega), hlt i hi]
    · rw [h5 ix.fresh (by omega), hself]
    · rw [hfresh] at h6 h7
      rcases j with _ | j
      · exact h6 (by omega)
      · rw [show ix.fresh + (j + 1 + 1) = ix.fresh + 1 + (j + 1) by omega, h7 j (by omega),
          show ix.fresh + 1 + j = ix.fresh + (j + 1) by omega]

omit [LinearOrder K] in
/-- Linking index node `i` in behind `prev`. -/
theorem link_eq {prev i : IdxId} {next : Option IdxId} (hne : prev ≠ i)
    (hlive : ix.live v prev = true) (hr : ix.right prev = next) :
    ix.link v prev next i = ((ix.setRight i next).setRight prev (some i), true) := by
  have h1 : (ix.setRight i next).live v prev = true := by
    rw [(Reright.setRight ix i next).live]
    exact hlive
  have h2 : ((ix.setRight i next).nodes prev).right = next := by
    rw [setRight_right_ne _ _ hne]
    exact hr
  simp [link, h1, casRight, h2]

/-- `i` gets linked on level `curr` behind `prev`, where it is in order. -/
structure Splice (v : NodeView K) (rank : NodeId → WithBot K) (ix ix' : Index) (top : Nat)
    (row : Nat → List IdxId) (curr : Nat) (B C : List IdxId) (prev i : IdxId) : Prop where
  row_eq : row curr = B ++ prev :: C
  le : curr ≤ top
  reright : Reright ix ix' [i, prev]
  prev_right : ix'.right prev = some i
  right : ix'.right i = ix.right prev
  new : ∀ l ≤ top, i ∉ row l
  lt_fresh : i < ix.fresh
  above : ∀ b ∈ B ++ [prev], rank (ix.nodes b).node < rank (ix.nodes i).node
  below : ∀ c ∈ C, rank (ix.nodes i).node < rank (ix.nodes c).node
  key : rank (ix.nodes i).node = v.key (ix.nodes i).node
  down_zero : curr = 0 → (ix.nodes i).down = none
  down_succ : ∀ l, curr = l + 1 →
    ∃ j ∈ row l, (ix.nodes i).down = some j ∧ (ix.nodes j).node = (ix.nodes i).node

namespace Splice

variable {ix' : Index} {curr : Nat} {B C : List IdxId} {prev i j : IdxId} {l : Nat}

theorem mem_iff (h : Splice v rank ix ix' top row curr B C prev i) :
    j ∈ Function.update row curr (B ++ prev :: i :: C) l ↔ j ∈ row l ∨ l = curr ∧ j = i := by
  by_cases he : l = curr
  · subst he
    rw [Function.update_self, h.row_eq]
    simp only [List.mem_append, List.mem_cons, true_and]
    tauto
  · simp [he]

theorem right_ne (h : Splice v rank ix ix' top row curr B C prev i) (hi : j ≠ i) (hp : j ≠ prev) :
    ix'.right j = ix.right j := by
  rw [Index.right, h.reright.out j (by simp [hi, hp])]
  rfl

theorem prev_mem (h : Splice v rank ix ix' top row curr B C prev i) : prev ∈ row curr := by
  rw [h.row_eq]
  simp

theorem path (h : Splice v rank ix ix' top row curr B C prev i) (hS : Shape v rank hn ix top hd row)
    (hl : l ≤ top) : Path ix'.right (Function.update row curr (B ++ prev :: i :: C) l) := by
  have hpath := hS.path l hl
  by_cases he : l = curr
  · subst he
    have hnd := hS.nodup hl
    rw [h.row_eq] at hpath hnd
    obtain ⟨-, hndC, hdis⟩ := List.nodup_append.1 hnd
    have hni : ∀ y ∈ B ++ prev :: C, y ≠ i := fun y hy hyi => h.new l hl (by rwa [h.row_eq, ← hyi])
    rw [Function.update_self]
    refine hpath.insert h.prev_right h.right (fun y hy => h.right_ne (hni y (by simp [hy])) ?_)
      fun y hy => h.right_ne (hni y (by simp [hy])) ?_
    · exact fun hyp => hdis y hy prev (by simp) hyp
    · exact fun hyp => (List.nodup_cons.1 hndC).1 (hyp ▸ hy)
  · rw [Function.update_of_ne he]
    refine hpath.congr fun x hx => h.right_ne ?_ ?_
    · exact fun hxi => h.new l hl (hxi ▸ hx)
    · exact fun hxp => he (hS.disj l hl curr h.le x hx (hxp ▸ h.prev_mem))

theorem sorted (h : Splice v rank ix ix' top row curr B C prev i) (hS : Shape v rank hn ix top hd row)
    (hl : l ≤ top) : (Function.update row curr (B ++ prev :: i :: C) l).Pairwise
      fun i j => rank (ix.nodes i).node < rank (ix.nodes j).node := by
  have hsort := hS.sorted l hl
  by_cases he : l = curr
  · subst he
    rw [h.row_eq, List.append_cons] at hsort
    obtain ⟨hB, hC, hBC⟩ := List.pairwise_append.1 hsort
    rw [Function.update_self, List.append_cons]
    refine List.pairwise_append.2 ⟨hB, List.pairwise_cons.2 ⟨h.below, hC⟩, fun b hb c hc => ?_⟩
    rcases List.mem_cons.1 hc with rfl | hc
    · exact h.above b hb
    · exact hBC b hb c hc
  · rwa [Function.update_of_ne he]

/-- The layout after the link. -/
theorem shape (h : Splice v rank ix ix' top row curr B C prev i) (hS : Shape v rank hn ix top hd row) :
    Shape v rank hn ix' top hd (Function.update row curr (B ++ prev :: i :: C)) where
  bottom := by rw [h.reright.headBottom, hS.bottom]
  top_eq := by rw [h.reright.headTop, hS.top_eq]
  row_eq l hl := by
    by_cases he : l = curr
    · subst he
      obtain ⟨r, hr⟩ := hS.row_eq l hl
      rw [Function.update_self]
      exact exists_cons_of_append ⟨r, h.row_eq ▸ hr⟩
    · rw [Function.update_of_ne he]
      exact hS.row_eq l hl
  path l hl := h.path hS hl
  sorted l hl := by
    simp only [h.reright.node]
    exact h.sorted hS hl
  key l hl j hj hne := by
    simp only [h.reright.node]
    rcases h.mem_iff.1 hj with hj | ⟨-, rfl⟩
    · exact hS.key l hl j hj hne
    · exact h.key
  hd_node l hl := by rw [h.reright.node, hS.hd_node l hl]
  hd_level l hl := by rw [h.reright.level, hS.hd_level l hl]
  hd_up l hl := by rw [h.reright.up, hS.hd_up l hl]
  hd_down l hl := by rw [h.reright.down, hS.hd_down l hl]
  down_zero j hj := by
    rw [h.reright.down]
    rcases h.mem_iff.1 hj with hj | ⟨h0, rfl⟩
    · exact hS.down_zero j hj
    · exact h.down_zero h0.symm
  down_succ l hl j hj := by
    simp only [h.reright.down, h.reright.node]
    rcases h.mem_iff.1 hj with hj | ⟨he, rfl⟩
    · obtain ⟨k, hk, h1, h2⟩ := hS.down_succ l hl j hj
      exact ⟨k, h.mem_iff.2 (.inl hk), h1, h2⟩
    · obtain ⟨k, hk, h1, h2⟩ := h.down_succ l he.symm
      exact ⟨k, h.mem_iff.2 (.inl hk), h1, h2⟩
  bound l hl j hj := by
    rw [h.reright.fresh]
    rcases h.mem_iff.1 hj with hj | ⟨-, rfl⟩
    · exact hS.bound l hl j hj
    · exact h.lt_fresh
  disj l hl l' hl' j hj hj' := by
    rcases h.mem_iff.1 hj with h1 | ⟨h1, rfl⟩ <;> rcases h.mem_iff.1 hj' with h2 | ⟨h2, he⟩
    · exact hS.disj l hl l' hl' j h1 h2
    · exact absurd (he ▸ h1) (h.new l hl)
    · exact absurd h2 (h.new l' hl')
    · exact h1.trans h2.symm

end Splice

/-- The state of `add` about to link its node `n` on level `curr`: the index nodes from `f` on are
`n`'s, those of the levels below are linked, and the levels from `curr` up have their points. -/
structure Linking (v : NodeView K) (rank : NodeId → WithBot K) (hn n : NodeId) (f count : Nat)
    (points : List (IdxId × Option IdxId)) (A : Finset NodeId) (ix : Index) (top : Nat)
    (hd : Nat → IdxId) (row : Nat → List IdxId) (curr : Nat) : Prop where
  shape : Shape v rank hn ix top hd row
  bottom : Bottom ix hd row (if curr = 0 then A else insert n A)
  point : ∀ l, curr ≤ l → l ≤ top → ∃ pt, points[l]? = some pt ∧
    Point v rank (v.key n) ix (row l) pt.1 pt.2
  absent : ∀ l, curr ≤ l → l ≤ top → ∀ i ∈ row l, rank (ix.nodes i).node ≠ v.key n
  new : ∀ j, curr ≤ j → j < count → ∀ l ≤ top, f + j ∉ row l
  old : ∀ l ≤ top, hd l < f
  fresh : f + count ≤ ix.fresh
  node : ∀ j < count, (ix.nodes (f + j)).node = n
  right_none : ∀ j, curr ≤ j → j < count → (ix.nodes (f + j)).right = none
  down_zero : (ix.nodes f).down = none
  down_succ : ∀ j, j + 1 < count → (ix.nodes (f + (j + 1))).down = some (f + j)
  below : ∀ j < curr, j ≤ top → f + j ∈ row j

variable {n : NodeId} {f count : Nat} {points : List (IdxId × Option IdxId)}

/-- Where the index node of the level that is next is to be linked, and that it is in order there. -/
theorem Linking.splice {curr : Nat} (hL : Linking v rank hn n f count points A ix top hd row curr)
    (hrank : rank n = v.key n) (hc : curr ≤ top) (hcount : curr < count) {prev : IdxId}
    {next : Option IdxId} (hP : Point v rank (v.key n) ix (row curr) prev next) :
    ∃ B C, Splice v rank ix ((ix.setRight (f + curr) next).setRight prev (some (f + curr))) top row
      curr B C prev (f + curr) := by
  have hnew := hL.new curr le_rfl hcount
  have hne : prev ≠ f + curr := fun h => hnew curr hc (h ▸ hP.mem)
  have hnode : (ix.nodes (f + curr)).node = n := hL.node curr hcount
  obtain ⟨B, C, hrow⟩ := List.append_of_mem hP.mem
  have hsort := hL.shape.sorted curr hc
  have hpath := hL.shape.path curr hc
  have habs := hL.absent curr le_rfl hc
  rw [hrow] at hsort hpath habs
  obtain ⟨-, hsC, hBC⟩ := List.pairwise_append.1 hsort
  refine ⟨B, C, hrow, hc, ?_, ?_, ?_, hnew, (Nat.add_lt_add_left hcount f).trans_le hL.fresh,
    fun b hb => ?_, fun c hcC => ?_, by rw [hnode, hrank], ?_, ?_⟩
  · exact ((Reright.setRight ix (f + curr) next).mono (by simp)).trans
      ((Reright.setRight _ prev (some (f + curr))).mono (by simp))
  · rw [right, setRight_right_self]
  · rw [right, setRight_right_ne _ _ hne.symm, setRight_right_self]
    exact hP.right.symm
  · rw [hnode, hrank]
    rcases List.mem_append.1 hb with hb | hb
    · exact (hBC b hb prev (by simp)).trans hP.below
    · rw [List.mem_singleton.1 hb]
      exact hP.below
  · -- what lies past `prev` lies past the new node
    rw [hnode, hrank]
    refine lt_of_le_of_ne ?_ (habs c (by simp [hcC])).symm
    rcases C with _ | ⟨r, C⟩
    · simp at hcC
    refine (hP.next_live r (hP.right.symm.trans hpath.of_append.1)).2.trans ?_
    rcases List.mem_cons.1 hcC with rfl | hcC
    · exact le_rfl
    · exact ((List.pairwise_cons.1 (List.pairwise_cons.1 hsC).2).1 c hcC).le
  · rintro rfl
    exact hL.down_zero
  · rintro l rfl
    refine ⟨f + l, hL.below l (Nat.lt_succ_self l) (Nat.le_of_succ_le hc), hL.down_succ l hcount, ?_⟩
    rw [hL.node l (Nat.lt_of_succ_lt hcount), hnode]

/-- What is on the bottom level after a link. -/
theorem Linking.bottom_splice {curr : Nat} {ix' : Index} {prev : IdxId} {B C : List IdxId}
    (hL : Linking v rank hn n f count points A ix top hd row curr) (hcount : curr < count)
    (hS : Splice v rank ix ix' top row curr B C prev (f + curr)) :
    Bottom ix' hd (Function.update row curr (B ++ prev :: (f + curr) :: C)) (insert n A) := by
  intro x
  simp only [hS.reright.node]
  have hb := hL.bottom x
  by_cases h0 : curr = 0
  · subst h0
    rw [if_pos rfl] at hb
    rw [Finset.mem_insert, hb]
    constructor
    · rintro (rfl | ⟨i, hi, h1, h2⟩)
      · exact ⟨f + 0, hS.mem_iff.2 (.inr ⟨rfl, rfl⟩), (hL.old 0 (Nat.zero_le _)).ne', hL.node 0 hcount⟩
      · exact ⟨i, hS.mem_iff.2 (.inl hi), h1, h2⟩
    · rintro ⟨i, hi, h1, h2⟩
      rcases hS.mem_iff.1 hi with hi | ⟨-, rfl⟩
      · exact .inr ⟨i, hi, h1, h2⟩
      · exact .inl (h2.symm.trans (hL.node 0 hcount))
  · rw [if_neg h0] at hb
    rw [hb, Function.update_of_ne (Ne.symm h0)]

/-- Linking on one more level. -/
theorem Linking.step {curr : Nat}
    (hL : Linking v rank hn n f count points A ix top hd row curr) (hrank : rank n = v.key n)
    (hc : curr ≤ top) (hcount : curr < count) {prev : IdxId} {next : Option IdxId}
    (hpt : points[curr]? = some (prev, next)) :
    ∃ ix' row', ix.link v prev next (f + curr) = (ix', true) ∧
      Linking v rank hn n f count points A ix' top hd row' (curr + 1) := by
  obtain ⟨pt, hpt', hP⟩ := hL.point curr le_rfl hc
  obtain rfl := Option.some.inj (hpt.symm.trans hpt')
  obtain ⟨B, C, hS⟩ := hL.splice hrank hc hcount hP
  have hre := hS.reright
  have hne : prev ≠ f + curr := fun h => hL.new curr le_rfl hcount curr hc (h ▸ hP.mem)
  refine ⟨_, _, link_eq hne hP.live hP.right, hS.shape hL.shape, ?_, fun l h1 h2 => ?_,
    fun l h1 h2 i hi => ?_, fun j h1 h2 l hl hj => ?_, hL.old, ?_, fun j hj => ?_,
    fun j h1 h2 => ?_, ?_, fun j hj => ?_, fun j h1 h2 => ?_⟩
  · rw [if_neg (Nat.succ_ne_zero curr)]
    exact hL.bottom_splice hcount hS
  · obtain ⟨pt, hpt', hP'⟩ := hL.point l (by omega) h2
    refine ⟨pt, hpt', ?_⟩
    rw [Function.update_of_ne (show l ≠ curr by omega)]
    refine hP'.congr hre fun i hi hi' => ?_
    simp only [List.mem_cons, List.not_mem_nil, or_false] at hi'
    rcases hi' with rfl | rfl
    · exact hL.new curr le_rfl hcount l h2 hi
    · have := hL.shape.disj l h2 curr hc _ hi hP.mem
      omega
  · rw [Function.update_of_ne (show l ≠ curr by omega)] at hi
    rw [hre.node]
    exact hL.absent l (by omega) h2 i hi
  · rcases hS.mem_iff.1 hj with hj | ⟨-, hj⟩
    · exact hL.new j (by omega) h2 l hl hj
    · have := Nat.add_left_cancel hj
      omega
  · rw [hre.fresh]
    exact hL.fresh
  · rw [hre.node]
    exact hL.node j hj
  · have hjp : f + j ≠ prev := fun he => hL.new j (by omega) h2 curr hc (he ▸ hP.mem)
    have hj := hS.right_ne (show f + j ≠ f + curr by omega) hjp
    rw [right, right] at hj
    rw [hj]
    exact hL.right_none j (by omega) h2
  · rw [hre.down]
    exact hL.down_zero
  · rw [hre.down]
    exact hL.down_succ j hj
  · rcases Nat.lt_succ_iff_lt_or_eq.1 h1 with h1 | rfl
    · exact hS.mem_iff.2 (.inl (hL.below j h1 h2))
    · exact hS.mem_iff.2 (.inr ⟨rfl, rfl⟩)

/-- The loop over the levels links the node on all of those it has, up to its own level. -/
theorem insertLevels_spec (hrank : rank n = v.key n) (fuel : Nat) {level : Nat}
    (hlen : points.length = top + 1) : ∀ (k : Nat) (ix : Index) (row : Nat → List IdxId) (curr : Nat),
    Linking v rank hn n f (level + 1) points A ix top hd row curr →
    curr ≤ level + 1 → curr ≤ top + 1 →
    (∀ x, insertLevels v fuel ((List.range (level + 1)).map (f + ·)) points level k ix
        (if curr ≤ top then some (hd curr) else none) curr = some x →
      ∃ ix' row', x = (ix', some (min (level + 1) (top + 1))) ∧
        Linking v rank hn n f (level + 1) points A ix' top hd row' (min (level + 1) (top + 1)))
    ∧ (0 < fuel → top + 1 < k + curr → (insertLevels v fuel ((List.range (level + 1)).map (f + ·))
        points level k ix (if curr ≤ top then some (hd curr) else none) curr).isSome)
  | 0, ix, row, curr, hL, _, hc => by
    refine ⟨fun x hx => by simp [insertLevels] at hx, fun _ h => by omega⟩
  | k + 1, ix, row, curr, hL, hl, hc => by
    by_cases htop : curr ≤ top
    · rw [if_pos htop]
      simp only [insertLevels, hL.shape.hd_level curr htop, hlen]
      by_cases hlev : curr < level + 1
      · obtain ⟨⟨prev, next⟩, hpt, -⟩ := hL.point curr le_rfl htop
        obtain ⟨ix', row', hlink, hL'⟩ := hL.step hrank htop hlev hpt
        have hidx : ((List.range (level + 1)).map (f + ·))[curr]? = some (f + curr) := by
          simp [hlev]
        rw [if_pos ⟨hlev, by omega⟩]
        simp only [hidx, hpt]
        rcases fuel with _ | fuel
        · exact ⟨fun x hx => by simp [insertInLevel] at hx, fun h => by omega⟩
        simp only [insertInLevel, hlink]
        have hup : (ix'.nodes (hd curr)).up
            = if curr + 1 ≤ top then some (hd (curr + 1)) else none := by
          rw [hL'.shape.hd_up curr htop]
          by_cases he : curr = top
          · rw [if_pos he, if_neg (by omega)]
          · rw [if_neg he, if_pos (by omega)]
        rw [hup]
        obtain ⟨ih1, ih2⟩ := insertLevels_spec hrank (fuel + 1) hlen k ix' row' (curr + 1) hL'
          (by omega) (by omega)
        exact ⟨ih1, fun h0 hk => ih2 h0 (by omega)⟩
      · have hmin : min (level + 1) (top + 1) = curr := by omega
        rw [if_neg fun h => hlev h.1, hmin]
        refine ⟨fun x hx => ⟨ix, row, ?_, hL⟩, fun _ _ => rfl⟩
        simpa using hx.symm
    · have hmin : min (level + 1) (top + 1) = curr := by omega
      rw [if_neg htop, hmin]
      refine ⟨fun x hx => ⟨ix, row, ?_, hL⟩, fun _ _ => rfl⟩
      simpa [insertLevels] using hx.symm

/-- The layout depends only on the allocated index nodes. -/
theorem Shape.congr (h : Shape v rank hn ix top hd row) {ix' : Index}
    (hnodes : ∀ i < ix.fresh, ix'.nodes i = ix.nodes i) (hfresh : ix.fresh ≤ ix'.fresh)
    (htop : ix'.headTop = ix.headTop) (hbottom : ix'.headBottom = ix.headBottom) :
    Shape v rank hn ix' top hd row := by
  have heq : ∀ {l i}, l ≤ top → i ∈ row l → ix'.nodes i = ix.nodes i :=
    fun hl hi => hnodes _ (h.bound _ hl _ hi)
  have hhd : ∀ {l}, l ≤ top → ix'.nodes (hd l) = ix.nodes (hd l) := fun hl => heq hl (h.hd_mem hl)
  refine ⟨by rw [hbottom, h.bottom], by rw [htop, h.top_eq], h.row_eq, fun l hl => ?_,
    fun l hl => ?_, fun l hl i hi => ?_, fun l hl => ?_, fun l hl => ?_, fun l hl => ?_,
    fun l hl => ?_, fun i hi => ?_, fun l hl i hi => ?_, fun l hl i hi => ?_, h.disj⟩
  · refine (h.path l hl).congr fun x hx => ?_
    rw [right, heq hl hx]
    rfl
  · refine (h.sorted l hl).imp_of_mem fun hi hj hlt => ?_
    rw [heq hl hi, heq hl hj]
    exact hlt
  · rw [heq hl hi]
    exact h.key l hl i hi
  · rw [hhd hl, h.hd_node l hl]
  · rw [hhd hl, h.hd_level l hl]
  · rw [hhd hl, h.hd_up l hl]
  · rw [hhd (show l + 1 ≤ top from hl), h.hd_down l hl]
  · rw [heq (Nat.zero_le _) hi, h.down_zero i hi]
  · obtain ⟨j, hj, h1, h2⟩ := h.down_succ l hl i hi
    refine ⟨j, hj, ?_, ?_⟩
    · rw [heq (show l + 1 ≤ top from hl) hi, h1]
    · rw [heq hl.le hj, heq (show l + 1 ≤ top from hl) hi, h2]
  · exact (h.bound l hl i hi).trans_le hfresh

/-- A level above the top one: its new head, and behind it index node `j` of list node `n`. -/
structure Crown (v : NodeView K) (rank : NodeId → WithBot K) (hn n : NodeId) (ix ix' : Index)
    (top : Nat) (hd : Nat → IdxId) (row : Nat → List IdxId) (j : IdxId) : Prop where
  headBottom : ix'.headBottom = ix.headBottom
  headTop : ix'.headTop = ix.fresh
  fresh : ix'.fresh = ix.fresh + 1
  hd_top : ix'.nodes (hd top) = { ix.nodes (hd top) with up := some ix.fresh }
  head : ix'.nodes ix.fresh = { node := hn, down := some (hd top), right := some j,
                                level := top + 1 }
  out : ∀ i < ix.fresh, i ≠ hd top → ix'.nodes i = ix.nodes i
  lt_fresh : j < ix.fresh
  new : ∀ l ≤ top, j ∉ row l
  node : (ix'.nodes j).node = n
  right_none : ix'.right j = none
  down : ∃ k ∈ row top, (ix'.nodes j).down = some k ∧ (ix'.nodes k).node = n

namespace Crown

variable {ix' : Index} {i j : IdxId} {l : Nat}

/-- Apart from the old top head's pointer up nothing of a row changes. -/
theorem nodes_eq (h : Crown v rank hn n ix ix' top hd row j)
    (hS : Shape v rank hn ix top hd row) (hl : l ≤ top) (hi : i ∈ row l) :
    ix'.nodes i = { ix.nodes i with up := (ix'.nodes i).up } := by
  by_cases he : i = hd top
  · rw [he, h.hd_top]
  · rw [h.out i (hS.bound l hl i hi) he]

theorem node_eq (h : Crown v rank hn n ix ix' top hd row j)
    (hS : Shape v rank hn ix top hd row) (hl : l ≤ top) (hi : i ∈ row l) :
    (ix'.nodes i).node = (ix.nodes i).node := by
  rw [h.nodes_eq hS hl hi]

theorem down_eq (h : Crown v rank hn n ix ix' top hd row j)
    (hS : Shape v rank hn ix top hd row) (hl : l ≤ top) (hi : i ∈ row l) :
    (ix'.nodes i).down = (ix.nodes i).down := by
  rw [h.nodes_eq hS hl hi]

theorem right_eq (h : Crown v rank hn n ix ix' top hd row j)
    (hS : Shape v rank hn ix top hd row) (hl : l ≤ top) (hi : i ∈ row l) :
    ix'.right i = ix.right i := by
  rw [right, h.nodes_eq hS hl hi]
  rfl

theorem row_le (hl : l ≤ top) :
    Function.update row (top + 1) [ix.fresh, j] l = row l :=
  Function.update_of_ne (by omega) _ _

theorem hd_le (hl : l ≤ top) : Function.update hd (top + 1) ix.fresh l = hd l :=
  Function.update_of_ne (by omega) _ _

theorem mem_iff (hl : l ≤ top + 1) : i ∈ Function.update row (top + 1) [ix.fresh, j] l ↔
    l ≤ top ∧ i ∈ row l ∨ l = top + 1 ∧ (i = ix.fresh ∨ i = j) := by
  rcases Nat.of_le_succ hl with hl | rfl
  · rw [row_le hl]
    simp [hl, (Nat.lt_succ_of_le hl).ne]
  · simp

theorem path (h : Crown v rank hn n ix ix' top hd row j) (hS : Shape v rank hn ix top hd row)
    (hl : l ≤ top + 1) : Path ix'.right (Function.update row (top + 1) [ix.fresh, j] l) := by
  rcases Nat.of_le_succ hl with hl | rfl
  · rw [row_le hl]
    exact (hS.path l hl).congr fun x hx => h.right_eq hS hl hx
  · rw [Function.update_self]
    exact ⟨by rw [right, h.head]; rfl, h.right_none, trivial⟩

theorem sorted (h : Crown v rank hn n ix ix' top hd row j) (hS : Shape v rank hn ix top hd row)
    (hbot : rank hn = ⊥) (hrank : rank n = v.key n) (hl : l ≤ top + 1) :
    (Function.update row (top + 1) [ix.fresh, j] l).Pairwise
      fun i j => rank (ix'.nodes i).node < rank (ix'.nodes j).node := by
  rcases Nat.of_le_succ hl with hl | rfl
  · rw [row_le hl]
    refine (hS.sorted l hl).imp_of_mem fun hi hj hlt => ?_
    rwa [h.node_eq hS hl hi, h.node_eq hS hl hj]
  · rw [Function.update_self]
    refine List.pairwise_pair.2 ?_
    rw [h.head, h.node, hbot, hrank]
    exact WithBot.bot_lt_coe _

theorem hd_up (h : Crown v rank hn n ix ix' top hd row j) (hS : Shape v rank hn ix top hd row)
    (hl : l ≤ top + 1) : (ix'.nodes (Function.update hd (top + 1) ix.fresh l)).up
      = if l = top + 1 then none else some (Function.update hd (top + 1) ix.fresh (l + 1)) := by
  rcases Nat.of_le_succ hl with hl | rfl
  · rw [hd_le hl, if_neg (show l ≠ top + 1 by omega)]
    rcases Nat.eq_or_lt_of_le hl with rfl | hlt
    · rw [Function.update_self, h.hd_top]
    · have hne : hd l ≠ hd top := fun he => hlt.ne
        (hS.disj l hl top le_rfl (hd l) (hS.hd_mem hl) (he ▸ hS.hd_mem le_rfl))
      rw [hd_le hlt, h.out _ (hS.bound l hl _ (hS.hd_mem hl)) hne, hS.hd_up l hl,
        if_neg hlt.ne]
  · rw [Function.update_self, if_pos rfl, h.head]

theorem down_succ (h : Crown v rank hn n ix ix' top hd row j)
    (hS : Shape v rank hn ix top hd row) (hl : l < top + 1)
    (hi : i ∈ Function.update row (top + 1) [ix.fresh, j] (l + 1)) :
    ∃ k ∈ Function.update row (top + 1) [ix.fresh, j] l,
      (ix'.nodes i).down = some k ∧ (ix'.nodes k).node = (ix'.nodes i).node := by
  have hle : l ≤ top := Nat.le_of_lt_succ hl
  rw [row_le hle]
  rcases (mem_iff hl).1 hi with ⟨hl', hi⟩ | ⟨he, rfl | rfl⟩
  · obtain ⟨k, hk, h1, h2⟩ := hS.down_succ l hl' i hi
    refine ⟨k, hk, by rw [h.down_eq hS hl' hi, h1], ?_⟩
    rw [h.node_eq hS hle hk, h.node_eq hS hl' hi, h2]
  · obtain rfl := Nat.succ_injective he
    refine ⟨hd l, hS.hd_mem le_rfl, by rw [h.head], ?_⟩
    rw [h.node_eq hS le_rfl (hS.hd_mem le_rfl), hS.hd_node l le_rfl, h.head]
  · obtain rfl := Nat.succ_injective he
    obtain ⟨k, hk, h1, h2⟩ := h.down
    exact ⟨k, hk, h1, h2.trans h.node.symm⟩

theorem disj (h : Crown v rank hn n ix ix' top hd row j) (hS : Shape v rank hn ix top hd row)
    {k : Nat} (hl : l ≤ top + 1) (hk : k ≤ top + 1)
    (hi : i ∈ Function.update row (top + 1) [ix.fresh, j] l)
    (hi' : i ∈ Function.update row (top + 1) [ix.fresh, j] k) : l = k := by
  have old : ∀ {m}, m ≤ top → i ∈ row m → ¬ (i = ix.fresh ∨ i = j) := fun hm hi he =>
    he.elim (hS.bound _ hm _ hi).ne fun he => h.new _ hm (he ▸ hi)
  rcases (mem_iff hl).1 hi with ⟨h1, hi⟩ | ⟨h1, hi⟩ <;>
    rcases (mem_iff hk).1 hi' with ⟨h2, hi'⟩ | ⟨h2, hi'⟩
  · exact hS.disj l h1 k h2 i hi hi'
  · exact absurd hi' (old h1 hi)
  · exact absurd hi (old h2 hi')
  · rw [h1, h2]

/-- The layout with the new level. -/
theorem shape (h : Crown v rank hn n ix ix' top hd row j) (hS : Shape v rank hn ix top hd row)
    (hbot : rank hn = ⊥) (hrank : rank n = v.key n) :
    Shape v rank hn ix' (top + 1) (Function.update hd (top + 1) ix.fresh)
      (Function.update row (top + 1) [ix.fresh, j]) where
  bottom := by rw [h.headBottom, hd_le (Nat.zero_le _), hS.bottom]
  top_eq := by rw [h.headTop, Function.update_self]
  row_eq l hl := by
    rcases Nat.of_le_succ hl with hl | rfl
    · rw [row_le hl, hd_le hl]
      exact hS.row_eq l hl
    · exact ⟨[j], by simp⟩
  path l hl := h.path hS hl
  sorted l hl := h.sorted hS hbot hrank hl
  key l hl i hi hne := by
    rcases (mem_iff hl).1 hi with ⟨hl, hi⟩ | ⟨rfl, rfl | rfl⟩
    · rw [hd_le hl] at hne
      rw [h.node_eq hS hl hi]
      exact hS.key l hl i hi hne
    · exact absurd (Function.update_self (top + 1) ix.fresh hd).symm hne
    · rw [h.node, hrank]
  hd_node l hl := by
    rcases Nat.of_le_succ hl with hl | rfl
    · rw [hd_le hl, h.node_eq hS hl (hS.hd_mem hl), hS.hd_node l hl]
    · rw [Function.update_self, h.head]
  hd_level l hl := by
    rcases Nat.of_le_succ hl with hl | rfl
    · rw [hd_le hl, h.nodes_eq hS hl (hS.hd_mem hl)]
      exact hS.hd_level l hl
    · rw [Function.update_self, h.head]
  hd_up l hl := h.hd_up hS hl
  hd_down l hl := by
    rcases Nat.of_le_succ hl with hl | he
    · rw [hd_le hl, hd_le (Nat.le_of_succ_le hl), h.down_eq hS hl (hS.hd_mem hl), hS.hd_down l hl]
    · obtain rfl := Nat.succ_injective he
      rw [Function.update_self, hd_le le_rfl, h.head]
  down_zero i hi := by
    rw [row_le (Nat.zero_le _)] at hi
    rw [h.down_eq hS (Nat.zero_le _) hi, hS.down_zero i hi]
  down_succ l hl i hi := h.down_succ hS hl hi
  bound l hl i hi := by
    rw [h.fresh]
    rcases (mem_iff hl).1 hi with ⟨hl, hi⟩ | ⟨-, rfl | rfl⟩
    · exact Nat.lt_succ_of_lt (hS.bound l hl i hi)
    · exact Nat.lt_succ_self _
    · exact Nat.lt_succ_of_lt h.lt_fresh
  disj l hl k hk i hi hi' := h.disj hS hl hk hi hi'

theorem bottom (h : Crown v rank hn n ix ix' top hd row j) (hS : Shape v rank hn ix top hd row)
    (hA : Bottom ix hd row A) : Bottom ix' (Function.update hd (top + 1) ix.fresh)
      (Function.update row (top + 1) [ix.fresh, j]) A := by
  intro x
  rw [hA x, row_le (Nat.zero_le _), hd_le (Nat.zero_le _)]
  refine exists_congr fun i => and_congr_right fun hi => ?_
  rw [h.node_eq hS (Nat.zero_le _) hi]

end Crown

/-- `add` grows the index by a level above the top one. -/
theorem Linking.grow (hL : Linking v rank hn n f count points A ix top hd row (top + 1))
    (hcount : top + 1 < count) {nodes : IdxId → IndexNode}
    (hhd : nodes (hd top) = { ix.nodes (hd top) with up := some ix.fresh })
    (hnew : nodes ix.fresh = { node := hn, down := some (hd top), right := some (f + (top + 1)),
                               level := top + 1 })
    (hold : ∀ i < ix.fresh, i ≠ hd top → nodes i = ix.nodes i) :
    Crown v rank hn n ix ⟨nodes, ix.fresh + 1, ix.fresh, ix.headBottom⟩ top hd row
      (f + (top + 1)) := by
  have hid : f + (top + 1) < ix.fresh := (Nat.add_lt_add_left hcount f).trans_le hL.fresh
  have hid' : f + (top + 1) ≠ hd top :=
    ((hL.old top le_rfl).trans_le (Nat.le_add_right f (top + 1))).ne'
  have hnid := hold _ hid hid'
  have hbelow := hL.below top (Nat.lt_succ_self top) le_rfl
  have hne : f + top ≠ hd top := ((hL.old top le_rfl).trans_le (Nat.le_add_right f top)).ne'
  refine ⟨rfl, rfl, rfl, hhd, hnew, hold, hid, hL.new (top + 1) le_rfl hcount, ?_, ?_,
    f + top, hbelow, ?_, ?_⟩
  · simp only [hnid, hL.node _ hcount]
  · simp only [right, hnid, hL.right_none _ le_rfl hcount]
  · simp only [hnid, hL.down_succ top hcount]
  · simp only [hold _ (hL.shape.bound top le_rfl _ hbelow) hne, hL.node top (Nat.lt_of_succ_lt hcount)]

/-- The state of `add` once it has searched the index and created its index nodes. -/
theorem Searched.linking {ix' : Index} {row' : Nat → List IdxId}
    (hS : Searched v rank hn (v.key n) ix ix' top hd row row' points) (level : Nat) (hA : Bottom ix' hd row' A)
    (hrank : rank n = v.key n) (hbot : rank hn = ⊥)
    (hnA : ∀ a ∈ A, v.live a = true → rank a ≠ rank n) :
    Linking v rank hn n ix'.fresh (level + 1) points A
      (createNewIndexNodes n (level + 1) none ix').1 top hd row' 0 := by
  obtain ⟨-, h2, h3, h4, h5, h6, h7⟩ := createNewIndexNodes_spec n (level + 1) none ix'
  set ix₂ := (createNewIndexNodes n (level + 1) none ix').1 with hix₂
  have hsh := hS.shape
  have hnodes : ∀ {l i}, l ≤ top → i ∈ row' l → ix₂.nodes i = ix'.nodes i :=
    fun hl hi => h5 _ (hsh.bound _ hl _ hi)
  -- a live index node with the key would stand for a live list node with it
  have habs : ∀ l ≤ top, ∀ i ∈ row' l, rank (ix'.nodes i).node ≠ v.key n := by
    intro l hl i hi he
    by_cases hlive : ix'.live v i = true
    · by_cases hne : i = hd l
      · rw [hne, hsh.hd_node l hl, hbot] at he
        exact WithBot.bot_ne_coe he
      · exact hnA _ (hsh.node_mem hA l hl i hi hne) hlive (he.trans hrank.symm)
    · exact hS.clean l hl i hi (by simpa using hlive) he
  refine ⟨hsh.congr h5 (by rw [h2]; omega) h3 h4, ?_, fun l _ hl => ?_, fun l _ hl i hi => ?_,
    fun j _ hj l hl hmem => ?_, fun l hl => hsh.bound l hl _ (hsh.hd_mem hl), by rw [h2],
    fun j hj => ?_, fun j _ hj => ?_, ?_, fun j hj => ?_, fun j hj => absurd hj (Nat.not_lt_zero j)⟩
  · rw [if_pos rfl]
    intro x
    rw [hA x]
    constructor
    · rintro ⟨i, hi, h1, h2⟩
      exact ⟨i, hi, h1, by rw [hnodes (Nat.zero_le _) hi, h2]⟩
    · rintro ⟨i, hi, h1, h2⟩
      exact ⟨i, hi, h1, by rw [← hnodes (Nat.zero_le _) hi, h2]⟩
  · obtain ⟨pt, hpt, hP⟩ := hS.point l hl
    refine ⟨pt, hpt, hP.mem, ?_, ?_, ?_, fun r hr => ?_⟩
    · rw [Index.live, hnodes hl hP.mem]
      exact hP.live
    · rw [hnodes hl hP.mem]
      exact hP.below
    · rw [Index.right, hnodes hl hP.mem]
      exact hP.right
    · have hrow : r ∈ row' l := (hsh.path l hl).next_mem hP.mem (hP.right.trans hr)
      rw [Index.live, hnodes hl hrow]
      exact hP.next_live r hr
  · rw [hnodes hl hi]
    exact habs l hl i hi
  · exact absurd (hsh.bound l hl _ hmem) (Nat.le_add_right _ _).not_gt
  · rcases j with _ | j
    · rw [Nat.add_zero, h6 (by omega)]
    · rw [h7 j hj]
  · rcases j with _ | j
    · rw [Nat.add_zero, h6 (by omega)]
    · rw [h7 j hj]
  · rw [h6 (by omega)]
  · rw [h7 j hj]

/-- The loop over the levels from where the search of `add` has left the index. -/
theorem Searched.insertLevels {ix' : Index} {row' : Nat → List IdxId}
    (hS : Searched v rank hn (v.key n) ix ix' top hd row row' points) (hA : Bottom ix' hd row' A)
    (hrank : rank n = v.key n) (hbot : rank hn = ⊥)
    (hnA : ∀ a ∈ A, v.live a = true → rank a ≠ rank n) (fuel level k : Nat) {ix₂ : Index}
    (hix : (createNewIndexNodes n (level + 1) none ix').1 = ix₂) :
    (∀ x, insertLevels v fuel ((List.range (level + 1)).map (ix'.fresh + ·)) points level k ix₂
        (some ix₂.headBottom) 0 = some x →
      ∃ ix₃ row₃, x = (ix₃, some (min (level + 1) (top + 1))) ∧ Linking v rank hn n ix'.fresh
        (level + 1) points A ix₃ top hd row₃ (min (level + 1) (top + 1)))
    ∧ (0 < fuel → top + 1 < k → (insertLevels v fuel
        ((List.range (level + 1)).map (ix'.fresh + ·)) points level k ix₂
        (some ix₂.headBottom) 0).isSome) := by
  have hL := hS.linking level hA hrank hbot hnA
  rw [hix] at hL
  rw [show ix₂.headBottom = hd 0 from hL.shape.bottom]
  exact insertLevels_spec hrank fuel hS.length k ix₂ row' 0 hL (Nat.zero_le _) (Nat.zero_le _)

/-- `add` puts a new head, with the node behind it, on top of the levels. -/
theorem Linking.raise {level : Nat}
    (hL : Linking v rank hn n f (level + 1) points A ix top hd row (top + 1))
    (hrank : rank n = v.key n) (hbot : rank hn = ⊥) (hlt : top < level) {ix' : Index}
    (h : (casHead { ix.setNode ix.fresh
        { node := (ix.nodes ix.headTop).node, down := some ix.headTop,
          right := some (f + (top + 1)), level := top + 1 } with fresh := ix.fresh + 1 }
        ix.headTop ix.fresh true).map Prod.fst = some ix') :
    ∃ hd' row', Shape v rank hn ix' (top + 1) hd' row' ∧ Bottom ix' hd' row' (insert n A) := by
  have hne : ix.fresh ≠ ix.headTop := by
    rw [hL.shape.top_eq]
    exact (hL.shape.bound top le_rfl _ (hL.shape.hd_mem le_rfl)).ne'
  simp only [casHead, setNode, if_true, Function.update_self, and_self, setUp,
    Option.map_some, Option.some.injEq] at h
  rw [← h]
  suffices hcrown : Crown v rank hn n ix _ top hd row (f + (top + 1)) by
    have hb := hL.bottom
    rw [if_neg (Nat.succ_ne_zero top)] at hb
    exact ⟨_, _, hcrown.shape hL.shape hbot hrank, hcrown.bottom hL.shape hb⟩
  refine hL.grow (Nat.succ_lt_succ hlt) ?_ ?_ fun i hi hne' => ?_
  · rw [← hL.shape.top_eq]
    simp [hne.symm]
  · rw [Function.update_of_ne hne, Function.update_self, ← hL.shape.top_eq]
    simp only [IndexNode.mk.injEq, and_self, and_true]
    rw [hL.shape.top_eq, hL.shape.hd_node top le_rfl]
  · rw [hL.shape.top_eq, Function.update_of_ne hne', Function.update_of_ne hi.ne]

/-- `add` puts its node on the bottom level, and may put one level on top. -/
theorem Shape.add_result (hSh : Shape v rank hn ix top hd row) (hA : Bottom ix hd row A)
    (hbot : rank hn = ⊥) (hhn : v.live hn = true) (hrank : rank n = v.key n)
    (hnA : ∀ a ∈ A, v.live a = true → rank a ≠ rank n) {drawn fuel : Nat} {ix' : Index}
    (hadd : Index.add v fuel drawn n ix = some ix') : ∃ top' hd' row' A',
      Shape v rank hn ix' top' hd' row' ∧ top' ≤ top + 1 ∧ Bottom ix' hd' row' (insert n A') ∧
        Drops v A A' := by
  rcases hf : findInsertionPoints v (v.key n) fuel ix with _ | ⟨ix₁, points⟩
  · simp [Index.add, hf] at hadd
  obtain ⟨row₁, hS⟩ := (findInsertionPoints_spec _ hSh hbot hhn fuel).1 ix₁ points hf
  obtain ⟨A', hA', hdrop⟩ := hS.bottom hA
  simp only [Index.add, hf] at hadd
  set level := min drawn (points.length + 1)
  obtain ⟨h1, -⟩ := createNewIndexNodes_spec n (level + 1) none ix₁
  rcases hc : createNewIndexNodes n (level + 1) none ix₁ with ⟨ix₂, idxs⟩
  rw [hc] at h1
  obtain rfl : idxs = (List.range (level + 1)).map (ix₁.fresh + ·) := h1
  obtain ⟨hspec, -⟩ := hS.insertLevels hA' hrank hbot (fun a ha => hnA a (hdrop.sub ha)) fuel level
    fuel (by rw [hc])
  simp only [hc] at hadd
  rcases hi : Index.insertLevels v fuel ((List.range (level + 1)).map (ix₁.fresh + ·)) points level
    fuel ix₂ (some ix₂.headBottom) 0 with _ | x
  · simp [hi] at hadd
  obtain ⟨ix₃, row₃, rfl, hL⟩ := hspec x hi
  simp only [hi] at hadd
  by_cases hall : min (level + 1) (top + 1) = level + 1
  · rw [if_pos hall] at hadd
    obtain rfl := Option.some.inj hadd
    have hb := hL.bottom
    rw [if_neg (by omega)] at hb
    exact ⟨top, hd, row₃, A', hL.shape, Nat.le_succ _, hb, hdrop⟩
  · -- the node has a level above the top one
    have hmin : min (level + 1) (top + 1) = top + 1 := by omega
    have hlt : top < level := by omega
    have htop : (ix₃.nodes ix₃.headTop).level = top := by
      rw [hL.shape.top_eq, hL.shape.hd_level top le_rfl]
    have hidx : ((List.range (level + 1)).map (ix₁.fresh + ·))[top + 1]?
        = some (ix₁.fresh + (top + 1)) := by
      simp [hlt]
    rw [if_neg hall, htop, if_neg (by omega), if_pos hlt] at hadd
    rw [hmin] at hL
    simp only [hidx] at hadd
    obtain ⟨hd', row', hSh', hb⟩ := hL.raise hrank hbot hlt hadd
    exact ⟨_, hd', row', A', hSh', le_rfl, hb, hdrop⟩

/-- `add` ends. -/
theorem Shape.add_ends (hSh : Shape v rank hn ix top hd row) (hA : Bottom ix hd row A)
    (hbot : rank hn = ⊥) (hhn : v.live hn = true) (hrank : rank n = v.key n)
    (hnA : ∀ a ∈ A, v.live a = true → rank a ≠ rank n) (drawn : Nat) {fuel : Nat}
    (hfuel : top + 2 + (ix.fresh + 1) ≤ fuel) : (Index.add v fuel drawn n ix).isSome := by
  have hlen : ∀ l ≤ top, (row l).length < fuel := fun l hl => by
    have := hSh.length_le hl
    omega
  obtain ⟨hpoints, hsome⟩ := findInsertionPoints_spec (v.key n) hSh hbot hhn fuel
  obtain ⟨⟨ix₁, points⟩, hf⟩ := Option.isSome_iff_exists.1 (hsome (by omega) hlen)
  obtain ⟨row₁, hS⟩ := hpoints ix₁ points hf
  obtain ⟨A', hA', hdrop⟩ := hS.bottom hA
  simp only [Index.add, hf]
  set level := min drawn (points.length + 1)
  obtain ⟨h1, -⟩ := createNewIndexNodes_spec n (level + 1) none ix₁
  rcases hc : createNewIndexNodes n (level + 1) none ix₁ with ⟨ix₂, idxs⟩
  rw [hc] at h1
  obtain rfl : idxs = (List.range (level + 1)).map (ix₁.fresh + ·) := h1
  obtain ⟨hspec, hterm⟩ := hS.insertLevels hA' hrank hbot (fun a ha => hnA a (hdrop.sub ha)) fuel
    level fuel (by rw [hc])
  obtain ⟨x, hx⟩ := Option.isSome_iff_exists.1 (hterm (by omega) (by omega))
  obtain ⟨ix₃, row₃, rfl, -⟩ := hspec x hx
  simp only [hx]
  split_ifs
  · rfl
  · rfl
  · simp [casHead, setNode]
  · rfl

theorem Shape.add (hSh : Shape v rank hn ix top hd row) (hA : Bottom ix hd row A)
    (hbot : rank hn = ⊥) (hhn : v.live hn = true) (hrank : rank n = v.key n)
    (hnA : ∀ a ∈ A, v.live a = true → rank a ≠ rank n) (drawn : Nat) :
    (∀ fuel ix', add v fuel drawn n ix = some ix' → ∃ top' hd' row' A',
      Shape v rank hn ix' top' hd' row' ∧ top' ≤ top + 1 ∧ Bottom ix' hd' row' (insert n A') ∧
        Drops v A A')
    ∧ ∃ N, ∀ fuel, N ≤ fuel → (add v fuel drawn n ix).isSome :=
  ⟨fun _ _ => hSh.add_result hA hbot hhn hrank hnA,
    _, fun _ => hSh.add_ends hA hbot hhn hrank hnA drawn⟩

theorem add_spec (h : Indexed v rank hn ix A) (hbot : rank hn = ⊥) (hhn : v.live hn = true)
    (hrank : rank n = v.key n) (hnA : ∀ a ∈ A, v.live a = true → rank a ≠ rank n) (drawn : Nat) :
    (∀ fuel ix', add v fuel drawn n ix = some ix' →
      ∃ A', Indexed v rank hn ix' (insert n A') ∧ Drops v A A')
    ∧ ∃ N, ∀ fuel, N ≤ fuel → (add v fuel drawn n ix).isSome := by
  obtain ⟨top, hd, row, hSh, hA⟩ := h
  obtain ⟨hspec, hN⟩ := hSh.add hA hbot hhn hrank hnA drawn
  refine ⟨fun fuel ix' hadd => ?_, hN⟩
  obtain ⟨top', hd', row', A', hSh', -, hA', hdrop⟩ := hspec fuel ix' hadd
  exact ⟨A', ⟨top', hd', row', hSh', hA'⟩, hdrop⟩

end Add

section Remove

variable {ix : Index} {top : Nat} {hd : Nat → IdxId} {row : Nat → List IdxId} {A : Finset NodeId}
  {n : NodeId}

/-- The layout without its top level. -/
theorem Shape.reduce (h : Shape v rank hn ix (top + 1) hd row) :
    Shape v rank hn { ix.setUp (hd top) none with headTop := hd top } top hd row := by
  set ix' : Index := { ix.setUp (hd top) none with headTop := hd top } with hix'
  have hup : (ix'.nodes (hd top)).up = none := by simp [hix', setUp, setNode]
  have heq : ∀ i, ix'.nodes i = { ix.nodes i with up := (ix'.nodes i).up } := by
    intro i
    by_cases he : i = hd top
    · subst he
      simp [hix', setUp, setNode]
    · simp [hix', setUp, setNode, he]
  have hup' : ∀ i ≠ hd top, (ix'.nodes i).up = (ix.nodes i).up := by
    intro i he
    simp [hix', setUp, setNode, he]
  have hnode : ∀ i, (ix'.nodes i).node = (ix.nodes i).node := fun i => by rw [heq]
  have hdown : ∀ i, (ix'.nodes i).down = (ix.nodes i).down := fun i => by rw [heq]
  have hright : ∀ i, ix'.right i = ix.right i := fun i => by rw [right, heq]; rfl
  have hlevel : ∀ i, (ix'.nodes i).level = (ix.nodes i).level := fun i => by rw [heq]
  refine ⟨h.bottom, rfl, fun l hl => h.row_eq l (by omega), fun l hl => ?_, fun l hl => ?_,
    fun l hl i hi hne => ?_, fun l hl => ?_, fun l hl => ?_, fun l hl => ?_, fun l hl => ?_,
    fun i hi => ?_, fun l hl i hi => ?_, fun l hl i hi => h.bound l (by omega) i hi,
    fun l hl l' hl' => h.disj l (by omega) l' (by omega)⟩
  · exact (h.path l (by omega)).congr fun x _ => hright x
  · simp only [hnode]
    exact h.sorted l (by omega)
  · simp only [hnode]
    exact h.key l (by omega) i hi hne
  · rw [hnode, h.hd_node l (by omega)]
  · rw [hlevel, h.hd_level l (by omega)]
  · by_cases he : l = top
    · subst he
      rw [if_pos rfl, hup]
    · have hne : hd l ≠ hd top := fun h' => he (h.disj l (by omega) top (by omega) (hd l)
        (h.hd_mem (by omega)) (by rw [h']; exact h.hd_mem (by omega)))
      rw [if_neg he, hup' _ hne, h.hd_up l (by omega), if_neg (by omega)]
  · rw [hdown, h.hd_down l (by omega)]
  · rw [hdown, h.down_zero i hi]
  · obtain ⟨j, hj, h1, h2⟩ := h.down_succ l (by omega) i hi
    exact ⟨j, hj, by rw [hdown, h1], by rw [hnode, hnode, h2]⟩

theorem tryReduceLevel_spec (h : Indexed v rank hn ix A) :
    ∃ ix', ix.tryReduceLevel = some ix' ∧ Indexed v rank hn ix' A := by
  obtain ⟨top, hd, row, hSh, hA⟩ := h
  have htop := hSh.hd_level top le_rfl
  rw [← hSh.top_eq] at htop
  simp only [tryReduceLevel, htop]
  by_cases h3 : top < 3
  · exact ⟨ix, by rw [if_pos h3], top, hd, row, hSh, hA⟩
  obtain ⟨top, rfl⟩ : ∃ t, top = t + 1 := ⟨top - 1, by omega⟩
  obtain ⟨top, rfl⟩ : ∃ t, top = t + 1 := ⟨top - 1, by omega⟩
  rw [if_neg h3, hSh.top_eq, hSh.hd_down (top + 1) (by omega)]
  simp only [hSh.hd_down top (by omega)]
  split_ifs with hr
  · have hcas : ix.casHead (hd (top + 1 + 1)) (hd (top + 1)) false =
        some ({ ix.setUp (hd (top + 1)) none with headTop := hd (top + 1) }, true) := by
      simp [casHead, hSh.top_eq]
    have hright : ((ix.setUp (hd (top + 1)) none).nodes (hd (top + 1 + 1))).right = none := by
      have hne : hd (top + 1 + 1) ≠ hd (top + 1) := fun h' => by
        have := hSh.disj (top + 1 + 1) le_rfl (top + 1) (by omega) (hd (top + 1 + 1))
          (hSh.hd_mem le_rfl) (by rw [h']; exact hSh.hd_mem (by omega))
        omega
      simp [setUp, setNode, hne, hr.2.2]
    simp only [hcas, hright, if_true]
    refine ⟨_, rfl, top + 1, hd, row, hSh.reduce, fun x => ?_⟩
    have hnode : ∀ i, ((ix.setUp (hd (top + 1)) none).nodes i).node = (ix.nodes i).node := by
      intro i
      by_cases he : i = hd (top + 1)
      · subst he
        simp [setUp, setNode]
      · simp [setUp, setNode, he]
    simp only [hnode]
    exact hA x
  · exact ⟨ix, rfl, top + 1 + 1, hd, row, hSh, hA⟩

/-- After a search every dead node from the key on comes after a live one from the key on. -/
def Passed (v : NodeView K) (rank : NodeId → WithBot K) (key : K) (A : Finset NodeId) : Prop :=
  ∀ n ∈ A, v.live n = false → key ≤ rank n →
    ∃ r ∈ A, v.live r = true ∧ key ≤ rank r ∧ rank r < rank n

theorem Searched.passed {ix' : Index} {row' : Nat → List IdxId} {points : List (IdxId × Option IdxId)}
    {key : K} (hS : Searched v rank hn key ix ix' top hd row row' points) (hbot : rank hn = ⊥)
    (hA : Bottom ix' hd row' A) : Passed v rank key A := by
  intro n hn' hdead hle
  obtain ⟨i, hi, -, rfl⟩ := (hA n).1 hn'
  obtain ⟨pt, -, hP⟩ := hS.point 0 (Nat.zero_le _)
  obtain ⟨r, hr, hri⟩ := hS.shape.right_le (Nat.zero_le _) hP.mem hi (hP.below.trans_le hle)
  obtain ⟨hlive, hkey⟩ := hP.next_live r (hP.right.symm.trans hr)
  have hrow : r ∈ row' 0 := (hS.shape.path 0 (Nat.zero_le _)).next_mem hP.mem hr
  have hne : rank (ix'.nodes r).node ≠ rank (ix'.nodes i).node := fun he => by
    rw [hS.shape.inj (Nat.zero_le _) hrow hi he] at hlive
    simp only [Index.live, hdead] at hlive
    exact Bool.false_ne_true hlive
  refine ⟨_, (hA _).2 ⟨r, hrow, ?_, rfl⟩, hlive, hkey, hri.lt_of_ne hne⟩
  rintro rfl
  rw [hS.shape.hd_node 0 (Nat.zero_le _), hbot] at hkey
  exact absurd hkey (by simp)

/-- A search for a key takes the dead nodes with the key out, up to the next live one. -/
theorem findPredecessor_spec (key : K) (h : Indexed v rank hn ix A) (hbot : rank hn = ⊥)
    (hhn : v.live hn = true) :
    (∀ fuel ix' p, findPredecessor v key fuel ix = some (ix', p) →
      ∃ A', Indexed v rank hn ix' A' ∧ Drops v A A' ∧ Passed v rank key A')
    ∧ ∃ N, ∀ fuel, N ≤ fuel → (findPredecessor v key fuel ix).isSome := by
  obtain ⟨top, hd, row, hSh, hA⟩ := h
  have main : ∀ {fuel ix₁ points}, findInsertionPoints v key fuel ix = some (ix₁, points) →
      ∃ prev next rest A', points = (prev, next) :: rest ∧ Indexed v rank hn ix₁ A' ∧ Drops v A A' ∧
        Passed v rank key A' := by
    intro fuel ix₁ points hf
    obtain ⟨row', hS⟩ := (findInsertionPoints_spec _ hSh hbot hhn fuel).1 ix₁ points hf
    obtain ⟨A', hA', hdrop⟩ := hS.bottom hA
    have hlen := hS.length
    rcases points with _ | ⟨⟨prev, next⟩, rest⟩
    · simp at hlen
    exact ⟨prev, next, rest, A', rfl, ⟨top, hd, row', hS.shape, hA'⟩, hdrop, hS.passed hbot hA'⟩
  refine ⟨fun fuel ix' p hr => ?_, top + 1 + (ix.fresh + 1), fun fuel hf => ?_⟩
  · rcases hf : findInsertionPoints v key fuel ix with _ | ⟨ix₁, points⟩
    · simp [findPredecessor, hf] at hr
    obtain ⟨prev, next, rest, A', rfl, hI⟩ := main hf
    simp only [findPredecessor, hf, Option.some.injEq, Prod.mk.injEq] at hr
    obtain ⟨rfl, -⟩ := hr
    exact ⟨A', hI⟩
  · have hlen : ∀ l ≤ top, (row l).length < fuel := fun l hl => by
      have := hSh.length_le hl
      omega
    have hsome := (findInsertionPoints_spec key hSh hbot hhn fuel).2 (by omega) hlen
    obtain ⟨⟨ix₁, points⟩, hf'⟩ := Option.isSome_iff_exists.1 hsome
    obtain ⟨prev, next, rest, A', rfl, -⟩ := main hf'
    simp [findPredecessor, hf']

/-- The end of `remove`: the top level may go. -/
theorem Indexed.reduced (h : Indexed v rank hn ix A) : ∃ ix',
    (if (ix.nodes ix.headTop).right = none then ix.tryReduceLevel else some ix) = some ix' ∧
      Indexed v rank hn ix' A := by
  split_ifs
  · exact tryReduceLevel_spec h
  · exact ⟨ix, rfl, h⟩

theorem remove_spec (h : Indexed v rank hn ix A) (hbot : rank hn = ⊥) (hhn : v.live hn = true)
    (hrank : rank n = v.key n) (hdead : v.live n = false) :
    (∀ fuel ix', remove v fuel n ix = some ix' →
      ∃ A', Indexed v rank hn ix' A' ∧ Drops v A A' ∧ n ∉ A')
    ∧ ∃ N, ∀ fuel, N ≤ fuel → (remove v fuel n ix).isSome := by
  obtain ⟨hspec, N, hN⟩ := findPredecessor_spec (v.key n) h hbot hhn
  refine ⟨fun fuel ix' hr => ?_, N, fun fuel hf => ?_⟩
  · rcases hf : findPredecessor v (v.key n) fuel ix with _ | ⟨ix₁, p⟩
    · simp [remove, hf] at hr
    obtain ⟨A', hI, hdrop, hclean⟩ := hspec fuel ix₁ p hf
    obtain ⟨ix₂, hix₂, hI₂⟩ := hI.reduced
    simp only [remove, hf, hix₂, Option.some.injEq] at hr
    refine ⟨A', hr ▸ hI₂, hdrop, fun hnA => ?_⟩
    obtain ⟨r, -, -, hle, hlt⟩ := hclean n hnA hdead hrank.ge
    exact absurd hle (not_le.2 (hrank ▸ hlt))
  · obtain ⟨⟨ix₁, p⟩, hf'⟩ := Option.isSome_iff_exists.1 (hN fuel hf)
    obtain ⟨A', hI, -, -⟩ := hspec fuel ix₁ p hf'
    obtain ⟨ix₂, hix₂, -⟩ := hI.reduced
    simp [remove, hf', hix₂]

/-- The bottom level, read from its head on. -/
theorem Indexed.bottomLevel_spec (h : Indexed v rank hn ix A) :
    (∀ n, n ∈ ix.bottomLevel ↔ n ∈ A) ∧ ix.bottomLevel.Pairwise fun a b => rank a < rank b := by
  obtain ⟨top, hd, row, hSh, hA⟩ := h
  obtain ⟨rest, hrow⟩ := hSh.row_eq 0 (Nat.zero_le _)
  have hpath := hSh.path 0 (Nat.zero_le _)
  have hsort := hSh.sorted 0 (Nat.zero_le _)
  have hnd := hSh.nodup (Nat.zero_le _)
  have hlen := hSh.length_le (Nat.zero_le _)
  rw [hrow] at hpath hsort hnd hlen
  have hwalk : ix.bottomLevel = rest.map fun i => (ix.nodes i).node := by
    have hnext : (ix.nodes ix.headBottom).right = rest.head? := by
      rw [hSh.bottom]
      exact hpath.1
    rw [Index.bottomLevel, hnext]
    have hle : rest.length ≤ ix.fresh := by
      simp only [List.length_cons] at hlen
      omega
    have hw : walk (fun i => (ix.nodes i).right) ix.fresh rest.head? = rest :=
      Path.walk_eq hpath.2 hle
    rw [hw]
  rw [hwalk]
  refine ⟨fun n => ?_, ?_⟩
  · rw [hA n, List.mem_map, hrow]
    constructor
    · rintro ⟨i, hi, rfl⟩
      exact ⟨i, List.mem_cons_of_mem _ hi, fun he => (List.nodup_cons.1 hnd).1 (he ▸ hi), rfl⟩
    · rintro ⟨i, hi, hne, rfl⟩
      rcases List.mem_cons.1 hi with he | hi
      · exact absurd he hne
      · exact ⟨i, hi, rfl⟩
  · rw [List.pairwise_map]
    exact (List.pairwise_cons.1 hsort).2

/-- A list's index as constructed. -/
theorem indexed_new : Indexed v rank hn (Index.new hn) ∅ := by
  refine ⟨0, fun _ => 0, fun _ => [0], ⟨rfl, rfl, ?_, ?_, ?_, ?_, ?_, ?_, ?_, ?_, ?_, ?_, ?_, ?_⟩,
    fun n => ?_⟩
  · exact fun l _ => ⟨[], rfl⟩
  · exact fun l _ => ⟨rfl, trivial⟩
  · exact fun l _ => List.pairwise_singleton _ _
  · intro l _ i hi hne
    exact absurd (by simpa using hi) hne
  · exact fun l _ => rfl
  · intro l hl
    simp only [Nat.le_zero.1 hl]
    rfl
  · intro l hl
    rw [if_pos (Nat.le_zero.1 hl)]
    rfl
  · exact fun l hl => absurd hl (Nat.not_lt_zero l)
  · exact fun i _ => rfl
  · exact fun l hl => absurd hl (Nat.not_lt_zero l)
  · intro l _ i hi
    rw [List.mem_singleton.1 hi]
    exact Nat.zero_lt_one
  · intro l hl l' hl' _ _ _
    omega
  · simp

end Remove

end Index

end TxList
