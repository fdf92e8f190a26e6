import Mathlib.Data.Finset.Max
import Mathlib.Data.Finset.Lattice.Fold
import Mathlib.Order.CompletePartialOrder
import Mathlib.Order.WithBot
import TxList.Lib.Path

/-!
# Sorted chains by their sets

A chain of nodes from a head `h` by `next`, strictly increasing in `rank`, is given by the set `S`
of its nodes: `next` leads from each node, and from `h`, to the node of `S` next above it
(`Threads`). Inserting and unlinking one node keep this.

A *patch* replaces nodes `D` of `S` by new nodes `F`, and writes only to a set `W` of nodes that
holds every node of `D` and every node that stands right below a node of `D` or `F`. Two patches of
one chain that write to disjoint sets touch disjoint gaps, so each can be applied after the other
(`Patch.commute`).
-/

namespace Chain

variable {N R : Type*} [DecidableEq N] [LinearOrder R] (rank : N → R)

/-- `o` is what stands next above rank `r` in `S`. -/
def IsNext (S : Finset N) (r : R) : Option N → Prop
  | none => ∀ s ∈ S, rank s ≤ r
  | some m => m ∈ S ∧ r < rank m ∧ ∀ s ∈ S, r < rank s → rank m ≤ rank s

/-- `p` is the highest of `h` and the nodes of `S` below rank `r`. -/
def IsPrev (S : Finset N) (h : N) (r : R) (p : N) : Prop :=
  p ∈ insert h S ∧ rank p < r ∧ ∀ s ∈ S, rank s < r → rank s ≤ rank p

/-- The nodes are above `h` and no two have one rank. -/
structure Ranked (h : N) (S : Finset N) : Prop where
  bot : ∀ s ∈ S, rank h < rank s
  inj : ∀ s ∈ S, ∀ s' ∈ S, rank s = rank s' → s = s'

/-- `next` runs from `h` through `S` in the order of rank. -/
structure Threads (next : N → Option N) (h : N) (S : Finset N) : Prop extends Ranked rank h S where
  next : ∀ n ∈ insert h S, IsNext rank S (rank n) (next n)

variable {rank} {S : Finset N} {h : N}

namespace Ranked

omit [DecidableEq N] in
theorem not_mem (hS : Ranked rank h S) : h ∉ S := fun hh => (hS.bot h hh).ne rfl

theorem inj' (hS : Ranked rank h S) {p q : N} (hp : p ∈ insert h S) (hq : q ∈ insert h S)
    (hr : rank p = rank q) : p = q := by
  rcases Finset.mem_insert.1 hp with rfl | hp' <;> rcases Finset.mem_insert.1 hq with rfl | hq'
  · rfl
  · exact absurd hr (hS.bot q hq').ne
  · exact absurd hr.symm (hS.bot p hp').ne
  · exact hS.inj p hp' q hq' hr

omit [DecidableEq N] in
theorem subset (hS : Ranked rank h S) {T : Finset N} (hT : T ⊆ S) : Ranked rank h T :=
  ⟨fun s hs => hS.bot s (hT hs), fun s hs s' hs' => hS.inj s (hT hs) s' (hT hs')⟩

end Ranked

namespace IsPrev

variable {r : R} {p q : N}

theorem exists_of_bot (hr : rank h < r) : ∃ p, IsPrev rank S h r p := by
  obtain ⟨p, hp, hmax⟩ := Finset.exists_max_image ((insert h S).filter (rank · < r)) rank
    ⟨h, Finset.mem_filter.2 ⟨Finset.mem_insert_self _ _, hr⟩⟩
  obtain ⟨hp, hlt⟩ := Finset.mem_filter.1 hp
  exact ⟨p, hp, hlt, fun s hs hsr =>
    hmax s (Finset.mem_filter.2 ⟨Finset.mem_insert_of_mem hs, hsr⟩)⟩

theorem unique (hS : Ranked rank h S) (hp : IsPrev rank S h r p) (hq : IsPrev rank S h r q) :
    p = q := by
  refine hS.inj' hp.1 hq.1 (le_antisymm ?_ ?_)
  · rcases Finset.mem_insert.1 hp.1 with rfl | hp'
    · rcases Finset.mem_insert.1 hq.1 with rfl | hq'
      · exact le_rfl
      · exact (hS.bot q hq').le
    · exact hq.2.2 p hp' hp.2.1
  · rcases Finset.mem_insert.1 hq.1 with rfl | hq'
    · rcases Finset.mem_insert.1 hp.1 with rfl | hp'
      · exact le_rfl
      · exact (hS.bot p hp').le
    · exact hp.2.2 q hq' hq.2.1

/-- With nothing of `S` between `p` and `r`, `p` stands right below every rank up to `r`. -/
theorem of_le (hp : IsPrev rank S h r p) {r' : R} (h1 : rank p < r') (h2 : r' ≤ r) :
    IsPrev rank S h r' p :=
  ⟨hp.1, h1, fun s hs hsr => hp.2.2 s hs (hsr.trans_le h2)⟩

theorem congr_rank {rank' : N → R} (hr : ∀ n ∈ insert h S, rank' n = rank n)
    (hp : IsPrev rank S h r p) : IsPrev rank' S h r p := by
  refine ⟨hp.1, by rw [hr p hp.1]; exact hp.2.1, fun s hs hsr => ?_⟩
  rw [hr s (Finset.mem_insert_of_mem hs)] at hsr ⊢
  rw [hr p hp.1]
  exact hp.2.2 s hs hsr

end IsPrev

namespace IsNext

variable {r : R} {o o' : Option N}

omit [DecidableEq N] in
theorem unique (hS : Ranked rank h S) (ho : IsNext rank S r o) (ho' : IsNext rank S r o') :
    o = o' := by
  rcases o with _ | m <;> rcases o' with _ | m'
  · rfl
  · exact absurd ho'.2.1 (not_lt.2 (ho m' ho'.1))
  · exact absurd ho.2.1 (not_lt.2 (ho' m ho.1))
  · rw [hS.inj m ho.1 m' ho'.1 (le_antisymm (ho.2.2 m' ho'.1 ho'.2.1) (ho'.2.2 m ho.1 ho.2.1))]

/-- What stands next above `p` has `p` right below it. -/
theorem isPrev {p m : N} (hp : p ∈ insert h S) (hm : IsNext rank S (rank p) (some m)) :
    IsPrev rank S h (rank m) p :=
  ⟨hp, hm.2.1, fun _ hs hsm => not_lt.1 fun hps => (hm.2.2 _ hs hps).not_gt hsm⟩

end IsNext

namespace Threads

variable {next : N → Option N}

theorem next_eq (hT : Threads rank next h S) {n : N} (hn : n ∈ insert h S) {o : Option N}
    (ho : IsNext rank S (rank n) o) : next n = o :=
  (hT.next n hn).unique hT.toRanked ho

theorem next_mem (hT : Threads rank next h S) {n m : N} (hn : n ∈ insert h S)
    (hm : next n = some m) : m ∈ S := by
  have := hT.next n hn
  rw [hm] at this
  exact this.1

theorem lt_next (hT : Threads rank next h S) {n m : N} (hn : n ∈ insert h S)
    (hm : next n = some m) : rank n < rank m := by
  have := hT.next n hn
  rw [hm] at this
  exact this.2.1

/-- The node right below rank `r` leads to the node of rank `r`, if there is one. -/
theorem next_of_isPrev (hT : Threads rank next h S) {p s : N} (hs : s ∈ S)
    (hp : IsPrev rank S h (rank s) p) : next p = some s := by
  refine hT.next_eq hp.1 ⟨hs, hp.2.1, fun s' hs' hlt => ?_⟩
  by_contra hc
  exact (hp.2.2 s' hs' (not_le.1 hc)).not_gt hlt

/-- Past the node right below rank `r` comes nothing, or a node at or above `r`. -/
theorem le_of_next (hT : Threads rank next h S) {p m : N} {r : R} (hp : IsPrev rank S h r p)
    (hm : next p = some m) : r ≤ rank m := by
  by_contra hc
  exact (hp.2.2 m (hT.next_mem hp.1 hm) (not_le.1 hc)).not_gt (hT.lt_next hp.1 hm)

/-- A node below `r` whose successor, if any, is not below `r` is the one right below `r`. -/
theorem isPrev_of_next (hT : Threads rank next h S) {p : N} {r : R} (hp : p ∈ insert h S)
    (hpr : rank p < r) (hn : ∀ m, next p = some m → r ≤ rank m) : IsPrev rank S h r p := by
  refine ⟨hp, hpr, fun s hs hsr => ?_⟩
  by_contra hc
  have hN := hT.next p hp
  rcases hm : next p with _ | m
  · rw [hm] at hN
    exact hc (hN s hs)
  · rw [hm] at hN
    exact ((hn m hm).trans (hN.2.2 s hs (not_le.1 hc))).not_gt hsr

theorem congr (hT : Threads rank next h S) {rank' : N → R} {next' : N → Option N}
    (hr : ∀ n ∈ insert h S, rank' n = rank n) (hn : ∀ n ∈ insert h S, next' n = next n) :
    Threads rank' next' h S where
  bot s hs := by
    rw [hr s (Finset.mem_insert_of_mem hs), hr h (Finset.mem_insert_self _ _)]
    exact hT.bot s hs
  inj s hs s' hs' he := by
    rw [hr s (Finset.mem_insert_of_mem hs), hr s' (Finset.mem_insert_of_mem hs')] at he
    exact hT.inj s hs s' hs' he
  next n hmem := by
    have hN := hT.next n hmem
    rw [hr n hmem, hn n hmem]
    rcases hm : next n with _ | m
    · rw [hm] at hN
      intro s hs
      rw [hr s (Finset.mem_insert_of_mem hs)]
      exact hN s hs
    · rw [hm] at hN
      refine ⟨hN.1, ?_, fun s hs hlt => ?_⟩
      · rw [hr m (Finset.mem_insert_of_mem hN.1)]
        exact hN.2.1
      · rw [hr s (Finset.mem_insert_of_mem hs)] at hlt
        rw [hr m (Finset.mem_insert_of_mem hN.1), hr s (Finset.mem_insert_of_mem hs)]
        exact hN.2.2 s hs hlt

/-- The nodes past `n` in the order of rank are the path from `n`. -/
theorem exists_path_from (hT : Threads rank next h S) {n : N} (hn : n ∈ insert h S) :
    ∃ L, Path next (n :: L) ∧ (∀ x, x ∈ L ↔ x ∈ S ∧ rank n < rank x) ∧
      L.Pairwise (fun a b => rank a < rank b) := by
  induction hk : (S.filter (rank n < rank ·)).card using Nat.strong_induction_on generalizing n with
  | _ k ih =>
    have hN := hT.next n hn
    rcases hm : next n with _ | y
    · rw [hm] at hN
      refine ⟨[], ⟨hm, trivial⟩, fun x => ?_, List.Pairwise.nil⟩
      simp only [List.not_mem_nil, false_iff, not_and, not_lt]
      exact fun hx => hN x hx
    · rw [hm] at hN
      have hsub : S.filter (rank y < rank ·) ⊂ S.filter (rank n < rank ·) := by
        refine Finset.ssubset_iff_subset_ne.2 ⟨fun x hx => ?_, fun he => ?_⟩
        · obtain ⟨hx, hlt⟩ := Finset.mem_filter.1 hx
          exact Finset.mem_filter.2 ⟨hx, hN.2.1.trans hlt⟩
        · have hy : y ∈ S.filter (rank n < rank ·) := Finset.mem_filter.2 ⟨hN.1, hN.2.1⟩
          rw [← he] at hy
          exact lt_irrefl _ (Finset.mem_filter.1 hy).2
      obtain ⟨L, hp, hmem, hsort⟩ := ih _ (hk ▸ Finset.card_lt_card hsub)
        (Finset.mem_insert_of_mem hN.1) rfl
      refine ⟨y :: L, ⟨hm, hp⟩, fun x => ?_, List.pairwise_cons.2 ⟨fun x hx => ((hmem x).1 hx).2,
        hsort⟩⟩
      rw [List.mem_cons, hmem x]
      constructor
      · rintro (rfl | ⟨hx, hlt⟩)
        · exact ⟨hN.1, hN.2.1⟩
        · exact ⟨hx, hN.2.1.trans hlt⟩
      · rintro ⟨hx, hlt⟩
        rcases (hN.2.2 x hx hlt).lt_or_eq with hlt' | he
        · exact .inr ⟨hx, hlt'⟩
        · exact .inl (hT.inj x hx y hN.1 he.symm)

/-- The whole chain as a list. -/
theorem exists_path (hT : Threads rank next h S) : ∃ L, Path next (h :: L) ∧ (∀ x, x ∈ L ↔ x ∈ S) ∧
    L.Pairwise (fun a b => rank a < rank b) := by
  obtain ⟨L, hp, hmem, hsort⟩ := hT.exists_path_from (Finset.mem_insert_self h S)
  exact ⟨L, hp, fun x => (hmem x).trans ⟨fun hx => hx.1, fun hx => ⟨hx, hT.bot x hx⟩⟩, hsort⟩

/-- Linking a new node `x` in after the node right below it. -/
theorem insert_node (hT : Threads rank next h S) {p x : N} (hp : IsPrev rank S h (rank x) p)
    (hx : ∀ s ∈ S, rank s ≠ rank x) {next' : N → Option N} (hpx : next' p = some x)
    (hxn : next' x = next p) (hn : ∀ n ∈ insert h S, n ≠ p → next' n = next n) :
    Threads rank next' h (insert x S) := by
  have hhx : rank h < rank x := by
    rcases Finset.mem_insert.1 hp.1 with rfl | hp'
    · exact hp.2.1
    · exact (hT.bot p hp').trans hp.2.1
  have hinj : ∀ s ∈ S, ∀ s' ∈ insert x S, rank s = rank s' → s = s' := by
    intro s hs s' hs' he
    rcases Finset.mem_insert.1 hs' with rfl | hs'
    · exact absurd he (hx s hs)
    · exact hT.inj s hs s' hs' he
  refine ⟨⟨fun s hs => ?_, fun s hs s' hs' he => ?_⟩, fun n hmem => ?_⟩
  · rcases Finset.mem_insert.1 hs with rfl | hs
    · exact hhx
    · exact hT.bot s hs
  · rcases Finset.mem_insert.1 hs with rfl | hs1
    · rcases Finset.mem_insert.1 hs' with rfl | hs2
      · rfl
      · exact absurd he.symm (hx s' hs2)
    · exact hinj s hs1 s' hs' he
  by_cases hnx : n = x
  · subst hnx
    rw [hxn]
    have hN := hT.next p hp.1
    rcases hm : next p with _ | y
    · rw [hm] at hN
      intro s hs
      rcases Finset.mem_insert.1 hs with rfl | hs
      · exact le_rfl
      · exact (hN s hs).trans hp.2.1.le
    · have hy := hT.le_of_next hp hm
      have hyS := hT.next_mem hp.1 hm
      rw [hm] at hN
      refine ⟨Finset.mem_insert_of_mem hyS, lt_of_le_of_ne hy (hx y hyS).symm, fun s hs hlt => ?_⟩
      rcases Finset.mem_insert.1 hs with rfl | hs
      · exact absurd hlt (lt_irrefl _)
      · exact hN.2.2 s hs (hp.2.1.trans hlt)
  have hnS : n ∈ insert h S := by
    rcases Finset.mem_insert.1 hmem with rfl | hmem
    · exact Finset.mem_insert_self _ _
    · exact Finset.mem_insert_of_mem (Finset.mem_of_mem_insert_of_ne hmem hnx)
  by_cases hnp : n = p
  · subst hnp
    rw [hpx]
    refine ⟨Finset.mem_insert_self _ _, hp.2.1, fun s hs hlt => ?_⟩
    rcases Finset.mem_insert.1 hs with rfl | hs
    · exact le_rfl
    · by_contra hc
      exact (hp.2.2 s hs (not_le.1 hc)).not_gt hlt
  · rw [hn n hnS hnp]
    have hN := hT.next n hnS
    rcases hm : next n with _ | y
    · rw [hm] at hN
      intro s hs
      rcases Finset.mem_insert.1 hs with rfl | hs
      · -- `x` above the last node would make that node the one right below it
        by_contra hc
        refine hnp (hT.inj' hnS hp.1 (le_antisymm ?_ ?_))
        · rcases Finset.mem_insert.1 hnS with rfl | hnS
          · exact (Finset.mem_insert.1 hp.1).elim (fun e => (congrArg rank e).ge)
              fun hpS => (hT.bot p hpS).le
          · exact hp.2.2 n hnS (not_le.1 hc)
        · rcases Finset.mem_insert.1 hp.1 with rfl | hpS
          · exact (Finset.mem_insert.1 hnS).elim (fun e => (congrArg rank e).ge)
              fun hnS => (hT.bot n hnS).le
          · exact hN p hpS
      · exact hN s hs
    · rw [hm] at hN
      refine ⟨Finset.mem_insert_of_mem hN.1, hN.2.1, fun s hs hlt => ?_⟩
      rcases Finset.mem_insert.1 hs with rfl | hs
      · by_contra hc
        -- `n` and `p` both stand right below `x`
        refine hnp (IsPrev.unique hT.toRanked ?_ hp)
        exact (hN.isPrev hnS).of_le hlt (not_le.1 hc).le
      · exact hN.2.2 s hs hlt

/-- Unlinking the node `x` that `p` leads to. -/
theorem erase_node (hT : Threads rank next h S) {p x : N} (hp : p ∈ insert h S)
    (hpx : next p = some x) {next' : N → Option N} (hpn : next' p = next x)
    (hn : ∀ n ∈ insert h S, n ≠ p → n ≠ x → next' n = next n) :
    Threads rank next' h (S.erase x) := by
  have hxS := hT.next_mem hp hpx
  have hNp := hT.next p hp
  rw [hpx] at hNp
  refine ⟨hT.toRanked.subset (Finset.erase_subset _ _), fun n hmem => ?_⟩
  have hnS : n ∈ insert h S := Finset.insert_subset_insert _ (Finset.erase_subset _ _) hmem
  have hnx : n ≠ x := by
    rintro rfl
    rcases Finset.mem_insert.1 hmem with rfl | hmem
    · exact hT.not_mem hxS
    · exact (Finset.mem_erase.1 hmem).1 rfl
  by_cases hnp : n = p
  · subst hnp
    rw [hpn]
    have hNx := hT.next x (Finset.mem_insert_of_mem hxS)
    rcases hm : next x with _ | y
    · rw [hm] at hNx
      intro s hs
      obtain ⟨hsx, hs⟩ := Finset.mem_erase.1 hs
      by_contra hc
      exact hsx (hT.inj s hs x hxS (le_antisymm (hNx s hs) (hNp.2.2 s hs (not_le.1 hc))))
    · rw [hm] at hNx
      refine ⟨Finset.mem_erase.2 ⟨?_, hNx.1⟩, hNp.2.1.trans hNx.2.1, fun s hs hlt => ?_⟩
      · rintro rfl
        exact lt_irrefl _ hNx.2.1
      · obtain ⟨hsx, hs⟩ := Finset.mem_erase.1 hs
        refine hNx.2.2 s hs (lt_of_le_of_ne (hNp.2.2 s hs hlt) fun he => hsx ?_)
        exact hT.inj s hs x hxS he.symm
  · rw [hn n hnS hnp hnx]
    have hN := hT.next n hnS
    rcases hm : next n with _ | y
    · rw [hm] at hN
      exact fun s hs => hN s (Finset.mem_of_mem_erase hs)
    · rw [hm] at hN
      refine ⟨Finset.mem_erase.2 ⟨?_, hN.1⟩, hN.2.1,
        fun s hs => hN.2.2 s (Finset.mem_of_mem_erase hs)⟩
      rintro rfl
      exact hnp (IsPrev.unique hT.toRanked (hN.isPrev hnS) (hNp.isPrev hp))

end Threads

/-! ## Patches -/

/-- The set after nodes `D` left it and nodes `F` joined it. -/
def patched (S D F : Finset N) : Finset N := S \ D ∪ F

theorem mem_patched {D F : Finset N} {n : N} : n ∈ patched S D F ↔ n ∈ S ∧ n ∉ D ∨ n ∈ F := by
  simp [patched]

@[simp] theorem patched_empty (S : Finset N) : patched S ∅ ∅ = S := by
  simp [patched]

variable (rank) in
/-- Taking `D` out of `S` and putting `F` in writes only to nodes of `W`. -/
structure Patch (h : N) (S D F : Finset N) (W : Set N) : Prop where
  sub : D ⊆ S
  new : ∀ f ∈ F, f ∉ S
  above : ∀ f ∈ F, rank h < rank f
  del : ∀ d ∈ D, d ∈ W
  prev : ∀ x ∈ D ∪ F, ∀ p, IsPrev rank S h (rank x) p → p ∈ W

namespace Patch

variable {D F : Finset N} {W : Set N} {r : R} {p : N}

theorem prev_mem (hP : Patch rank h S D F W) {x : N} (hx : x ∈ D ∪ F)
    (hp : IsPrev rank S h (rank x) p) : p ∈ W := hP.prev x hx p hp

theorem empty (h : N) (S : Finset N) (W : Set N) : Patch rank h S ∅ ∅ W :=
  ⟨Finset.empty_subset S, fun f hf => by simp at hf, fun f hf => by simp at hf,
    fun d hd => by simp at hd, fun x hx => by simp at hx⟩

theorem mono (hP : Patch rank h S D F W) {F' : Finset N} {W' : Set N} (hF : F' ⊆ F) (hW : W ⊆ W') :
    Patch rank h S D F' W' :=
  ⟨hP.sub, fun f hf => hP.new f (hF hf), fun f hf => hP.above f (hF hf),
    fun d hd => hW (hP.del d hd), fun x hx p hp =>
      hW (hP.prev x (Finset.union_subset_union_right hF hx) p hp)⟩

theorem congr (hP : Patch rank h S D F W) {rank' : N → R}
    (hr : ∀ n, n ∈ insert h S ∨ n ∈ F → rank' n = rank n) : Patch rank' h S D F W where
  sub := hP.sub
  new := hP.new
  above f hf := by
    rw [hr f (.inr hf), hr h (.inl (Finset.mem_insert_self _ _))]
    exact hP.above f hf
  del := hP.del
  prev x hx p hp := by
    refine hP.prev x hx p ?_
    have hx' : rank' x = rank x := by
      rcases Finset.mem_union.1 hx with hx | hx
      · exact hr x (.inl (Finset.mem_insert_of_mem (hP.sub hx)))
      · exact hr x (.inr hx)
    rw [← hx']
    exact hp.congr_rank fun n hn => (hr n (.inl hn)).symm

/-- A gap whose lower end the patch does not write to keeps that end. -/
theorem isPrev (hP : Patch rank h S D F W) (hp : IsPrev rank S h r p) (hW : p ∉ W) :
    IsPrev rank (patched S D F) h r p := by
  refine ⟨?_, hp.2.1, fun s hs hsr => ?_⟩
  · rcases Finset.mem_insert.1 hp.1 with rfl | hpS
    · exact Finset.mem_insert_self _ _
    · exact Finset.mem_insert_of_mem (mem_patched.2 (.inl ⟨hpS, fun hd => hW (hP.del p hd)⟩))
  · rcases mem_patched.1 hs with ⟨hs, -⟩ | hs
    · exact hp.2.2 s hs hsr
    · by_contra hc
      exact hW (hP.prev_mem (Finset.mem_union_right _ hs) (hp.of_le (not_le.1 hc) hsr.le))

/-- Above such a gap stands what stood there before. -/
theorem mem_iff (hP : Patch rank h S D F W) (hp : IsPrev rank S h r p) (hW : p ∉ W) {s : N}
    (hs : rank s = r) : s ∈ patched S D F ↔ s ∈ S := by
  subst hs
  have hx : s ∉ D ∪ F := fun hx => hW (hP.prev_mem hx hp)
  rw [mem_patched]
  constructor
  · rintro (⟨hs, -⟩ | hs)
    · exact hs
    · exact absurd (Finset.mem_union_right _ hs) hx
  · exact fun hs => .inl ⟨hs, fun hd => hx (Finset.mem_union_left _ hd)⟩

/-- The original chain's node right below `r` is the patched chain's, or one the patch writes to. -/
theorem eq_or_mem (hP : Patch rank h S D F W) (hS : Ranked rank h S)
    (hS' : Ranked rank h (patched S D F)) {p' : N} (hp' : IsPrev rank (patched S D F) h r p')
    (hp : IsPrev rank S h r p) : p = p' ∨ p ∈ W := by
  by_cases hd : p ∈ D
  · exact .inr (hP.del p hd)
  have hpS : p ∈ insert h (patched S D F) := by
    rcases Finset.mem_insert.1 hp.1 with rfl | hpS
    · exact Finset.mem_insert_self _ _
    · exact Finset.mem_insert_of_mem (mem_patched.2 (.inl ⟨hpS, hd⟩))
  have hle : rank p ≤ rank p' := by
    rcases Finset.mem_insert.1 hpS with rfl | hpS
    · rcases Finset.mem_insert.1 hp'.1 with rfl | hpS'
      · exact le_rfl
      · exact (hS'.bot p' hpS').le
    · exact hp'.2.2 p hpS hp.2.1
  rcases hle.lt_or_eq with hlt | he
  · -- `p'` is new, since `p` is the highest old node below `r`
    rcases Finset.mem_insert.1 hp'.1 with rfl | hpS'
    · rcases Finset.mem_insert.1 hp.1 with rfl | hpS'
      · exact .inl rfl
      · exact absurd (hS.bot p hpS') hlt.not_gt
    · rcases mem_patched.1 hpS' with ⟨hpS', -⟩ | hpF
      · exact absurd (hp.2.2 p' hpS' hp'.2.1) hlt.not_ge
      · exact .inr (hP.prev_mem (Finset.mem_union_right _ hpF) (hp.of_le hlt hp'.2.1.le))
  · exact .inl (hS'.inj' hpS hp'.1 he)

section Commute

variable {D₁ F₁ D₂ F₂ : Finset N} {W₁ W₂ : Set N}

theorem patched_comm (hP₁ : Patch rank h S D₁ F₁ W₁) (hP₂ : Patch rank h S D₂ F₂ W₂) :
    patched (patched S D₁ F₁) D₂ F₂ = patched (patched S D₂ F₂) D₁ F₁ := by
  ext n
  have h1 : n ∈ F₁ → n ∉ D₂ := fun hf hd => hP₁.new n hf (hP₂.sub hd)
  have h2 : n ∈ F₂ → n ∉ D₁ := fun hf hd => hP₂.new n hf (hP₁.sub hd)
  simp only [mem_patched]
  tauto

/-- A node the second patch does not write to keeps its successor under the first. -/
theorem isNext (hP₁ : Patch rank h S D₁ F₁ W₁) (hP₂ : Patch rank h S D₂ F₂ W₂)
    (hS : Ranked rank h S) (hS₁ : Ranked rank h (patched S D₁ F₁)) (hW : Disjoint W₁ W₂) {n : N}
    (hn : n ∈ insert h (patched S D₁ F₁)) (hn₂ : n ∉ W₂) {o : Option N}
    (ho : IsNext rank (patched S D₁ F₁) (rank n) o) :
    IsNext rank (patched (patched S D₁ F₁) D₂ F₂) (rank n) o := by
  -- a node the second patch moves has its lower neighbour, `n`, written to
  have key : ∀ x ∈ D₂ ∪ F₂, rank n < rank x →
      ¬ ∀ s ∈ patched S D₁ F₁, rank n < rank s → rank x ≤ rank s := by
    intro x hx hlt hall
    have hbot : rank h < rank x := by
      rcases Finset.mem_union.1 hx with hx | hx
      · exact hS.bot x (hP₂.sub hx)
      · exact hP₂.above x hx
    obtain ⟨p, hp⟩ := IsPrev.exists_of_bot (S := S) hbot
    have hp₂ := hP₂.prev_mem hx hp
    have hp₁ := hP₁.isPrev hp (Set.disjoint_right.1 hW hp₂)
    have hnx : IsPrev rank (patched S D₁ F₁) h (rank x) n :=
      ⟨hn, hlt, fun s hs hsx => not_lt.1 fun hns => (hall s hs hns).not_gt hsx⟩
    rw [hp₁.unique hS₁ hnx] at hp₂
    exact hn₂ hp₂
  rcases o with _ | y
  · intro s hs
    rcases mem_patched.1 hs with ⟨hs, -⟩ | hs
    · exact ho s hs
    · by_contra hc
      exact key s (Finset.mem_union_right _ hs) (not_le.1 hc)
        fun s' hs' hlt => absurd (ho s' hs') hlt.not_ge
  · refine ⟨mem_patched.2 (.inl ⟨ho.1, fun hd => ?_⟩), ho.2.1, fun s hs hlt => ?_⟩
    · exact key y (Finset.mem_union_left _ hd) ho.2.1 ho.2.2
    · rcases mem_patched.1 hs with ⟨hs, -⟩ | hs
      · exact ho.2.2 s hs hlt
      · by_contra hc
        exact key s (Finset.mem_union_right _ hs) hlt
          fun s' hs' hlt' => ((not_le.1 hc).trans_le (ho.2.2 s' hs' hlt')).le

theorem ranked_patched (hP₁ : Patch rank h S D₁ F₁ W₁) (hP₂ : Patch rank h S D₂ F₂ W₂)
    (hS₁ : Ranked rank h (patched S D₁ F₁)) (hS₂ : Ranked rank h (patched S D₂ F₂))
    (hW : Disjoint W₁ W₂) : Ranked rank h (patched (patched S D₁ F₁) D₂ F₂) := by
  have hcross : ∀ s ∈ patched S D₁ F₁, s ∉ D₂ → ∀ s' ∈ F₂, rank s = rank s' → s = s' := by
    intro s hs hd s' hs' he
    rcases mem_patched.1 hs with ⟨hs, -⟩ | hs
    · exact hS₂.inj s (mem_patched.2 (.inl ⟨hs, hd⟩)) s' (mem_patched.2 (.inr hs')) he
    · obtain ⟨p, hp⟩ := IsPrev.exists_of_bot (S := S) (hP₁.above s hs)
      have hp₁ := hP₁.prev_mem (Finset.mem_union_right _ hs) hp
      rw [he] at hp
      exact absurd (hP₂.prev_mem (Finset.mem_union_right _ hs') hp) (Set.disjoint_left.1 hW hp₁)
  refine ⟨fun s hs => ?_, fun s hs s' hs' he => ?_⟩
  · rcases mem_patched.1 hs with ⟨hs, -⟩ | hs
    · exact hS₁.bot s hs
    · exact hP₂.above s hs
  · rcases mem_patched.1 hs with ⟨hs, hd⟩ | hs <;> rcases mem_patched.1 hs' with ⟨hs', hd'⟩ | hs'
    · exact hS₁.inj s hs s' hs' he
    · exact hcross s hs hd s' hs' he
    · exact (hcross s' hs' hd' s hs he.symm).symm
    · exact hS₂.inj s (mem_patched.2 (.inr hs)) s' (mem_patched.2 (.inr hs')) he

/-- A patch stays one after another that writes elsewhere. -/
theorem after (hP₁ : Patch rank h S D₁ F₁ W₁) (hP₂ : Patch rank h S D₂ F₂ W₂)
    (hS : Ranked rank h S) (hS₂ : Ranked rank h (patched S D₂ F₂)) (hW : Disjoint W₁ W₂)
    (hF : ∀ f ∈ F₁, f ∉ F₂) : Patch rank h (patched S D₂ F₂) D₁ F₁ W₁ where
  sub d hd := mem_patched.2 (.inl ⟨hP₁.sub hd, fun hd₂ =>
    Set.disjoint_left.1 hW (hP₁.del d hd) (hP₂.del d hd₂)⟩)
  new f hf hf₂ := by
    rcases mem_patched.1 hf₂ with ⟨hfS, -⟩ | hf₂
    · exact hP₁.new f hf hfS
    · exact hF f hf hf₂
  above := hP₁.above
  del := hP₁.del
  prev x hx p hp := by
    have hbot : rank h < rank x := by
      rcases Finset.mem_union.1 hx with hx | hx
      · exact hS.bot x (hP₁.sub hx)
      · exact hP₁.above x hx
    obtain ⟨q, hq⟩ := IsPrev.exists_of_bot (S := S) hbot
    have hq₁ := hP₁.prev_mem hx hq
    rw [hp.unique hS₂ (hP₂.isPrev hq (Set.disjoint_left.1 hW hq₁))]
    exact hq₁

/-- Two patches that write to disjoint sets of nodes, applied one after the other. -/
theorem commute (hP₁ : Patch rank h S D₁ F₁ W₁) (hP₂ : Patch rank h S D₂ F₂ W₂)
    (hS : Ranked rank h S) {next₁ next₂ next' : N → Option N}
    (hT₁ : Threads rank next₁ h (patched S D₁ F₁)) (hT₂ : Threads rank next₂ h (patched S D₂ F₂))
    (hW : Disjoint W₁ W₂) (hF₁ : ∀ f ∈ F₁, f ∉ W₂) (hF₂ : ∀ f ∈ F₂, f ∉ W₁)
    (h1 : ∀ n, n ∈ W₁ ∨ n ∈ F₁ → next' n = next₁ n)
    (h2 : ∀ n ∈ insert h (patched S D₂ F₂), n ∉ W₁ → n ∉ F₁ → next' n = next₂ n) :
    Threads rank next' h (patched (patched S D₂ F₂) D₁ F₁) := by
  refine ⟨hP₂.ranked_patched hP₁ hT₂.toRanked hT₁.toRanked hW.symm, fun n hn => ?_⟩
  by_cases hn₁ : n ∈ W₁ ∨ n ∈ F₁
  · rw [h1 n hn₁, ← hP₁.patched_comm hP₂]
    have hnS : n ∈ insert h (patched S D₁ F₁) := by
      rcases Finset.mem_insert.1 hn with rfl | hn
      · exact Finset.mem_insert_self _ _
      refine Finset.mem_insert_of_mem (mem_patched.2 ?_)
      rcases mem_patched.1 hn with ⟨hn, hd⟩ | hn
      · rcases mem_patched.1 hn with ⟨hn, -⟩ | hn
        · exact .inl ⟨hn, hd⟩
        · exact .inr (hn₁.resolve_left (hF₂ n hn))
      · exact .inr hn
    have hn₂ : n ∉ W₂ := by
      rcases hn₁ with hn₁ | hn₁
      · exact Set.disjoint_left.1 hW hn₁
      · exact hF₁ n hn₁
    exact hP₁.isNext hP₂ hS hT₁.toRanked hW hnS hn₂ (hT₁.next n hnS)
  · push Not at hn₁
    have hnS : n ∈ insert h (patched S D₂ F₂) := by
      rcases Finset.mem_insert.1 hn with rfl | hn
      · exact Finset.mem_insert_self _ _
      · rcases mem_patched.1 hn with ⟨hn, -⟩ | hn
        · exact Finset.mem_insert_of_mem hn
        · exact absurd hn hn₁.2
    rw [h2 n hnS hn₁.1 hn₁.2]
    exact hP₂.isNext hP₁ hS hT₂.toRanked hW.symm hnS hn₁.1 (hT₂.next n hnS)

end Commute

end Patch

end Chain
