import TxList.Proofs.IndexOps
import TxList.Proofs.IndexFrame
import Mathlib.Data.Prod.Lex

/-!
# Indexes with nodes of equal keys

Once a commit has lost an insertion a list and its index part ways, and the index may come to hold
several live nodes of one key. A node is linked in before all nodes of its key, so with the nodes of
equal keys ordered by when they were added, the latest first, the levels are still sorted, and a
search does what it does in an index without ties.
-/

namespace TxList

namespace Index

open Chain

variable {K K' : Type} [LinearOrder K] [LinearOrder K'] {v : NodeView K} {v' : NodeView K'}

/-! ## Searches that compare alike -/

/-- The two searches find the same nodes live and the same nodes below their keys. -/
structure Matches (v : NodeView K) (key : K) (v' : NodeView K') (key' : K') : Prop where
  live : v'.live = v.live
  below : ∀ n, v'.key n < key' ↔ v.key n < key

section Search

variable {key : K} {key' : K'} (h : Matches v key v' key')

include h

theorem Matches.live_eq (ix : Index) (i : IdxId) : ix.live v' i = ix.live v i := by
  simp only [Index.live, h.live]

theorem Matches.link_eq (ix : Index) (i : IdxId) (succ : Option IdxId) (newSucc : IdxId) :
    ix.link v' i succ newSucc = ix.link v i succ newSucc := by
  simp only [link, h.live_eq]

theorem Matches.unlink_eq (ix : Index) (i succ : IdxId) :
    ix.unlink v' i succ = ix.unlink v i succ := by
  simp only [unlink, h.live_eq]

theorem Matches.walkLevel : ∀ (fuel : Nat) (ix : Index) (q : IdxId),
    walkLevel v' key' fuel ix q = walkLevel v key fuel ix q
  | 0, _, _ => rfl
  | fuel + 1, ix, q => by
    simp only [Index.walkLevel, h.live_eq, h.unlink_eq, h.below]
    split
    · rfl
    · split_ifs
      · split
        · exact Matches.walkLevel fuel _ q
        · rfl
      · exact Matches.walkLevel fuel ix _
      · rfl

theorem Matches.walkUntil (fuel : Nat) (levelHead : IdxId) : ∀ (n : Nat) (ix : Index) (curr : IdxId),
    walkUntil v' key' fuel levelHead n ix curr = walkUntil v key fuel levelHead n ix curr
  | 0, _, _ => rfl
  | n + 1, ix, curr => by
    simp only [Index.walkUntil, h.walkLevel]
    split
    · rfl
    · rfl
    · exact Matches.walkUntil fuel levelHead n _ levelHead

theorem Matches.descend (fuel : Nat) : ∀ (n : Nat) (ix : Index) (levelHead curr : IdxId)
    (level : Nat) (points : List (IdxId × Option IdxId)),
    descend v' key' fuel n ix levelHead curr level points
      = descend v key fuel n ix levelHead curr level points
  | 0, _, _, _, _, _ => rfl
  | n + 1, ix, levelHead, curr, level, points => by
    simp only [Index.descend, h.live_eq, h.walkUntil]
    split_ifs
    · exact Matches.descend fuel n _ _ _ _ _
    · split
      · rfl
      · split_ifs
        · exact Matches.descend fuel n _ _ _ _ _
        · split
          · rfl
          · rfl
          · exact Matches.descend fuel n _ _ _ _ _
          · exact Matches.descend fuel n _ _ _ _ _

theorem Matches.findPredecessor (fuel : Nat) (ix : Index) :
    findPredecessor v' key' fuel ix = findPredecessor v key fuel ix := by
  simp only [Index.findPredecessor, findInsertionPoints, h.descend]

theorem Matches.getPredLoop (fuel : Nat) : ∀ (n : Nat) (ix : Index),
    getPredLoop v' key' fuel n ix = getPredLoop v key fuel n ix
  | 0, _ => rfl
  | n + 1, ix => by
    simp only [Index.getPredLoop, h.findPredecessor, h.live]
    split
    · rfl
    · split_ifs
      · rfl
      · exact Matches.getPredLoop fuel n _

theorem Matches.getPred (fuel : Nat) (ix : Index) :
    getPred v' key' fuel ix = getPred v key fuel ix :=
  h.getPredLoop fuel fuel ix

end Search

section Add

variable {n : NodeId} (h : Matches v (v.key n) v' (v'.key n))

include h

theorem Matches.insertInLevel (fuel : Nat) (newNode head : IdxId) : ∀ (k : Nat) (ix : Index)
    (prev : IdxId) (next : Option IdxId), (ix.nodes newNode).node = n →
    insertInLevel v' fuel newNode head k ix prev next = insertInLevel v fuel newNode head k ix prev next
  | 0, _, _, _, _ => rfl
  | k + 1, ix, prev, next, hn => by
    simp only [Index.insertInLevel, h.link_eq, h.live_eq]
    split
    · rfl
    · rename_i ix₁ hl
      have hn₁ : (ix₁.nodes newNode).node = n := by
        have hsame : ix.SameNodes (ix.link v prev next newNode).1 := sameNodes_link prev next newNode
        rw [hl] at hsame
        exact (hsame.node newNode).trans hn
      split_ifs
      · rfl
      · rw [hn₁, h.walkUntil]
        split
        · rfl
        · rename_i ix₂ _ _ _ hw
          refine Matches.insertInLevel fuel newNode head k _ _ _ ?_
          rw [(sameNodes_walkUntil hw).node newNode, hn₁]

theorem Matches.insertLevels (fuel : Nat) (idxs : List IdxId) (points : List (IdxId × Option IdxId))
    (level : Nat) : ∀ (k : Nat) (ix : Index) (head : Option IdxId) (linked : Nat),
    (∀ i ∈ idxs, (ix.nodes i).node = n) →
    insertLevels v' fuel idxs points level k ix head linked
      = insertLevels v fuel idxs points level k ix head linked
  | 0, _, _, _, _ => rfl
  | k + 1, ix, none, linked, _ => rfl
  | k + 1, ix, some head, linked, hn => by
    simp only [Index.insertLevels]
    split_ifs
    · split
      · rename_i i prev next hi _
        rw [h.insertInLevel fuel i head fuel ix prev next (hn i (List.mem_of_getElem? hi))]
        split
        · rfl
        · rfl
        · rename_i ix₁ hw
          refine Matches.insertLevels fuel idxs points level k _ _ _ fun j hj => ?_
          rw [(sameNodes_insertInLevel hw).node j, hn j hj]
      · rfl
    · rfl

theorem Matches.add (fuel drawn : Nat) (ix : Index) :
    Index.add v' fuel drawn n ix = Index.add v fuel drawn n ix := by
  simp only [Index.add, findInsertionPoints, h.descend]
  split
  · rfl
  · rename_i ix₁ points _
    have hnodes : ∀ i ∈ (createNewIndexNodes n (min drawn (points.length + 1) + 1) none ix₁).2,
        ((createNewIndexNodes n (min drawn (points.length + 1) + 1) none ix₁).1.nodes i).node = n := by
      obtain ⟨h1, -, -, -, -, h6, h7⟩ := createNewIndexNodes_spec n
        (min drawn (points.length + 1) + 1) none ix₁
      intro i hi
      rw [h1, List.mem_map] at hi
      obtain ⟨j, hj, rfl⟩ := hi
      rcases j with _ | j
      · show ((createNewIndexNodes n _ none ix₁).1.nodes ix₁.fresh).node = n
        rw [h6 (by omega)]
      · rw [h7 j (List.mem_range.1 hj)]
    rw [h.insertLevels _ _ _ _ _ _ _ _ hnodes]

end Add

end Index

/-! ## The order of the nodes -/

section Ties

open Chain

variable {K V : Type} {m : Nat} [LinearOrder K]

/-- Nodes by key, and those of one key by `seq`. -/
def NodeView.tied (v : NodeView K) (seq : NodeId → ℤ) : NodeView (K ×ₗ ℤ) where
  key n := toLex (v.key n, seq n)
  live := v.live

theorem NodeView.matches_low (v : NodeView K) {seq : NodeId → ℤ} {z : ℤ} (hz : ∀ n, z < seq n)
    (key : K) : Index.Matches v key (v.tied seq) (toLex (key, z)) := by
  refine ⟨rfl, fun n => ?_⟩
  simp only [NodeView.tied, Prod.Lex.toLex_lt_toLex]
  constructor
  · rintro (h | ⟨-, h⟩)
    · exact h
    · exact absurd (hz n) h.asymm
  · exact .inl

/-- A node that comes before all others of its key. -/
theorem NodeView.matches_first (v : NodeView K) {seq : NodeId → ℤ} {n : NodeId}
    (hn : ∀ k, k ≠ n → seq n < seq k) : Index.Matches v (v.key n) (v.tied seq) ((v.tied seq).key n) := by
  refine ⟨rfl, fun k => ?_⟩
  simp only [NodeView.tied, Prod.Lex.toLex_lt_toLex]
  constructor
  · rintro (h | ⟨-, h⟩)
    · exact h
    · by_cases hk : k = n
      · exact absurd (hk ▸ h) (lt_irrefl _)
      · exact absurd (hn k hk) h.asymm
  · exact .inl

/-- The heads come before every key. -/
def tiedRank (m : Nat) (key : NodeId → K) (seq : NodeId → ℤ) (n : NodeId) : WithBot (K ×ₗ ℤ) :=
  if n < m then ⊥ else (toLex (key n, seq n) : K ×ₗ ℤ)

omit [LinearOrder K] in
theorem tiedRank_of_le {key : NodeId → K} {seq : NodeId → ℤ} {n : NodeId} (h : m ≤ n) :
    tiedRank m key seq n = (toLex (key n, seq n) : K ×ₗ ℤ) := by
  simp [tiedRank, Nat.not_lt.2 h]

/-- The index of the head `hn` is well formed up to ties, and `A` are the nodes it holds. -/
def Ordered (m : Nat) (v : NodeView K) (hn : NodeId) (ix : Index) (A : Finset NodeId) : Prop :=
  ∃ (seq : NodeId → ℤ) (z : ℤ), (∀ n, z < seq n) ∧
    Index.Indexed (v.tied seq) (tiedRank m v.key seq) hn ix A

namespace Ordered

variable {v : NodeView K} {hn : NodeId} {ix : Index} {A : Finset NodeId}

theorem congr {v' : NodeView K} (h : Ordered m v hn ix A)
    (hk : ∀ n ∈ insert hn A, v'.key n = v.key n) : Ordered m v' hn ix A := by
  obtain ⟨seq, z, hz, hI⟩ := h
  refine ⟨seq, z, hz, hI.congr (fun n hn' => ?_) fun n hn' => ?_⟩
  · simp only [tiedRank, hk n hn']
  · simp only [NodeView.tied, hk n (Finset.mem_insert_of_mem hn')]

variable (h : Ordered m v hn ix A) (hlt : hn < m) (hlive : v.live hn = true)

include h hlt hlive

theorem getPred_spec (key : K) :
    (∀ fuel ix' p, ix.getPred v key fuel = some (ix', p) →
      (∃ A' ⊆ A, Ordered m v hn ix' A') ∧ (p = hn ∨ p ∈ A) ∧ (m ≤ p → v.key p < key))
    ∧ ∃ N, ∀ fuel, N ≤ fuel → (ix.getPred v key fuel).isSome := by
  obtain ⟨seq, z, hz, hI⟩ := h
  have hM := v.matches_low hz key
  obtain ⟨h1, N, hN⟩ := Index.getPred_spec (toLex (key, z) : K ×ₗ ℤ) hI
    (by simp [tiedRank, hlt]) hlive
  refine ⟨fun fuel ix' p hg => ?_, N, fun fuel hf => ?_⟩
  · rw [← hM.getPred] at hg
    obtain ⟨⟨A', hI', hdrop⟩, hp, -⟩ := h1 fuel ix' p hg
    refine ⟨⟨A', hdrop.sub, seq, z, hz, hI'⟩, ?_, fun hm => ?_⟩
    · rcases Finset.mem_insert.1 hp.1 with hp | hp
      · exact .inl hp
      · exact .inr (Finset.mem_filter.1 hp).1
    · have hlt' := hp.2.1
      rw [tiedRank_of_le hm, WithBot.coe_lt_coe] at hlt'
      exact (hM.below p).1 hlt'
  · rw [← hM.getPred]
    exact hN fuel hf

/-- `remove` leaves its node in only if it is live, or comes after a live node of its key. -/
theorem remove_spec (n : NodeId) :
    (∀ fuel ix', ix.remove v fuel n = some ix' →
      ∃ A' ⊆ A, Ordered m v hn ix' A' ∧ (n ∈ A' → ix.Keeps v n))
    ∧ ∃ N, ∀ fuel, N ≤ fuel → (ix.remove v fuel n).isSome := by
  obtain ⟨seq, z, hz, hI⟩ := h
  have hM := v.matches_low hz (v.key n)
  obtain ⟨h1, N, hN⟩ := Index.findPredecessor_spec (toLex (v.key n, z) : K ×ₗ ℤ) hI
    (by simp [tiedRank, hlt]) hlive
  refine ⟨fun fuel ix' hr => ?_, N, fun fuel hf => ?_⟩
  · rcases hf : Index.findPredecessor v (v.key n) fuel ix with _ | ⟨ix₁, p⟩
    · simp [Index.remove, hf] at hr
    obtain ⟨A', hI₁, hdrop, hpassed⟩ := h1 fuel ix₁ p (by rw [hM.findPredecessor, hf])
    obtain ⟨ix₂, hix₂, hI₂⟩ := hI₁.reduced
    simp only [Index.remove, hf, hix₂, Option.some.injEq] at hr
    refine ⟨A', hdrop.sub, ⟨seq, z, hz, hr ▸ hI₂⟩, fun hn => ?_⟩
    obtain ⟨hmem, hsorted⟩ := hI.bottomLevel_spec
    refine ⟨(hmem n).2 (hdrop.sub hn), ?_⟩
    by_cases hl : v.live n = true
    · exact .inl hl
    · have hrank : ∀ k ∈ A', tiedRank m v.key seq k = (toLex (v.key k, seq k) : K ×ₗ ℤ) :=
        fun k hk => hI₁.rank_of_mem hk
      obtain ⟨r, hr', hrl, hle, hrn⟩ := hpassed n hn (Bool.eq_false_iff.2 hl) (by
        rw [hrank n hn, WithBot.coe_le_coe]
        exact Prod.Lex.toLex_le_toLex.2 (.inr ⟨rfl, (hz n).le⟩))
      refine .inr ⟨r, pair_sublist hsorted ((hmem r).2 (hdrop.sub hr')) ((hmem n).2 (hdrop.sub hn)) hrn,
        hrl, ?_⟩
      rw [hrank r hr', WithBot.coe_le_coe, Prod.Lex.toLex_le_toLex] at hle
      rw [hrank r hr', hrank n hn, WithBot.coe_lt_coe, Prod.Lex.toLex_lt_toLex] at hrn
      have h₁ : v.key n ≤ v.key r := hle.elim le_of_lt fun h => h.1.le
      have h₂ : v.key r ≤ v.key n := hrn.elim le_of_lt fun h => h.1.le
      exact le_antisymm h₂ h₁
  · obtain ⟨⟨ix₁, p⟩, hf'⟩ := Option.isSome_iff_exists.1 (hN fuel hf)
    obtain ⟨A', hI₁, -, -⟩ := h1 fuel ix₁ p hf'
    obtain ⟨ix₂, hix₂, -⟩ := hI₁.reduced
    rw [hM.findPredecessor] at hf'
    simp [Index.remove, hf', hix₂]

theorem add_spec {n : NodeId} (hn' : m ≤ n) (hnA : n ∉ A) (drawn : Nat) :
    (∀ fuel ix', ix.add v fuel drawn n = some ix' →
      ∃ A' ⊆ A, Ordered m v hn ix' (insert n A'))
    ∧ ∃ N, ∀ fuel, N ≤ fuel → (ix.add v fuel drawn n).isSome := by
  obtain ⟨seq, z, hz, hI⟩ := h
  -- the new node comes before all others of its key
  set seq' := Function.update seq n z with hseq'
  have hold : ∀ k, k ≠ n → seq' k = seq k := fun k hk => by simp [hseq', hk]
  have hnew : seq' n = z := by simp [hseq']
  have hM : Index.Matches v (v.key n) (v.tied seq') ((v.tied seq').key n) :=
    v.matches_first fun k hk => by
      rw [hnew, hold k hk]
      exact hz k
  have hz' : ∀ k, z - 1 < seq' k := fun k => by
    by_cases hk : k = n
    · rw [hk, hnew]
      omega
    · rw [hold k hk]
      have := hz k
      omega
  have hne : ∀ k ∈ insert hn A, k ≠ n := by
    rintro k hk rfl
    rcases Finset.mem_insert.1 hk with rfl | hk
    · exact absurd hlt (Nat.not_lt.2 hn')
    · exact hnA hk
  have hI' : Index.Indexed (v.tied seq') (tiedRank m v.key seq') hn ix A := by
    refine hI.congr (fun k hk => ?_) fun k hk => ?_
    · simp only [tiedRank, hold k (hne k hk)]
    · simp only [NodeView.tied, hold k (hne k (Finset.mem_insert_of_mem hk))]
  have hdiff : ∀ a ∈ A, (v.tied seq').live a = true →
      tiedRank m v.key seq' a ≠ tiedRank m v.key seq' n := by
    intro a ha _ he
    rw [tiedRank_of_le hn'] at he
    simp only [tiedRank] at he
    split_ifs at he
    · exact WithBot.bot_ne_coe he
    have h2 := (Prod.ext_iff.1 (toLex_inj.1 (WithBot.coe_inj.1 he))).2
    simp only [hnew, hold a (hne a (Finset.mem_insert_of_mem ha))] at h2
    exact absurd h2 (hz a).ne'
  obtain ⟨h1, N, hN⟩ := Index.add_spec hI' (by simp [tiedRank, hlt]) hlive (tiedRank_of_le hn')
    hdiff drawn
  refine ⟨fun fuel ix' hadd => ?_, N, fun fuel hf => ?_⟩
  · rw [← hM.add] at hadd
    obtain ⟨A', hI₁, hdrop⟩ := h1 fuel ix' hadd
    exact ⟨A', hdrop.sub, seq', z - 1, hz', hI₁⟩
  · rw [← hM.add]
    exact hN fuel hf

end Ordered

end Ties

end TxList
