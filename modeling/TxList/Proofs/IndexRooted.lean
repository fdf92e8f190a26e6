import TxList.Proofs.IndexFrame
import Mathlib.Data.List.Basic

/-!
# Where a search of any index ends

However an index's levels are linked, a search starts at the list's head, moves right only to keys
below the one searched and goes down within one list node. So it ends at the head or at a node with a
key below the one searched, as long as the heads stand for the list's head.
-/

namespace TxList

variable {K : Type}

/-- The top head stands for the list's head `hn`, and `m_down` leads to an index node of the same list
node. -/
structure Index.Rooted (hn : NodeId) (ix : Index) : Prop where
  top : ix.headTop < ix.fresh
  head : (ix.nodes ix.headTop).node = hn
  down : ∀ i d, (ix.nodes i).down = some d → d < ix.fresh ∧ (ix.nodes d).node = (ix.nodes i).node

namespace Index

variable {ix ix' : Index} {v : NodeView K} {hn : NodeId}

theorem Rooted.new (hn : NodeId) : (new hn).Rooted hn :=
  ⟨Nat.one_pos, rfl, fun i d hd => by simp [Index.new] at hd⟩

theorem Rooted.of_same (h : ix.Rooted hn) (hs : ix.SameNodes ix') : ix'.Rooted hn := by
  refine ⟨by rw [hs.headTop, hs.fresh]; exact h.top, by rw [hs.headTop, hs.node]; exact h.head,
    fun i d hd => ?_⟩
  rw [hs.down] at hd
  rw [hs.fresh, hs.node, hs.node]
  exact h.down i d hd

/-- A new index node leads down to one of the same list node. -/
theorem Rooted.setFresh (h : ix.Rooted hn) {x : IndexNode}
    (hx : ∀ d, x.down = some d → d < ix.fresh ∧ (ix.nodes d).node = x.node) :
    ({ ix.setNode ix.fresh x with fresh := ix.fresh + 1 } : Index).Rooted hn := by
  have hne : ∀ {i}, i < ix.fresh → Function.update ix.nodes ix.fresh x i = ix.nodes i := fun hi =>
    Function.update_of_ne hi.ne _ _
  refine ⟨h.top.trans (Nat.lt_succ_self _), ?_, fun i d hd => ?_⟩
  · show (Function.update ix.nodes ix.fresh x ix.headTop).node = hn
    rw [hne h.top]
    exact h.head
  · change (Function.update ix.nodes ix.fresh x i).down = some d at hd
    show d < ix.fresh + 1 ∧ (Function.update ix.nodes ix.fresh x d).node =
      (Function.update ix.nodes ix.fresh x i).node
    by_cases hi : i = ix.fresh
    · subst hi
      rw [Function.update_self] at hd ⊢
      obtain ⟨hlt, hnode⟩ := hx d hd
      exact ⟨hlt.trans (Nat.lt_succ_self _), by rw [hne hlt, hnode]⟩
    · rw [Function.update_of_ne hi] at hd ⊢
      obtain ⟨hlt, hnode⟩ := h.down i d hd
      exact ⟨hlt.trans (Nat.lt_succ_self _), by rw [hne hlt, hnode]⟩

theorem Rooted.createNewIndexNodes {n : NodeId} : ∀ (count : Nat) (down : Option IdxId) {ix : Index},
    ix.Rooted hn → (∀ d, down = some d → d < ix.fresh ∧ (ix.nodes d).node = n) →
      (ix.createNewIndexNodes n count down).1.Rooted hn
  | 0, _, _, h, _ => h
  | count + 1, down, ix, h, hd => by
    simp only [Index.createNewIndexNodes]
    refine Rooted.createNewIndexNodes count _ (h.setFresh (x := { node := n, down := down }) hd) ?_
    rintro _ ⟨⟩
    exact ⟨Nat.lt_succ_self _, by simp [setNode]⟩

/-- The top head may become any other index node of the list's head. -/
theorem Rooted.casHead (h : ix.Rooted hn) {cmp val : IdxId} {up b : Bool} (hlt : val < ix.fresh)
    (hval : (ix.nodes val).node = hn) (hc : ix.casHead cmp val up = some (ix', b)) :
    ix'.Rooted hn := by
  have hset : ∀ (i : IdxId) (r : Option IdxId), ({ ix.setUp i r with headTop := val } : Index).Rooted hn := by
    intro i r
    have hs := h.of_same (sameNodes_setUp i r)
    exact ⟨hlt, ((sameNodes_setUp i r).node val).trans hval, hs.down⟩
  simp only [Index.casHead] at hc
  split_ifs at hc <;> simp only [Option.some.injEq, Prod.mk.injEq] at hc <;> obtain ⟨rfl, -⟩ := hc
  · exact hset _ _
  · exact hset _ _
  · exact h

theorem Rooted.tryReduceLevel (h : ix.Rooted hn) (hr : ix.tryReduceLevel = some ix') :
    ix'.Rooted hn := by
  simp only [Index.tryReduceLevel] at hr
  split_ifs at hr
  · obtain rfl := Option.some.inj hr
    exact h
  split at hr
  · simp at hr
  rename_i d hd
  obtain ⟨hlt, hnode⟩ := h.down _ _ hd
  split at hr
  · obtain rfl := Option.some.inj hr
    exact h
  split_ifs at hr
  · split at hr
    · simp at hr
    · rename_i hc
      obtain rfl := Option.some.inj hr
      exact h.casHead hlt (hnode.trans h.head) hc
    · rename_i ix₁ hc
      have h1 := h.casHead hlt (hnode.trans h.head) hc
      split_ifs at hr
      · obtain rfl := Option.some.inj hr
        exact h1
      · -- the old top head is put back
        simp only [Option.map_eq_some_iff, Prod.exists] at hr
        obtain ⟨ix₂, b, hc', rfl⟩ := hr
        refine h1.casHead ?_ ((node_casHead hc _).trans h.head) hc'
        rw [fresh_casHead hc]
        exact h.top
  · obtain rfl := Option.some.inj hr
    exact h

variable [LinearOrder K] {key : K}

/-- The index node stands for the list's head or for a key below the one searched. -/
def Precedes (v : NodeView K) (hn : NodeId) (key : K) (ix : Index) (i : IdxId) : Prop :=
  (ix.nodes i).node = hn ∨ v.key (ix.nodes i).node < key

theorem Precedes.of_same {i : IdxId} (h : Precedes v hn key ix i) (hs : ix.SameNodes ix') :
    Precedes v hn key ix' i := by
  unfold Precedes
  rw [hs.node]
  exact h

theorem walkLevel_precedes : ∀ {fuel : Nat} {ix ix' : Index} {q prev : IdxId} {next : Option IdxId},
    Precedes v hn key ix q → walkLevel v key fuel ix q = some (ix', some (prev, next)) →
      Precedes v hn key ix' prev
  | 0, _, _, _, _, _, _, hw => by simp [walkLevel] at hw
  | fuel + 1, ix, ix', q, prev, next, h, hw => by
    simp only [walkLevel] at hw
    split at hw
    · simp only [Option.some.injEq, Prod.mk.injEq] at hw
      obtain ⟨rfl, rfl, -⟩ := hw
      exact h
    · rename_i r _
      have hun : ix.SameNodes (ix.unlink v q r).1 := sameNodes_unlink q r
      split_ifs at hw with _ hlt
      · split at hw <;> rename_i hu <;> rw [hu] at hun
        · exact walkLevel_precedes (h.of_same hun) hw
        · simp at hw
      · exact walkLevel_precedes (.inr hlt) hw
      · simp only [Option.some.injEq, Prod.mk.injEq] at hw
        obtain ⟨rfl, rfl, -⟩ := hw
        exact h

theorem walkUntil_precedes {fuel : Nat} {levelHead : IdxId} : ∀ {n : Nat} {ix ix' : Index}
    {curr curr' prev : IdxId} {next : Option IdxId}, (ix.nodes levelHead).node = hn →
    Precedes v hn key ix curr →
    walkUntil v key fuel levelHead n ix curr = some (ix', curr', prev, next) →
      Precedes v hn key ix' curr' ∧ Precedes v hn key ix' prev
  | 0, _, _, _, _, _, _, _, _, hw => by simp [walkUntil] at hw
  | n + 1, ix, ix', curr, curr', prev, next, hh, h, hw => by
    simp only [walkUntil] at hw
    split at hw
    · simp at hw
    · rename_i hl
      simp only [Option.some.injEq, Prod.mk.injEq] at hw
      obtain ⟨rfl, rfl, rfl, -⟩ := hw
      exact ⟨h.of_same (sameNodes_walkLevel hl), walkLevel_precedes h hl⟩
    · rename_i hl
      have hh' := ((sameNodes_walkLevel hl).node levelHead).trans hh
      exact walkUntil_precedes hh' (.inl hh') hw

/-- Every level's walk starts at or after a head, and ends before the key. -/
theorem descend_precedes {fuel : Nat} : ∀ {n : Nat} {ix ix' : Index} {levelHead curr prev : IdxId}
    {level : Nat} {next : Option IdxId} {points points' : List (IdxId × Option IdxId)}, ix.Rooted hn →
    (ix.nodes levelHead).node = hn → Precedes v hn key ix curr →
    descend v key fuel n ix levelHead curr level points = some (ix', (prev, next) :: points') →
      Precedes v hn key ix' prev
  | 0, _, _, _, _, _, _, _, _, _, _, _, _, hd => by simp [descend] at hd
  | n + 1, ix, ix', levelHead, curr, prev, level, next, points, points', hR, hh, h, hd => by
    have hagain : ∀ {ix₁ : Index}, ix.SameNodes ix₁ →
        descend v key fuel n ix₁ ix₁.headTop ix₁.headTop (ix₁.nodes ix₁.headTop).level [] =
          some (ix', (prev, next) :: points') → Precedes v hn key ix' prev := fun hs hd =>
      descend_precedes (hR.of_same hs) (hR.of_same hs).head (.inl (hR.of_same hs).head) hd
    simp only [descend] at hd
    split_ifs at hd
    · exact hagain (.refl ix) hd
    split at hd
    · simp at hd
    rename_i ix₁ curr₁ prev₁ next₁ hw
    have hs := sameNodes_walkUntil hw
    have hR₁ := hR.of_same hs
    have hh₁ := (hs.node levelHead).trans hh
    obtain ⟨hcurr, hprev⟩ := walkUntil_precedes hh h hw
    split_ifs at hd
    · exact descend_precedes hR₁ hh₁ hcurr hd
    split at hd
    · simp only [Option.some.injEq, Prod.mk.injEq, List.cons.injEq] at hd
      obtain ⟨rfl, ⟨rfl, -⟩, -⟩ := hd
      exact hprev
    · simp at hd
    · exact hagain hs hd
    · rename_i d level₁ hdown
      refine descend_precedes hR₁ ?_ ?_ hd
      · rcases hlh : (ix₁.nodes levelHead).down with _ | e
        · exact hh₁
        · exact (hR₁.down _ _ hlh).2.trans hh₁
      · unfold Precedes
        rw [(hR₁.down _ _ hdown).2]
        exact hprev

theorem findPredecessor_precedes {fuel : Nat} {p : NodeId} (hR : ix.Rooted hn)
    (h : findPredecessor v key fuel ix = some (ix', p)) : p = hn ∨ v.key p < key := by
  simp only [findPredecessor, findInsertionPoints] at h
  split at h
  · rename_i hf
    simp only [Option.some.injEq, Prod.mk.injEq] at h
    obtain ⟨rfl, rfl⟩ := h
    exact descend_precedes hR hR.head (.inl hR.head) hf
  · simp at h

theorem getPred_precedes {fuel : Nat} {p : NodeId} (hR : ix.Rooted hn)
    (h : ix.getPred v key fuel = some (ix', p)) : ix'.Rooted hn ∧ (p = hn ∨ v.key p < key) := by
  suffices hloop : ∀ (n : Nat) {ix : Index}, ix.Rooted hn →
      getPredLoop v key fuel n ix = some (ix', p) → p = hn ∨ v.key p < key from
    ⟨hR.of_same (sameNodes_getPredLoop h).1, hloop fuel hR h⟩
  intro n
  induction n with
  | zero => simp [getPredLoop]
  | succ n ih =>
    intro ix hR h
    simp only [getPredLoop] at h
    split at h
    · simp at h
    rename_i ix₁ b hf
    split_ifs at h
    · simp only [Option.some.injEq, Prod.mk.injEq] at h
      obtain ⟨-, rfl⟩ := h
      exact findPredecessor_precedes hR hf
    · exact ih (hR.of_same (sameNodes_findPredecessor hf).1) h

theorem Rooted.remove {fuel : Nat} {n : NodeId} (h : ix.Rooted hn)
    (hr : ix.remove v fuel n = some ix') : ix'.Rooted hn := by
  simp only [Index.remove] at hr
  split at hr
  · simp at hr
  rename_i hf
  have h₁ := h.of_same (sameNodes_findPredecessor hf).1
  split_ifs at hr
  · exact h₁.tryReduceLevel hr
  · obtain rfl := Option.some.inj hr
    exact h₁

theorem Rooted.add {fuel drawn : Nat} {n : NodeId} (h : ix.Rooted hn)
    (ha : ix.add v fuel drawn n = some ix') : ix'.Rooted hn := by
  simp only [Index.add] at ha
  split at ha
  · simp at ha
  rename_i ix₁ points hf
  have h₁ := (h.of_same (sameNodes_descend hf)).createNewIndexNodes (n := n)
    (min drawn (points.length + 1) + 1) none (by simp)
  split at ha
  · simp at ha
  · rename_i hi
    obtain rfl := Option.some.inj ha
    exact h₁.of_same (sameNodes_insertLevels hi)
  · rename_i ix₂ _ hi
    have h₂ := h₁.of_same (sameNodes_insertLevels hi)
    split_ifs at ha
    · obtain rfl := Option.some.inj ha
      exact h₂
    · obtain rfl := Option.some.inj ha
      exact h₂
    · -- one more level: the new head stands for the list node of the old one
      simp only [Option.map_eq_some_iff, Prod.exists] at ha
      obtain ⟨ix₃, b, hc, rfl⟩ := ha
      refine (h₂.setFresh ?_).casHead (Nat.lt_succ_self _) (by simp [setNode, h₂.head]) hc
      rintro _ ⟨⟩
      exact ⟨h₂.top, rfl⟩
    · obtain rfl := Option.some.inj ha
      exact h₂

end Index

end TxList
