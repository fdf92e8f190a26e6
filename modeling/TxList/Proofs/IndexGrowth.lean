import TxList.IndexGrowth
import TxList.Proofs.IndexOps
import TxList.Proofs.IndexAdd

/-!
# An index that grows

While only live nodes are added no search takes anything out, so a level keeps what it has. A link puts its
index node on one level, over the one the call has linked before; a new level holds its head and one index
node, whose node is on the level below if the call has got that far.
-/

namespace TxList

namespace Index

variable {K : Type} [LinearOrder K] {v : NodeView K} {ix ix' : Index} {top : Nat} {hd : Nat → IdxId}
  {key : K} {h i j : IdxId} {l : Nat}

theorem Rights.congr (hr : ∀ i, ix.Rights h i → (ix'.nodes i).right = (ix.nodes i).right) :
    ix'.Rights h i ↔ ix.Rights h i := by
  constructor
  · intro hi
    induction hi with
    | refl => exact .refl
    | step _ hj ih => exact .step ih (by rwa [hr _ ih] at hj)
  · intro hi
    induction hi with
    | refl => exact .refl
    | step hi' hj ih => exact .step ih (by rwa [hr _ hi'])

variable (v) in
/-- The levels of an index that only grows: the heads `hd l`, and alive what comes after them. -/
structure Grown (ix : Index) (top : Nat) (hd : Nat → IdxId) : Prop where
  headTop : ix.headTop = hd top
  headBottom : ix.headBottom = hd 0
  level : ∀ l ≤ top, (ix.nodes (hd l)).level = l
  head_down : ∀ l < top, (ix.nodes (hd (l + 1))).down = some (hd l)
  head_up : ∀ l ≤ top, (ix.nodes (hd l)).up = if l + 1 ≤ top then some (hd (l + 1)) else none
  bottom : ∀ i, ix.Rights (hd 0) i → (ix.nodes i).down = none
  down : ∀ l < top, ∀ i, ix.Rights (hd (l + 1)) i →
    ∃ j, (ix.nodes i).down = some j ∧ ix.Rights (hd l) j
  bound : ∀ l ≤ top, ∀ i, ix.Rights (hd l) i → i < ix.fresh
  live : ∀ l ≤ top, ∀ i, ix.Rights (hd l) i → ix.live v i = true
  disj : ∀ l ≤ top, ∀ l' ≤ top, ∀ i, ix.Rights (hd l) i → ix.Rights (hd l') i → l = l'

namespace Grown

variable (hG : Grown v ix top hd)

include hG

omit [LinearOrder K] in
theorem isHead (hi : ix.IsHead i) : ∃ l ≤ top, i = hd l := by
  induction hi with
  | top => exact ⟨top, le_rfl, hG.headTop⟩
  | @down i j _ hj ih =>
    obtain ⟨l, hl, rfl⟩ := ih
    rcases l with _ | l
    · rw [hG.bottom _ .refl] at hj
      simp at hj
    · rw [hG.head_down l hl, Option.some.injEq] at hj
      exact ⟨l, Nat.le_of_succ_le hl, hj.symm⟩

omit [LinearOrder K] in
theorem nested : ix.Nested := by
  intro h h' hh hh' hlevel i hi
  obtain ⟨l, hl, rfl⟩ := hG.isHead hh
  obtain ⟨l', hl', rfl⟩ := hG.isHead hh'
  rw [hG.level l hl, hG.level l' hl'] at hlevel
  subst hlevel
  exact hG.down l' hl i hi

omit [LinearOrder K] in
/-- The index is the same on its levels. -/
theorem congr (hn : ∀ l ≤ top, ∀ i, ix.Rights (hd l) i → ix'.nodes i = ix.nodes i)
    (hf : ix.fresh ≤ ix'.fresh) (ht : ix'.headTop = ix.headTop) (hb : ix'.headBottom = ix.headBottom) :
    Grown v ix' top hd := by
  have hR : ∀ l ≤ top, ∀ i, ix'.Rights (hd l) i ↔ ix.Rights (hd l) i := fun l hl i =>
    Rights.congr fun j hj => by rw [hn l hl j hj]
  have hhd : ∀ l ≤ top, ix'.nodes (hd l) = ix.nodes (hd l) := fun l hl => hn l hl _ .refl
  refine ⟨ht.trans hG.headTop, hb.trans hG.headBottom, fun l hl => ?_, fun l hl => ?_, fun l hl => ?_,
    fun i hi => ?_, fun l hl i hi => ?_, fun l hl i hi => ?_, fun l hl i hi => ?_,
    fun l hl l' hl' i hi hi' => ?_⟩
  · rw [hhd l hl, hG.level l hl]
  · rw [hhd (l + 1) hl, hG.head_down l hl]
  · rw [hhd l hl, hG.head_up l hl]
  · have hi := (hR 0 (Nat.zero_le _) i).1 hi
    rw [hn 0 (Nat.zero_le _) i hi, hG.bottom i hi]
  · have hi := (hR (l + 1) hl i).1 hi
    obtain ⟨j, hdj, hj⟩ := hG.down l hl i hi
    exact ⟨j, by rw [hn (l + 1) hl i hi, hdj], (hR l hl.le j).2 hj⟩
  · exact (hG.bound l hl i ((hR l hl i).1 hi)).trans_le hf
  · have hi := (hR l hl i).1 hi
    rw [Index.live, hn l hl i hi]
    exact hG.live l hl i hi
  · exact hG.disj l hl l' hl' i ((hR l hl i).1 hi) ((hR l' hl' i).1 hi')

/-! ### Searches -/

/-- A walk along a level changes nothing. -/
theorem walkLevel (hl : l ≤ top) : ∀ (fuel : Nat) {q : IdxId}, ix.Rights (hd l) q → ∀ r,
    walkLevel v key fuel ix q = some r → ∃ p o, r = (ix, some (p, o)) ∧ ix.Rights (hd l) p
  | 0, _, _, _, hr => by cases hr
  | fuel + 1, q, hq, r, hr => by
    unfold Index.walkLevel at hr
    split at hr
    · cases hr
      exact ⟨q, none, rfl, hq⟩
    · rename_i y hy
      have hy := Rights.step hq hy
      rw [if_neg (by simp [hG.live l hl y hy])] at hr
      split_ifs at hr
      · exact walkLevel hl fuel hy r hr
      · cases hr
        exact ⟨q, some y, rfl, hq⟩

theorem walkUntil (hl : l ≤ top) {fuel : Nat} {levelHead : IdxId} : ∀ (n : Nat) {curr : IdxId},
    ix.Rights (hd l) curr → ∀ {ix₁ c p o}, walkUntil v key fuel levelHead n ix curr = some (ix₁, c, p, o) →
      ix₁ = ix ∧ ix.Rights (hd l) p
  | 0, _, _, _, _, _, _, hr => by cases hr
  | n + 1, curr, hc, ix₁, c, p, o, hr => by
    unfold Index.walkUntil at hr
    split at hr
    · cases hr
    · rename_i ix₂ p' o' hw
      obtain ⟨p'', o'', he, hp⟩ := hG.walkLevel hl fuel hc _ hw
      cases he
      cases hr
      exact ⟨rfl, hp⟩
    · rename_i ix₂ hw
      obtain ⟨p'', o'', he, -⟩ := hG.walkLevel hl fuel hc _ hw
      cases he

theorem descend {fuel : Nat} : ∀ (n : Nat) {curr : IdxId} {level : Nat}
    {points : List (IdxId × Option IdxId)}, level ≤ top → ix.Rights (hd level) curr →
    points.length = top - level →
    (∀ k p, points[k]? = some p → ix.Rights (hd (level + 1 + k)) p.1) →
    ∀ {ix₁ pts}, descend v key fuel n ix (hd level) curr level points = some (ix₁, pts) →
      ix₁ = ix ∧ pts.length = top + 1 ∧ ∀ k p, pts[k]? = some p → ix.Rights (hd k) p.1
  | 0, _, _, _, _, _, _, _, _, _, hr => by cases hr
  | n + 1, curr, level, points, hl, hc, hlen, hpts, ix₁, pts, hr => by
    unfold Index.descend at hr
    rw [if_neg (by simp [hG.live level hl curr hc])] at hr
    split at hr
    · cases hr
    rename_i ix₂ curr₂ prev next hw
    obtain ⟨he, hp⟩ := hG.walkUntil hl fuel hc hw
    rw [he] at hr
    rw [if_neg (by simp [hG.live level hl prev hp])] at hr
    have hcons : ∀ k p, ((prev, next) :: points)[k]? = some p → ix.Rights (hd (level + k)) p.1 := by
      intro k p hk
      rcases k with _ | k
      · cases hk
        exact hp
      · rw [← Nat.add_assoc, Nat.add_right_comm]
        exact hpts k p hk
    split at hr
    · cases hr
      refine ⟨rfl, by rw [List.length_cons, hlen, Nat.sub_zero], fun k p hk => ?_⟩
      simpa using hcons k p hk
    · cases hr
    · rename_i hdown
      rw [hG.bottom prev hp] at hdown
      cases hdown
    · rename_i d level hdown
      obtain ⟨j, hj, hrj⟩ := hG.down level hl prev hp
      rw [hdown, Option.some.injEq] at hj
      subst hj
      rw [hG.head_down level hl, Option.getD_some] at hr
      have hlen' : ((prev, next) :: points).length = top - level := by
        rw [List.length_cons, hlen]
        omega
      exact descend n (Nat.le_of_succ_le hl) hrj hlen' hcons hr

/-- A search finds an index node on each level. -/
theorem findInsertionPoints {fuel : Nat} {ix₁ : Index} {pts : List (IdxId × Option IdxId)}
    (hr : findInsertionPoints v key fuel ix = some (ix₁, pts)) :
    ix₁ = ix ∧ pts.length = top + 1 ∧ ∀ k p, pts[k]? = some p → ix.Rights (hd k) p.1 := by
  rw [Index.findInsertionPoints, hG.headTop, hG.level top le_rfl] at hr
  exact hG.descend fuel le_rfl .refl (by simp) (by simp) hr

/-! ### Links and new levels -/

omit [LinearOrder K] in
/-- An index node is linked behind `prev`. -/
theorem rights_link (hl : l ≤ top) {prev new : IdxId} {next : Option IdxId}
    (hp : ix.Rights (hd l) prev) (hnext : (ix.nodes prev).right = next)
    (hnew : ∀ k ≤ top, ¬ ix.Rights (hd k) new) : ∀ k ≤ top, ∀ i,
      ((ix.setRight new next).setRight prev (some new)).Rights (hd k) i ↔
        ix.Rights (hd k) i ∨ k = l ∧ i = new := by
  have hne : new ≠ prev := fun he => hnew l hl (he ▸ hp)
  have hprev : (((ix.setRight new next).setRight prev (some new)).nodes prev).right = some new := by
    simp
  have hself : (((ix.setRight new next).setRight prev (some new)).nodes new).right = next := by
    rw [setRight_right_ne _ _ hne, setRight_right_self]
  have hother : ∀ i, i ≠ prev → i ≠ new →
      (((ix.setRight new next).setRight prev (some new)).nodes i).right = (ix.nodes i).right :=
    fun i h1 h2 => by rw [setRight_right_ne _ _ h1, setRight_right_ne _ _ h2]
  have hmono : ∀ k ≤ top, ∀ i, ix.Rights (hd k) i →
      ((ix.setRight new next).setRight prev (some new)).Rights (hd k) i := by
    intro k hk i hi
    induction hi with
    | refl => exact .refl
    | @step a b ha hb ih =>
      by_cases hap : a = prev
      · subst hap
        refine .step (.step ih hprev) ?_
        rw [hself, ← hnext, hb]
      · refine .step ih ?_
        rw [hother a hap fun he => hnew k hk (he ▸ ha), hb]
  refine fun k hk i => ⟨fun hi => ?_, fun hi => hi.elim (hmono k hk i) fun ⟨hkl, hin⟩ => ?_⟩
  · induction hi with
    | refl => exact .inl .refl
    | @step a b _ hb ih =>
      rcases ih with ha | ⟨rfl, rfl⟩
      · by_cases hap : a = prev
        · subst hap
          rw [hprev, Option.some.injEq] at hb
          exact .inr ⟨hG.disj k hk l hl _ ha hp, hb.symm⟩
        · rw [hother a hap fun he => hnew k hk (he ▸ ha)] at hb
          exact .inl (.step ha hb)
      · rw [hself, ← hnext] at hb
        exact .inl (.step hp hb)
  · rw [hkl, hin]
    exact .step (hmono l hl prev hp) hprev

omit [LinearOrder K] in
theorem link (hl : l ≤ top) {prev new : IdxId} {next : Option IdxId}
    (hp : ix.Rights (hd l) prev) (hnext : (ix.nodes prev).right = next)
    (hnew : ∀ k ≤ top, ¬ ix.Rights (hd k) new) (hf : new < ix.fresh) (hlive : ix.live v new = true)
    (hzero : l = 0 → (ix.nodes new).down = none)
    (hsucc : ∀ k, l = k + 1 → ∃ j, (ix.nodes new).down = some j ∧ ix.Rights (hd k) j) :
    Grown v ((ix.setRight new next).setRight prev (some new)) top hd := by
  have hR := hG.rights_link hl hp hnext hnew
  have hre : Reright ix ((ix.setRight new next).setRight prev (some new)) [new, prev] :=
    ((Reright.setRight ix new next).mono (by simp)).trans
      ((Reright.setRight _ prev (some new)).mono (by simp))
  set ix' := (ix.setRight new next).setRight prev (some new)
  refine ⟨hG.headTop, hG.headBottom, fun l hl => ?_, fun l hl => ?_, fun l hl => ?_, fun i hi => ?_,
    fun k hk i hi => ?_, fun k hk i hi => ?_, fun k hk i hi => ?_, fun k hk k' hk' i hi hi' => ?_⟩
  · rw [hre.level, hG.level l hl]
  · rw [hre.down, hG.head_down l hl]
  · rw [hre.up, hG.head_up l hl]
  · rw [hre.down]
    rcases (hR 0 (Nat.zero_le _) i).1 hi with hi | ⟨hl0, rfl⟩
    · exact hG.bottom i hi
    · exact hzero hl0.symm
  · rw [hre.down]
    obtain ⟨j, hj, hrj⟩ : ∃ j, (ix.nodes i).down = some j ∧ ix.Rights (hd k) j := by
      rcases (hR (k + 1) hk i).1 hi with hi | ⟨hkl, rfl⟩
      · exact hG.down k hk i hi
      · exact hsucc k hkl.symm
    exact ⟨j, hj, (hR k hk.le j).2 (.inl hrj)⟩
  · rcases (hR k hk i).1 hi with hi | ⟨-, rfl⟩
    · exact hG.bound k hk i hi
    · exact hf
  · rw [hre.live]
    rcases (hR k hk i).1 hi with hi | ⟨-, rfl⟩
    · exact hG.live k hk i hi
    · exact hlive
  · rcases (hR k hk i).1 hi with h1 | ⟨hkl, rfl⟩ <;> rcases (hR k' hk' i).1 hi' with h2 | ⟨hkl', he⟩
    · exact hG.disj k hk k' hk' i h1 h2
    · exact absurd (he ▸ h1) (hnew k hk)
    · exact absurd h2 (hnew k' hk')
    · rw [hkl, hkl']

end Grown

variable (v) in
/-- A new level over the top one, of its head and the index node `r`. -/
structure Topped (ix ix' : Index) (top : Nat) (hd : Nat → IdxId) (r : IdxId) : Prop where
  grown : Grown v ix top hd
  headTop : ix'.headTop = ix.fresh
  headBottom : ix'.headBottom = ix.headBottom
  fresh : ix'.fresh = ix.fresh + 1
  head : ix'.nodes ix.fresh = { node := (ix.nodes (hd top)).node, down := some (hd top),
                                right := some r, level := top + 1 }
  hd_top : ix'.nodes (hd top) = { ix.nodes (hd top) with up := some ix.fresh }
  out : ∀ i < ix.fresh, i ≠ hd top → ix'.nodes i = ix.nodes i
  new : ∀ k ≤ top, ¬ ix.Rights (hd k) r
  lt_fresh : r < ix.fresh
  right_none : (ix.nodes r).right = none
  live : ix.live v r = true
  down : ∃ j, (ix.nodes r).down = some j ∧ ix.Rights (hd top) j

namespace Topped

variable {r : IdxId} {k : Nat} (hT : Topped v ix ix' top hd r)

include hT

omit [LinearOrder K]

theorem nodes_eq (hi : i < ix.fresh) : ix'.nodes i = { ix.nodes i with up := (ix'.nodes i).up } := by
  by_cases he : i = hd top
  · rw [he, hT.hd_top]
  · rw [hT.out i hi he]

theorem nodes_new : ix'.nodes r = ix.nodes r :=
  hT.out r hT.lt_fresh fun he => hT.new top le_rfl (he ▸ .refl)

/-- The levels that were there keep what they have. -/
theorem rights_iff (hk : k ≤ top) : ix'.Rights (hd k) i ↔ ix.Rights (hd k) i :=
  Rights.congr fun j hj => by rw [hT.nodes_eq (hT.grown.bound k hk j hj)]

theorem rights_fresh (hi : ix'.Rights ix.fresh i) : i = ix.fresh ∨ i = r := by
  induction hi with
  | refl => exact .inl rfl
  | step _ hj ih =>
    rcases ih with rfl | rfl
    · rw [hT.head] at hj
      exact .inr (Option.some.inj hj).symm
    · rw [hT.nodes_new, hT.right_none] at hj
      cases hj

/-- What is on the levels now. -/
theorem rights (hk : k ≤ top + 1) (hi : ix'.Rights (Function.update hd (top + 1) ix.fresh k) i) :
    k ≤ top ∧ ix.Rights (hd k) i ∨ k = top + 1 ∧ (i = ix.fresh ∨ i = r) := by
  rcases Nat.of_le_succ hk with hk | rfl
  · rw [Crown.hd_le hk] at hi
    exact .inl ⟨hk, (hT.rights_iff hk).1 hi⟩
  · rw [Function.update_self] at hi
    exact .inr ⟨rfl, hT.rights_fresh hi⟩

theorem head_up (hk : k ≤ top + 1) : (ix'.nodes (Function.update hd (top + 1) ix.fresh k)).up =
    if k + 1 ≤ top + 1 then some (Function.update hd (top + 1) ix.fresh (k + 1)) else none := by
  rcases Nat.of_le_succ hk with hk | rfl
  · rw [Crown.hd_le hk, if_pos (Nat.succ_le_succ hk)]
    rcases Nat.eq_or_lt_of_le hk with rfl | hlt
    · rw [hT.hd_top, Function.update_self]
    · have hne : hd k ≠ hd top := fun he => hlt.ne
        (hT.grown.disj k hk top le_rfl (hd k) .refl (he ▸ .refl))
      rw [hT.out _ (hT.grown.bound k hk _ .refl) hne, hT.grown.head_up k hk,
        if_pos (Nat.succ_le_of_lt hlt), Crown.hd_le hlt]
  · rw [Function.update_self, hT.head, if_neg (by omega)]

theorem down_rights (hk : k < top + 1)
    (hi : ix'.Rights (Function.update hd (top + 1) ix.fresh (k + 1)) i) :
    ∃ j, (ix'.nodes i).down = some j ∧
      ix'.Rights (Function.update hd (top + 1) ix.fresh k) j := by
  have hle : k ≤ top := Nat.le_of_lt_succ hk
  rw [Crown.hd_le hle]
  rcases hT.rights hk hi with ⟨hk', hi⟩ | ⟨he, rfl | rfl⟩
  · obtain ⟨j, hj, hrj⟩ := hT.grown.down k hk' i hi
    refine ⟨j, ?_, (hT.rights_iff hle).2 hrj⟩
    rw [hT.nodes_eq (hT.grown.bound _ hk' i hi)]
    exact hj
  · obtain rfl := Nat.succ.inj he
    exact ⟨hd k, by rw [hT.head], .refl⟩
  · obtain rfl := Nat.succ.inj he
    obtain ⟨j, hj, hrj⟩ := hT.down
    exact ⟨j, by rw [hT.nodes_new, hj], (hT.rights_iff le_rfl).2 hrj⟩

theorem live_rights (hk : k ≤ top + 1)
    (hi : ix'.Rights (Function.update hd (top + 1) ix.fresh k) i) : ix'.live v i = true := by
  rcases hT.rights hk hi with ⟨hk, hi⟩ | ⟨-, rfl | rfl⟩
  · rw [Index.live, hT.nodes_eq (hT.grown.bound k hk i hi)]
    exact hT.grown.live k hk i hi
  · rw [Index.live, hT.head]
    exact hT.grown.live top le_rfl _ .refl
  · rw [Index.live, hT.nodes_new]
    exact hT.live

theorem disj {l : Nat} (hk : k ≤ top + 1) (hl : l ≤ top + 1)
    (hi : ix'.Rights (Function.update hd (top + 1) ix.fresh k) i)
    (hi' : ix'.Rights (Function.update hd (top + 1) ix.fresh l) i) : k = l := by
  have old : ∀ {m}, m ≤ top → ix.Rights (hd m) i → ¬ (i = ix.fresh ∨ i = r) := fun hm hi he =>
    he.elim (hT.grown.bound _ hm _ hi).ne fun he => hT.new _ hm (he ▸ hi)
  rcases hT.rights hk hi with ⟨h1, hi⟩ | ⟨h1, hi⟩ <;>
    rcases hT.rights hl hi' with ⟨h2, hi'⟩ | ⟨h2, hi'⟩
  · exact hT.grown.disj k h1 l h2 i hi hi'
  · exact absurd hi' (old h1 hi)
  · exact absurd hi (old h2 hi')
  · rw [h1, h2]

/-- The index has one level more. -/
theorem raised : Grown v ix' (top + 1) (Function.update hd (top + 1) ix.fresh) where
  headTop := by rw [hT.headTop, Function.update_self]
  headBottom := by rw [hT.headBottom, Crown.hd_le (Nat.zero_le _), hT.grown.headBottom]
  level k hk := by
    rcases Nat.of_le_succ hk with hk | rfl
    · rw [Crown.hd_le hk, hT.nodes_eq (hT.grown.bound _ hk _ .refl)]
      exact hT.grown.level k hk
    · rw [Function.update_self, hT.head]
  head_down k hk := by
    rcases Nat.of_le_succ hk with hk | he
    · rw [Crown.hd_le hk, Crown.hd_le (Nat.le_of_succ_le hk),
        hT.nodes_eq (hT.grown.bound _ hk _ .refl)]
      exact hT.grown.head_down k hk
    · obtain rfl := Nat.succ.inj he
      rw [Function.update_self, Crown.hd_le le_rfl, hT.head]
  head_up k hk := hT.head_up hk
  bottom i hi := by
    rw [Crown.hd_le (Nat.zero_le _), hT.rights_iff (Nat.zero_le _)] at hi
    rw [hT.nodes_eq (hT.grown.bound 0 (Nat.zero_le _) i hi)]
    exact hT.grown.bottom i hi
  down k hk i hi := hT.down_rights hk hi
  bound k hk i hi := by
    rw [hT.fresh]
    rcases hT.rights hk hi with ⟨hk, hi⟩ | ⟨-, rfl | rfl⟩
    · exact Nat.lt_succ_of_lt (hT.grown.bound k hk i hi)
    · exact Nat.lt_succ_self _
    · exact Nat.lt_succ_of_lt hT.lt_fresh
  live k hk i hi := hT.live_rights hk hi
  disj k hk l hl i hi hi' := hT.disj hk hl hi hi'

end Topped

end Index

/-- The index nodes a call has made. -/
def AddPc.idxs : AddPc → List IdxId
  | .link x _ _ _ | .grow x | .casHead x _ => x.idxs
  | _ => []

namespace Growing

open Index

variable {K : Type} [LinearOrder K] {v : NodeView K} {ix ix' : Index} {top top' : Nat}
  {hd hd' : Nat → IdxId} {n hn : NodeId} {x : Insertion} {f : IdxId} {s s' : Growing K} {t : ThreadId}

/-- A call that has made its index nodes, which are numbered from `f` on, and has linked some. -/
structure Underway (ix : Index) (top : Nat) (hd : Nat → IdxId) (n : NodeId) (x : Insertion)
    (f : IdxId) : Prop where
  idxs : x.idxs = (List.range (x.level + 1)).map (f + ·)
  node : ∀ j ≤ x.level, (ix.nodes (f + j)).node = n
  bound : f + x.level < ix.fresh
  down_zero : (ix.nodes f).down = none
  down_succ : ∀ j < x.level, (ix.nodes (f + (j + 1))).down = some (f + j)
  length : x.points.length ≤ top + 1
  points : ∀ k p, x.points[k]? = some p → ix.Rights (hd k) p.1
  linked_le : x.linked ≤ x.points.length
  linked : ∀ j < x.linked, ix.Rights (hd j) (f + j)
  pending : ∀ j, x.linked ≤ j → j ≤ x.level →
    (ix.nodes (f + j)).right = none ∧ ∀ k ≤ top, ¬ ix.Rights (hd k) (f + j)

/-- What is known of a call between its steps. -/
def Call (ix : Index) (top : Nat) (hd : Nat → IdxId) (n : NodeId) : AddPc → Prop
  | .link x newNode prev next => ∃ f, Underway ix top hd n x f ∧ x.linked ≤ x.level ∧
      x.head = hd x.linked ∧ newNode = f + x.linked ∧ x.points[x.linked]? = some (prev, next)
  | .grow x => ∃ f, Underway ix top hd n x f
  | .casHead x head => ∃ f, Underway ix top hd n x f ∧ ∃ l ≤ top, head = hd l ∧ l < x.level ∧
      l ≤ x.linked
  | .search | .gaveUp | .returned => True
  | _ => False

/-- What a step does to the index: the levels keep what they have, and of the other index nodes those
outside of `I` stay off the levels. -/
structure Extends (ix ix' : Index) (top top' : Nat) (hd hd' : Nat → IdxId) (I : List IdxId) : Prop where
  fields : ∀ i < ix.fresh, (ix'.nodes i).node = (ix.nodes i).node ∧
    (ix'.nodes i).down = (ix.nodes i).down
  fresh : ix.fresh ≤ ix'.fresh
  higher : top ≤ top'
  heads : ∀ k ≤ top, hd' k = hd k
  rights : ∀ k ≤ top, ∀ i, ix.Rights (hd k) i → ix'.Rights (hd k) i
  rest : ∀ i < ix.fresh, i ∉ I → (∀ k ≤ top, ¬ ix.Rights (hd k) i) →
    (ix'.nodes i).right = (ix.nodes i).right ∧ ∀ k ≤ top', ¬ ix'.Rights (hd' k) i

theorem Extends.refl (ix : Index) (top : Nat) (hd : Nat → IdxId) : Extends ix ix top top hd hd [] :=
  ⟨fun _ _ => ⟨rfl, rfl⟩, le_rfl, le_rfl, fun _ _ => rfl, fun _ _ _ hi => hi, fun _ _ _ hi => ⟨rfl, hi⟩⟩

/-- A call after a step that has linked its nodes up to `k`. -/
theorem Underway.extends (h : Underway ix top hd n x f) {I : List IdxId}
    (hE : Extends ix ix' top top' hd hd' I) {k : Nat} (hk : x.linked ≤ k) (hk' : k ≤ x.points.length)
    (hI : ∀ j, k ≤ j → j ≤ x.level → f + j ∉ I) (hl : ∀ j < k, ix'.Rights (hd j) (f + j)) (y : IdxId) :
    Underway ix' top' hd' n { x with linked := k, head := y } f := by
  have hlt : ∀ j ≤ x.level, f + j < ix.fresh := fun j hj =>
    (Nat.add_le_add_left hj f).trans_lt h.bound
  have hat : ∀ {j}, j < x.points.length → hd' j = hd j := fun hj =>
    hE.heads _ (Nat.lt_succ_iff.1 (hj.trans_le h.length))
  refine ⟨h.idxs, fun j hj => ?_, h.bound.trans_le hE.fresh, ?_, fun j hj => ?_,
    h.length.trans (Nat.succ_le_succ hE.higher), fun j p hj => ?_, hk', fun j hj => ?_, fun j hj hj' => ?_⟩
  · rw [(hE.fields _ (hlt j hj)).1, h.node j hj]
  · rw [(hE.fields f (hlt 0 (Nat.zero_le _))).2, h.down_zero]
  · rw [(hE.fields _ (hlt (j + 1) hj)).2, h.down_succ j hj]
  · have hlen := (List.getElem?_eq_some_iff.1 hj).1
    rw [hat hlen]
    exact hE.rights j (Nat.lt_succ_iff.1 (hlen.trans_le h.length)) p.1 (h.points j p hj)
  · rw [hat (hj.trans_le hk')]
    exact hl j hj
  · obtain ⟨hr, hoff⟩ := h.pending j (hk.trans hj) hj'
    obtain ⟨hr', hoff'⟩ := hE.rest _ (hlt j hj') (hI j hj hj') hoff
    exact ⟨hr'.trans hr, hoff'⟩

theorem Underway.mem (h : Underway ix top hd n x f) {j : Nat} (hj : j ≤ x.level) : f + j ∈ x.idxs := by
  rw [h.idxs]
  exact List.mem_map.2 ⟨j, List.mem_range.2 (Nat.lt_succ_of_le hj), rfl⟩

theorem Underway.getElem (h : Underway ix top hd n x f) {j : Nat} (hj : j ≤ x.level) :
    x.idxs[j]? = some (f + j) := by
  rw [h.idxs, List.getElem?_map, List.getElem?_range (Nat.lt_succ_of_le hj), Option.map_some]

theorem Underway.lt (h : Underway ix top hd n x f) {i : IdxId} (hi : i ∈ x.idxs) : i < ix.fresh := by
  rw [h.idxs] at hi
  obtain ⟨j, hj, rfl⟩ := List.mem_map.1 hi
  exact (Nat.add_le_add_left (Nat.lt_succ_iff.1 (List.mem_range.1 hj)) f).trans_lt h.bound

/-- A call after another one's step. -/
theorem Underway.other (h : Underway ix top hd n x f) {I : List IdxId}
    (hE : Extends ix ix' top top' hd hd' I) (hI : List.Disjoint x.idxs I) :
    Underway ix' top' hd' n x f :=
  h.extends hE le_rfl h.linked_le (fun _ _ hj hi => hI (h.mem hj) hi)
    (fun j hj => hE.rights j (Nat.lt_succ_iff.1 ((hj.trans_le h.linked_le).trans_le h.length)) _
      (h.linked j hj)) x.head

theorem Call.other {k : AddPc} (h : Call ix top hd n k) {I : List IdxId}
    (hE : Extends ix ix' top top' hd hd' I) (hI : List.Disjoint k.idxs I) : Call ix' top' hd' n k := by
  cases k with
  | link x i prev next =>
    obtain ⟨f, hU, hle, hx, hi, hp⟩ := h
    have hlen := (List.getElem?_eq_some_iff.1 hp).1
    refine ⟨f, hU.other hE hI, hle, ?_, hi, hp⟩
    rw [hx, hE.heads _ (Nat.lt_succ_iff.1 (hlen.trans_le hU.length))]
  | grow x =>
    obtain ⟨f, hU⟩ := h
    exact ⟨f, hU.other hE hI⟩
  | casHead x head =>
    obtain ⟨f, hU, l, hl, hx, hlt, hle⟩ := h
    exact ⟨f, hU.other hE hI, l, hl.trans hE.higher, by rw [hx, hE.heads l hl], hlt, hle⟩
  | search | gaveUp | returned => trivial
  | _ => exact h

theorem Call.lt {k : AddPc} (h : Call ix top hd n k) {i : IdxId} (hi : i ∈ k.idxs) : i < ix.fresh := by
  cases k with
  | link x i prev next =>
    obtain ⟨f, hU, -⟩ := h
    exact hU.lt hi
  | grow x =>
    obtain ⟨f, hU⟩ := h
    exact hU.lt hi
  | casHead x head =>
    obtain ⟨f, hU, -⟩ := h
    exact hU.lt hi
  | _ => cases hi

omit [LinearOrder K] in
/-- The head of the loop of `add`, with the head of the level it has come to. -/
theorem call_loop (hG : Grown v ix top hd) (hU : Underway ix top hd n x f) {o : Option IdxId}
    (ho : o = if x.linked ≤ top then some (hd x.linked) else none) {k : AddPc}
    (hk : AddPc.loop ix x o = some k) : Call ix top hd n k ∧ k.idxs ⊆ x.idxs := by
  have hend : ∀ {k' : AddPc}, k' = (if x.linked = x.level + 1 then .returned else .grow x) →
      Call ix top hd n k' ∧ k'.idxs ⊆ x.idxs := by
    rintro k' rfl
    split_ifs
    · exact ⟨trivial, List.nil_subset _⟩
    · exact ⟨⟨f, hU⟩, List.Subset.refl _⟩
  unfold AddPc.loop at hk
  split at hk
  · exact hend (Option.some.inj hk).symm
  · rename_i head
    dsimp only at hk
    by_cases hle : x.linked ≤ top
    · rw [if_pos hle, Option.some.injEq] at ho
      subst ho
      rw [hG.level _ hle] at hk
      split_ifs at hk with hcond
      · rw [hU.getElem (Nat.lt_succ_iff.1 hcond.1), List.getElem?_eq_getElem hcond.2] at hk
        obtain rfl := Option.some.inj hk
        refine ⟨⟨f, ?_, Nat.lt_succ_iff.1 hcond.1, rfl, rfl, List.getElem?_eq_getElem hcond.2⟩,
          List.Subset.refl _⟩
        exact hU.extends (.refl ix top hd) le_rfl hU.linked_le (by simp) hU.linked _
      · exact hend (by rw [if_pos ‹_›]; exact (Option.some.inj hk).symm)
      · exact hend (by rw [if_neg ‹_›]; exact (Option.some.inj hk).symm)
    · rw [if_neg hle] at ho
      cases ho

/-- The invariant. -/
structure Inv (v : NodeView K) (s : Growing K) (top : Nat) (hd : Nat → IdxId) : Prop where
  grown : Grown v s.index top hd
  live : ∀ t, (s.pc t).isDone = false → v.live (s.node t) = true
  call : ∀ t, Call s.index top hd (s.node t) (s.pc t)
  apart : ∀ t u, t ≠ u → List.Disjoint (s.pc t).idxs (s.pc u).idxs

omit [LinearOrder K] in
/-- A step of one call. -/
theorem Inv.go (h : Inv v s top hd) {k : AddPc} {I : List IdxId} (hG : Grown v ix' top' hd')
    (hE : Extends s.index ix' top top' hd hd' I) (hI : ∀ i ∈ I, i ∈ (s.pc t).idxs)
    (hk : Call ix' top' hd' (s.node t) k)
    (hidx : ∀ i ∈ k.idxs, i ∈ (s.pc t).idxs ∨ s.index.fresh ≤ i)
    (hdone : k.isDone = false → (s.pc t).isDone = false) :
    Inv v { s with index := ix', pc := Function.update s.pc t k } top' hd' := by
  have happart : ∀ u, u ≠ t → List.Disjoint k.idxs (s.pc u).idxs := by
    intro u hu i hi hi'
    rcases hidx i hi with hi | hi
    · exact h.apart t u hu.symm hi hi'
    · exact absurd ((h.call u).lt hi') (Nat.not_lt.2 hi)
  refine ⟨hG, fun u hu => ?_, fun u => ?_, fun u w huw => ?_⟩
  · by_cases hut : u = t
    · subst hut
      simp only [Function.update_self] at hu
      exact h.live u (hdone hu)
    · simp only [Function.update_of_ne hut] at hu
      exact h.live u hu
  · by_cases hut : u = t
    · subst hut
      simpa only [Function.update_self] using hk
    · simp only [Function.update_of_ne hut]
      exact (h.call u).other hE fun i hi hi' => h.apart u t hut hi (hI i hi')
  · by_cases hut : u = t
    · subst hut
      simp only [Function.update_self, Function.update_of_ne huw.symm]
      exact happart w huw.symm
    · by_cases hwt : w = t
      · subst hwt
        simp only [Function.update_self, Function.update_of_ne hut]
        exact (happart u hut).symm
      · simp only [Function.update_of_ne hut, Function.update_of_ne hwt]
        exact h.apart u w huw

omit [LinearOrder K] in
/-- An index in which the nodes below `fresh` are as they were but for pointers right of nodes that are on
no level. -/
theorem Extends.of_off (hG : Grown v ix top hd) {I : List IdxId} (hf : ix.fresh ≤ ix'.fresh)
    (hn : ∀ i < ix.fresh, i ∉ I → ix'.nodes i = ix.nodes i)
    (hI : ∀ i ∈ I, (∀ k ≤ top, ¬ ix.Rights (hd k) i) ∧ (ix'.nodes i).node = (ix.nodes i).node ∧
      (ix'.nodes i).down = (ix.nodes i).down)
    (ht : ix'.headTop = ix.headTop) (hb : ix'.headBottom = ix.headBottom) :
    Grown v ix' top hd ∧ Extends ix ix' top top hd hd I := by
  have hon : ∀ k ≤ top, ∀ i, ix.Rights (hd k) i → ix'.nodes i = ix.nodes i := fun k hk i hi =>
    hn i (hG.bound k hk i hi) fun hi' => (hI i hi').1 k hk hi
  have hR : ∀ k ≤ top, ∀ i, ix'.Rights (hd k) i ↔ ix.Rights (hd k) i := fun k hk i =>
    Rights.congr fun j hj => by rw [hon k hk j hj]
  refine ⟨hG.congr hon hf ht hb, fun i hi => ?_, hf, le_rfl, fun _ _ => rfl,
    fun k hk i hi => (hR k hk i).2 hi, fun i hi hi' hoff => ⟨by rw [hn i hi hi'], fun k hk hc =>
      hoff k hk ((hR k hk i).1 hc)⟩⟩
  by_cases hi' : i ∈ I
  · exact (hI i hi').2
  · rw [hn i hi hi']
    exact ⟨rfl, rfl⟩

/-- `findInsertionPoints` and the new index nodes. -/
theorem Inv.search (h : Inv v s top hd) (hpc : s.pc t = .search) {fuel drawn : Nat} {k : AddPc}
    (hs : AddPc.bigStep v s.index (s.node t) fuel drawn .search = some (ix', k)) :
    Inv v { s with index := ix', pc := Function.update s.pc t k } top hd := by
  simp only [AddPc.bigStep] at hs
  split at hs
  · cases hs
  rename_i ix₁ points hf
  obtain ⟨he, hlen, hpts⟩ := h.grown.findInsertionPoints hf
  rw [he] at hs
  set level := min drawn (points.length + 1)
  obtain ⟨h1, h2, h3, h4, h5, h6, h7⟩ := createNewIndexNodes_spec (s.node t) (level + 1) none s.index
  set made := s.index.createNewIndexNodes (s.node t) (level + 1) none
  obtain ⟨k', hloop, hk'⟩ := Option.map_eq_some_iff.1 hs
  cases hk'
  obtain ⟨hG, hE⟩ := Extends.of_off h.grown (I := []) (by omega) (fun i hi _ => h5 i hi)
    (fun i hi => absurd hi List.not_mem_nil) h3 h4
  have hnode : ∀ j ≤ level, (made.1.nodes (s.index.fresh + j)).node = s.node t ∧
      (made.1.nodes (s.index.fresh + j)).right = none := by
    intro j hj
    rcases j with _ | j
    · rw [Nat.add_zero, h6 (Nat.succ_pos _)]
      exact ⟨rfl, rfl⟩
    · rw [h7 j (Nat.succ_lt_succ hj)]
      exact ⟨rfl, rfl⟩
  have hU : Underway made.1 top hd (s.node t)
      ⟨points, level, made.2, made.1.headBottom, 0⟩ s.index.fresh := by
    refine ⟨h1, fun j hj => (hnode j hj).1, by rw [h2]; exact Nat.lt_succ_self _, ?_, fun j hj => ?_,
      hlen.le, fun j p hj => ?_, Nat.zero_le _, fun j hj => absurd hj (Nat.not_lt_zero j),
      fun j _ hj => ⟨(hnode j hj).2, fun l hl hc => ?_⟩⟩
    · rw [h6 (Nat.succ_pos _)]
    · rw [h7 j (Nat.succ_lt_succ hj)]
    · have hj' := (List.getElem?_eq_some_iff.1 hj).1
      exact hE.rights j (Nat.lt_succ_iff.1 (hj'.trans_le hlen.le)) p.1 (hpts j p hj)
    · have hR := (Rights.congr fun i hi => by
        rw [h5 i (h.grown.bound l hl i hi)]).1 hc
      exact absurd (h.grown.bound l hl _ hR) (Nat.not_lt.2 (Nat.le_add_right _ _))
  obtain ⟨hk, hidx⟩ := call_loop hG hU (by rw [if_pos (Nat.zero_le _), hG.headBottom]) hloop
  refine h.go (I := []) hG hE (by simp) hk (fun i hi => .inr ?_) fun _ => by rw [hpc]; rfl
  have hi : i ∈ made.2 := hidx hi
  rw [h1] at hi
  obtain ⟨j, -, rfl⟩ := List.mem_map.1 hi
  exact Nat.le_add_right _ _

/-- A link of an index node whose list node is alive, behind one that is alive. -/
theorem insertInLevel_live {fuel : Nat} {new head prev : IdxId} {next : Option IdxId} {b : Bool}
    (hp : ix.live v prev = true) (hl : ix.live v new = true) (hne : prev ≠ new) : ∀ {k : Nat},
    insertInLevel v fuel new head k ix prev next = some (ix', b) →
      (b = true ∧ (ix.nodes prev).right = next ∧
        ix' = (ix.setRight new next).setRight prev (some new)) ∨
      b = false ∧ ix' = ix.setRight new next
  | 0, hr => by cases hr
  | k + 1, hr => by
    have hlive : ∀ i, (ix.setRight new next).live v i = ix.live v i :=
      (Reright.setRight ix new next).live v
    have hright : ((ix.setRight new next).nodes prev).right = (ix.nodes prev).right :=
      setRight_right_ne _ _ hne
    simp only [insertInLevel, Index.link, hlive, hp, if_true, casRight, hright] at hr
    by_cases hr' : (ix.nodes prev).right = next
    · simp only [hr', if_true] at hr
      cases hr
      exact .inl ⟨rfl, hr', rfl⟩
    · simp only [hr', if_false, hlive, hl, if_true] at hr
      cases hr
      exact .inr ⟨rfl, rfl⟩

/-- The link on a level. -/
theorem Inv.link (h : Inv v s top hd) {x : Insertion} {newNode prev : IdxId} {next : Option IdxId}
    (hpc : s.pc t = .link x newNode prev next) {fuel drawn : Nat} {k : AddPc}
    (hs : AddPc.bigStep v s.index (s.node t) fuel drawn (.link x newNode prev next) = some (ix', k)) :
    Inv v { s with index := ix', pc := Function.update s.pc t k } top hd := by
  have hcall := h.call t
  rw [hpc] at hcall
  obtain ⟨f, hU, hle, hx, rfl, hpt⟩ := hcall
  have hlen := (List.getElem?_eq_some_iff.1 hpt).1
  have htop : x.linked ≤ top := Nat.lt_succ_iff.1 (hlen.trans_le hU.length)
  have hprev := hU.points _ _ hpt
  obtain ⟨hright, hoff⟩ := hU.pending x.linked le_rfl hle
  have hne : prev ≠ f + x.linked := fun he => hoff _ htop (he ▸ hprev)
  have hnew : f + x.linked < s.index.fresh := hU.lt (hU.mem hle)
  have hlive : s.index.live v (f + x.linked) = true := by
    rw [Index.live, hU.node _ hle]
    exact h.live t (by rw [hpc]; rfl)
  have hmem : ∀ i ∈ [f + x.linked], i ∈ (s.pc t).idxs := by
    intro i hi
    rw [hpc, List.mem_singleton.1 hi]
    exact hU.mem hle
  have hopen : (s.pc t).isDone = false := by rw [hpc]; rfl
  simp only [AddPc.bigStep] at hs
  split at hs
  · cases hs
  · -- the place has changed, and `add` gives up
    rename_i ix₁ hins
    cases hs
    rcases insertInLevel_live (h.grown.live _ htop _ hprev) hlive hne hins with ⟨hb, -⟩ | ⟨-, rfl⟩
    · cases hb
    have hre := Reright.setRight s.index (f + x.linked) next
    obtain ⟨hG, hE⟩ := Extends.of_off h.grown hre.fresh.ge (fun i _ => hre.out i) (fun i hi => by
      rw [List.mem_singleton.1 hi]
      exact ⟨hoff, hre.node _, hre.down _⟩) hre.headTop hre.headBottom
    exact h.go hG hE hmem trivial (fun i hi => by cases hi) fun _ => hopen
  · rename_i ix₁ hins
    rcases insertInLevel_live (h.grown.live _ htop _ hprev) hlive hne hins with ⟨-, hnext, rfl⟩ | ⟨hb, -⟩
    swap
    · cases hb
    obtain ⟨k', hloop, hk'⟩ := Option.map_eq_some_iff.1 hs
    cases hk'
    have hG := h.grown.link htop hprev hnext hoff hnew hlive (fun h0 => by
        rw [h0]
        exact hU.down_zero)
      fun j hj => ⟨f + j, by rw [hj]; exact hU.down_succ j (by omega), hU.linked j (by omega)⟩
    have hR := h.grown.rights_link htop hprev hnext hoff
    have hre : Reright s.index ((s.index.setRight (f + x.linked) next).setRight prev
        (some (f + x.linked))) [f + x.linked, prev] :=
      ((Reright.setRight s.index _ next).mono (by simp)).trans
        ((Reright.setRight _ prev (some (f + x.linked))).mono (by simp))
    have hE : Extends s.index ((s.index.setRight (f + x.linked) next).setRight prev
        (some (f + x.linked))) top top hd hd [f + x.linked] := by
      refine ⟨fun i _ => ⟨hre.node i, hre.down i⟩, le_rfl, le_rfl, fun _ _ => rfl,
        fun k hk i hi => (hR k hk i).2 (.inl hi), fun i hi hi' hout => ⟨?_, fun k hk hc => ?_⟩⟩
      · have hip : i ≠ prev := fun he => hout _ htop (he ▸ hprev)
        rw [setRight_right_ne _ _ hip, setRight_right_ne _ _ (by simpa using hi')]
      · rcases (hR k hk i).1 hc with hc | ⟨-, rfl⟩
        · exact hout k hk hc
        · exact hi' (List.mem_singleton_self _)
    have hU' := hU.extends hE (Nat.le_succ x.linked) hlen (fun j hj _ hj' => by
        have := Nat.add_left_cancel (List.mem_singleton.1 hj')
        omega)
      (fun j hj => by
        rcases Nat.lt_succ_iff_lt_or_eq.1 hj with hj | rfl
        · exact (hR j (hj.le.trans htop) _).2 (.inl (hU.linked j hj))
        · exact (hR _ htop _).2 (.inr ⟨rfl, rfl⟩)) x.head
    obtain ⟨hk, hidx⟩ := call_loop hG hU' (by rw [hx, hre.up]; exact h.grown.head_up _ htop) hloop
    exact h.go hG hE hmem hk (fun i hi => .inl (by rw [hpc]; exact hidx hi)) fun _ => hopen

/-- The read of `m_head_top`. -/
theorem Inv.readTop (h : Inv v s top hd) {x : Insertion} (hpc : s.pc t = .grow x) {fuel drawn : Nat}
    {k : AddPc} (hs : AddPc.bigStep v s.index (s.node t) fuel drawn (.grow x) = some (ix', k)) :
    Inv v { s with index := ix', pc := Function.update s.pc t k } top hd := by
  have hcall := h.call t
  rw [hpc] at hcall
  obtain ⟨f, hU⟩ := hcall
  have hopen : (s.pc t).isDone = false := by rw [hpc]; rfl
  simp only [AddPc.bigStep, AddPc.step, h.grown.headTop, h.grown.level top le_rfl] at hs
  cases hs
  split_ifs with hgt hlt
  · exact h.go h.grown (.refl _ _ _) (by simp) trivial (fun i hi => by cases hi) fun _ => hopen
  · refine h.go h.grown (.refl _ _ _) (by simp) ⟨f, hU, top, le_rfl, rfl, hlt, Nat.not_lt.1 hgt⟩
      (fun i hi => .inl ?_) fun _ => hopen
    rw [hpc]
    exact hi
  · exact h.go h.grown (.refl _ _ _) (by simp) trivial (fun i hi => by cases hi) fun _ => hopen

/-- `casHead`. -/
theorem Inv.casHead (h : Inv v s top hd) {x : Insertion} {head : IdxId}
    (hpc : s.pc t = .casHead x head) (hT : s.index.headTop = head → (s.index.nodes head).level < x.linked)
    {fuel drawn : Nat} {k : AddPc}
    (hs : AddPc.bigStep v s.index (s.node t) fuel drawn (.casHead x head) = some (ix', k)) :
    ∃ top' hd', Inv v { s with index := ix', pc := Function.update s.pc t k } top' hd' := by
  have hcall := h.call t
  rw [hpc] at hcall
  obtain ⟨f, hU, l, hl, rfl, hlt, -⟩ := hcall
  have hopen : (s.pc t).isDone = false := by rw [hpc]; rfl
  rw [h.grown.level l hl] at hT
  have hne : s.index.fresh ≠ hd l := (h.grown.bound l hl _ .refl).ne'
  simp only [AddPc.bigStep, AddPc.step, h.grown.level l hl, hU.getElem hlt] at hs
  obtain ⟨⟨ix₁, b⟩, hcas, hk'⟩ := Option.map_eq_some_iff.1 hs
  cases hk'
  by_cases htop : s.index.headTop = hd l
  · -- the top level is the one the call has seen
    have hlt' := hT htop
    obtain rfl : l = top := h.grown.disj l hl top le_rfl (hd l) .refl
      (by rw [← htop, h.grown.headTop]; exact .refl)
    have hlinked : x.linked = l + 1 :=
      le_antisymm (hU.linked_le.trans hU.length) hlt'
    obtain ⟨hright, hoff⟩ := hU.pending (l + 1) hlinked.le hlt
    have hmem := hU.mem (show l + 1 ≤ x.level from hlt)
    have hr : f + (l + 1) < s.index.fresh := hU.lt hmem
    simp only [Index.casHead, setNode, htop, if_true, Function.update_self, setUp, and_self,
      Option.some.injEq, Prod.mk.injEq] at hcas
    obtain ⟨he, -⟩ := hcas
    have hnodes : ∀ i < s.index.fresh, i ≠ hd l → ix₁.nodes i = s.index.nodes i := fun i hi hi' => by
      rw [← he]
      simp [Function.update_of_ne hi', Function.update_of_ne hi.ne]
    have hup : ix₁.nodes (hd l) = { s.index.nodes (hd l) with up := some s.index.fresh } := by
      rw [← he]
      simp [Function.update_of_ne hne.symm]
    have hT : Topped v s.index ix₁ l hd (f + (l + 1)) := by
      refine ⟨h.grown, ?_, ?_, ?_, ?_, hup, hnodes, hoff, hr, hright, ?_, f + l,
        hU.down_succ l hlt, hU.linked l (by omega)⟩
      · rw [← he]
      · rw [← he]
      · rw [← he]
      · rw [← he]
        simp [Function.update_of_ne hne]
      · rw [Index.live, hU.node _ hlt]
        exact h.live t hopen
    have hfresh : s.index.fresh ≤ ix₁.fresh := by
      rw [← he]
      exact Nat.le_succ _
    refine ⟨l + 1, _, h.go (I := [f + (l + 1)]) hT.raised ⟨fun i hi => ?_, hfresh, Nat.le_succ l,
      fun k hk => Crown.hd_le hk, fun k hk i hi => (hT.rights_iff hk).2 hi,
      fun i hi hi' hout => ⟨?_, fun k hk hc => ?_⟩⟩ (fun i hi => ?_) trivial (fun i hi => by cases hi)
      fun _ => hopen⟩
    · by_cases hil : i = hd l
      · rw [hil, hup]
        exact ⟨rfl, rfl⟩
      · rw [hnodes i hi hil]
        exact ⟨rfl, rfl⟩
    · rw [hnodes i hi fun he => hout l le_rfl (he ▸ .refl)]
    · rcases hT.rights hk hc with ⟨hk, hc⟩ | ⟨-, rfl | rfl⟩
      · exact hout k hk hc
      · exact lt_irrefl _ hi
      · exact hi' (List.mem_singleton_self _)
    · rw [hpc, List.mem_singleton.1 hi]
      exact hmem
  · -- another call has put a level on top
    simp only [Index.casHead, setNode, htop, if_false, Option.some.injEq, Prod.mk.injEq] at hcas
    obtain ⟨he, -⟩ := hcas
    have hoff : Grown v ix₁ top hd ∧ Extends s.index ix₁ top top hd hd [] := by
      rw [← he]
      exact Extends.of_off h.grown (Nat.le_succ _) (fun i hi _ => Function.update_of_ne hi.ne _ _)
        (fun i hi => absurd hi List.not_mem_nil) rfl rfl
    obtain ⟨hG, hE⟩ := hoff
    exact ⟨top, hd, h.go hG hE (by simp) trivial (fun i hi => by cases hi) fun _ => hopen⟩

theorem Inv.step (h : Inv v s top hd) (hT : s.TopLinked t) (hs : s.Step v t s') :
    ∃ top' hd', Inv v s' top' hd' := by
  cases hs with
  | @call n hdone hlive =>
    refine ⟨top, hd, h.grown, fun u hu => ?_, fun u => ?_, fun u w huw => ?_⟩
    · by_cases hut : u = t
      · subst hut
        simpa only [Function.update_self] using hlive
      · simp only [Function.update_of_ne hut] at hu ⊢
        exact h.live u hu
    · by_cases hut : u = t
      · subst hut
        simp only [Function.update_self]
        trivial
      · simp only [Function.update_of_ne hut]
        exact h.call u
    · by_cases hut : u = t
      · subst hut
        simp [AddPc.idxs]
      · by_cases hwt : w = t
        · subst hwt
          simp [AddPc.idxs]
        · simp only [Function.update_of_ne hut, Function.update_of_ne hwt]
          exact h.apart u w huw
  | @go fuel drawn ix k hgo =>
    have hcall := h.call t
    rcases hpc : s.pc t <;> rw [hpc] at hgo hcall <;> try exact hcall.elim
    · exact ⟨top, hd, h.search hpc hgo⟩
    · exact ⟨top, hd, h.link hpc hgo⟩
    · exact ⟨top, hd, h.readTop hpc hgo⟩
    · exact h.casHead hpc (by simpa only [TopLinked, AddPc.TopLinked, hpc] using hT) hgo
    · cases hgo
    · cases hgo

omit [LinearOrder K] in
theorem Inv.init (hlive : v.live hn = true) : Inv v (init hn) 0 fun _ => 0 := by
  have hR : ∀ i, (Index.new hn).Rights 0 i → i = 0 := by
    intro i hi
    induction hi with
    | refl => rfl
    | step _ hj _ => cases hj
  refine ⟨⟨rfl, rfl, fun l hl => (Nat.le_zero.1 hl).symm, fun l hl => absurd hl (Nat.not_lt_zero l),
    fun l _ => ?_, fun i _ => rfl, fun l hl => absurd hl (Nat.not_lt_zero l), fun l _ i hi => ?_,
    fun _ _ _ _ => hlive, fun l hl l' hl' _ _ _ => (Nat.le_zero.1 hl).trans (Nat.le_zero.1 hl').symm⟩,
    fun t ht => absurd ht Bool.true_eq_false.mp, fun t => trivial, fun t u _ i hi => ?_⟩
  · rw [if_neg (by omega)]
    rfl
  · rw [hR i hi]
    exact Nat.zero_lt_one
  · cases hi

/-- In every run in which a call puts a level on top only when it has linked its node on the top level,
index nodes point down into their levels. -/
theorem Reach.points_down (hlive : v.live hn = true) (h : Reach TopLinked hn v s) : s.index.Nested := by
  obtain ⟨top, hd, hI⟩ : ∃ top hd, Inv v s top hd := by
    induction h with
    | init => exact ⟨0, _, Inv.init hlive⟩
    | step _ hG hs ih =>
      obtain ⟨top, hd, hI⟩ := ih
      exact hI.step hG hs
  exact hI.grown.nested

/-! ## Concrete runs -/

instance (ix : Index) : (k : AddPc) → Decidable (k.TopLinked ix)
  | .casHead x head =>
    inferInstanceAs (Decidable (ix.headTop = head → (ix.nodes head).level < x.linked))
  | .search | .enter _ | .walk _ _ | .look _ _ _ | .unlinkTest _ _ _ | .unlinkRead _ _ _
  | .unlinkCas _ _ _ _ | .walked _ _ _ | .create _ | .link _ _ _ _ | .linkTest _ _ _ _
  | .linkCas _ _ _ _ | .linkFailed _ _ | .linked _ | .grow _ | .gaveUp | .returned => isTrue trivial

instance (s : Growing K) (t : ThreadId) : Decidable (s.TopLinked t) :=
  inferInstanceAs (Decidable ((s.pc t).TopLinked s.index))

/-- Thread `t` calls `add` for a node, if one is given, or takes a step that draws `drawn`. -/
def move (v : NodeView K) (s : Growing K) (t : ThreadId) (o : Option NodeId) (drawn : Nat) :
    Option (Growing K) :=
  if o.isSome then
    if (s.pc t).isDone = true ∧ v.live (o.getD 0) = true then
      some { s with node := Function.update s.node t (o.getD 0)
                    pc := Function.update s.pc t .search }
    else none
  else ((s.pc t).bigStep v s.index (s.node t) 9 drawn).map fun y =>
    { s with index := y.1, pc := Function.update s.pc t y.2 }

theorem move_step {o : Option NodeId} {drawn : Nat} (h : s.move v t o drawn = some s') :
    s.Step v t s' := by
  unfold move at h
  split_ifs at h with ho hc
  · cases h
    exact .call hc.1 hc.2
  · obtain ⟨⟨ix, k⟩, hb, rfl⟩ := Option.map_eq_some_iff.1 h
    exact .go hb

/-- Make the moves in turn, as long as `G` allows them. -/
def play (v : NodeView K) (G : Growing K → ThreadId → Prop) [∀ s t, Decidable (G s t)] :
    Growing K → List (ThreadId × Option NodeId × Nat) → Option (Growing K)
  | s, [] => some s
  | s, (t, o, drawn) :: mvs =>
    if G s t then (s.move v t o drawn).bind fun s' => play v G s' mvs else none

theorem Reach.play {G : Growing K → ThreadId → Prop} [∀ s t, Decidable (G s t)] :
    ∀ (mvs : List (ThreadId × Option NodeId × Nat)) {s s' : Growing K}, Reach G hn v s →
      Growing.play v G s mvs = some s' → Reach G hn v s'
  | [], _, _, hr, h => by
    rw [Growing.play, Option.some.injEq] at h
    exact h ▸ hr
  | (t, o, drawn) :: mvs, s, s', hr, h => by
    rw [Growing.play] at h
    split_ifs at h with hG
    obtain ⟨s₁, hs, h⟩ := Option.bind_eq_some_iff.1 h
    exact Reach.play mvs (.step hr hG (move_step hs)) h

theorem exists_reach (v : NodeView K) (hn : NodeId) (G : Growing K → ThreadId → Prop)
    [∀ s t, Decidable (G s t)] (mvs : List (ThreadId × Option NodeId × Nat)) (p : Growing K → Bool)
    (h : (play v G (Growing.init hn) mvs).any p = true) : ∃ s, Reach G hn v s ∧ p s = true := by
  rcases hs : play v G (Growing.init hn) mvs with _ | s
  · simp [hs] at h
  · exact ⟨s, Reach.play mvs .init hs, by simpa [hs] using h⟩

/-- Thread `0` puts a level on top. Between its steps thread `1` adds node `7` behind node `5`. -/
theorem points_down_grown : ∃ s : Growing Nat, (s.index.nodes s.index.headTop).level = 1 ∧
    s.pc 1 = .returned ∧ s.node 1 = 7 ∧ s.index.Nested := by
  obtain ⟨s, hr, hp⟩ := exists_reach Adding.numbered 0 TopLinked
    [(0, some 5, 0), (0, none, 2), (1, some 7, 0), (0, none, 0), (1, none, 0), (0, none, 0),
      (1, none, 0), (0, none, 0)]
    (fun s => (s.index.nodes s.index.headTop).level = 1 ∧ s.pc 1 = .returned ∧ s.node 1 = 7) (by decide)
  obtain ⟨hlevel, hpc, hnode⟩ :
      (s.index.nodes s.index.headTop).level = 1 ∧ s.pc 1 = .returned ∧ s.node 1 = 7 := by
    simpa using hp
  exact ⟨s, hlevel, hpc, hnode, Reach.points_down rfl hr⟩

/-- The level below the top one holds one index node, and the top level's points down past it. -/
def skips (ix : Index) : Bool :=
  let h' := ((ix.nodes ix.headTop).down).getD 0
  let i := ((ix.nodes ix.headTop).right).getD 0
  let c := ((ix.nodes h').right).getD 0
  (ix.nodes ix.headTop).down = some h' && (ix.nodes ix.headTop).right = some i &&
    (ix.nodes h').right = some c && (ix.nodes c).right = none &&
    (ix.nodes ix.headTop).level = (ix.nodes h').level + 1 &&
    (ix.nodes i).down != some h' && (ix.nodes i).down != some c

theorem not_nested_of_skips (h : skips ix = true) : ¬ ix.Nested := by
  simp only [skips, Bool.and_eq_true, decide_eq_true_eq, bne_iff_ne, ne_eq] at h
  obtain ⟨⟨⟨⟨⟨⟨hdown, hright⟩, hc⟩, hnone⟩, hlevel⟩, h1⟩, h2⟩ := h
  intro hN
  obtain ⟨j, hj, hR⟩ := hN _ _ .top (.down .top hdown) hlevel _ (.step .refl hright)
  have hmem : ∀ k, ix.Rights (((ix.nodes ix.headTop).down).getD 0) k →
      k = ((ix.nodes ix.headTop).down).getD 0 ∨
        k = ((ix.nodes (((ix.nodes ix.headTop).down).getD 0)).right).getD 0 := by
    intro k hk
    induction hk with
    | refl => exact .inl rfl
    | step _ hk' ih =>
      rcases ih with rfl | rfl
      · rw [hc, Option.some.injEq] at hk'
        exact .inr hk'.symm
      · rw [hnone] at hk'
        cases hk'
  rcases hmem j hR with rfl | rfl
  · exact h1 hj
  · exact h2 hj

/-- Two calls see one level. The first links node `5` there and draws level `2`; the second adds node `3`
with a level of its own on top; then the first puts another level on top, in which node `5` points down to
an index node that is on no level. -/
theorem points_off_level :
    ¬ ∀ s : Growing Nat, Reach (fun _ _ => True) 0 Adding.numbered s → s.index.Nested := by
  intro h
  obtain ⟨s, hr, hp⟩ := exists_reach Adding.numbered 0 (fun _ _ => True)
    [(0, some 5, 0), (0, none, 2), (0, none, 0), (1, some 3, 0), (1, none, 1), (1, none, 0),
      (1, none, 0), (1, none, 0), (0, none, 0), (0, none, 0)] (fun s => skips s.index) (by decide)
  exact not_nested_of_skips hp (h s hr)

end Growing

end TxList
