import TxList.IndexAdd

/-!
# When `add` links its node

As long as every link of the call succeeds at once, the call does not give its node up, and the first
link is that on level `0`. A link that fails makes `insert_in_level` give up a node that holds its value:
the test that should stop it for a node being deleted is the wrong way round.
-/

namespace TxList

namespace Index

variable {ix ix' : Index}

/-- The bottom head is an index node that is in use, of level `0`. -/
def Grounded (ix : Index) : Prop :=
  ix.headBottom < ix.fresh ∧ (ix.nodes ix.headBottom).level = 0

theorem Grounded.setNode (h : ix.Grounded) {i : IdxId} {x : IndexNode}
    (hx : i = ix.headBottom → x.level = 0) : (ix.setNode i x).Grounded := by
  refine ⟨h.1, ?_⟩
  by_cases hi : ix.headBottom = i
  · simpa [Index.setNode, hi] using hx hi.symm
  · simpa [Index.setNode, hi] using h.2

theorem Grounded.setRight (h : ix.Grounded) (i : IdxId) (r : Option IdxId) :
    (ix.setRight i r).Grounded :=
  h.setNode fun hi => by rw [hi, h.2]

theorem Grounded.casRight (h : ix.Grounded) (i : IdxId) (cmp val : Option IdxId) :
    (ix.casRight i cmp val).1.Grounded := by
  unfold Index.casRight
  split_ifs
  · exact h.setRight i val
  · exact h

theorem Grounded.make (h : ix.Grounded) (x : IndexNode) :
    Grounded { ix.setNode ix.fresh x with fresh := ix.fresh + 1 } :=
  have hx := h.setNode (i := ix.fresh) (x := x) fun hi => absurd hi h.1.ne'
  ⟨h.1.trans (Nat.lt_succ_self _), hx.2⟩

theorem Grounded.casHead (h : ix.Grounded) {cmp val : IdxId} {up : Bool} {b : Bool}
    (hc : ix.casHead cmp val up = some (ix', b)) : ix'.Grounded := by
  have hup : ∀ i u, (ix.setUp i u).Grounded := fun i u => h.setNode fun hi => by rw [hi, h.2]
  unfold Index.casHead at hc
  split_ifs at hc
  · cases hc
    exact hup cmp _
  · cases hc
    exact hup val _
  · cases hc
    exact h

theorem Grounded.createNewIndexNodes (n : NodeId) : ∀ (count : Nat) (down : Option IdxId)
    {ix : Index}, ix.Grounded → (ix.createNewIndexNodes n count down).1.Grounded
  | 0, _, _, h => h
  | count + 1, _, ix, h => Grounded.createNewIndexNodes n count (some ix.fresh) (h.make _)

end Index

namespace Adding

variable {K : Type} [LinearOrder K] {n : NodeId} {v : NodeView K} {hn : NodeId} {s s' : Adding K}

/-- What is known at each point of the call as long as no link has failed. -/
def Known (ix : Index) (links : List Nat) : AddPc → Prop
  | .search | .enter _ | .walk (.search _) _ | .look (.search _) _ _ | .unlinkTest (.search _) _ _
  | .unlinkRead (.search _) _ _ | .unlinkCas (.search _) _ _ _ | .walked (.search _) _ _ => True
  | .create points => points ≠ []
  | .link x _ _ _ | .linkTest x _ _ _ | .linkCas x _ _ _ => 0 ∈ links ∨ x.head = ix.headBottom
  | .linked _ | .grow _ | .casHead _ _ | .returned => 0 ∈ links
  -- only a failed link leads here
  | .walk (.insert _ _) _ | .look (.insert _ _) _ _ | .unlinkTest (.insert _ _) _ _
  | .unlinkRead (.insert _ _) _ _ | .unlinkCas (.insert _ _) _ _ _ | .walked (.insert _ _) _ _
  | .linkFailed _ _ | .gaveUp => False

theorem Known.congr {ix ix' : Index} {links : List Nat} (hb : ix'.headBottom = ix.headBottom) :
    ∀ {k : AddPc}, Known ix links k → Known ix' links k := by
  intro k h
  cases k with
  | link x i p o | linkTest x i p o | linkCas x i p o => exact h.imp id fun he => he.trans hb.symm
  | walk w q | look w q r | unlinkTest w q r | unlinkRead w q r | unlinkCas w q r o | walked w q r =>
    cases w <;> exact h
  | _ => exact h

/-- The loop of `add` goes on to a link, or comes to its end with the node linked on level `0`. -/
theorem known_loop {ix : Index} {x : Insertion} {o : Option IdxId} {k : AddPc} {links : List Nat}
    (hk : AddPc.loop ix x o = some k) (h : 0 ∈ links ∨ o = some ix.headBottom ∧
      (ix.nodes ix.headBottom).level = 0 ∧ x.points ≠ []) :
    Known ix links k ∧ ∀ y, k ≠ .linked y := by
  unfold AddPc.loop at hk
  split at hk
  · have h0 : 0 ∈ links := h.resolve_right fun ho => by simp at ho
    obtain rfl := Option.some.inj hk
    split_ifs
    · exact ⟨h0, fun y he => by cases he⟩
    · exact ⟨h0, fun y he => by cases he⟩
  · rename_i head
    dsimp only at hk
    by_cases hcond : (ix.nodes head).level < x.level + 1 ∧ (ix.nodes head).level < x.points.length
    · rw [if_pos hcond] at hk
      split at hk
      · obtain rfl := Option.some.inj hk
        refine ⟨h.imp id fun ho => ?_, fun y he => by cases he⟩
        exact Option.some.inj ho.1
      · cases hk
    · -- on level `0` the loop's condition holds
      have h0 : 0 ∈ links := by
        refine h.resolve_right fun ⟨ho, hlevel, hpts⟩ => hcond ?_
        rw [Option.some.inj ho, hlevel]
        exact ⟨Nat.succ_pos _, List.length_pos_iff.2 hpts⟩
      rw [if_neg hcond] at hk
      obtain rfl := Option.some.inj hk
      split_ifs
      · exact ⟨h0, fun y he => by cases he⟩
      · exact ⟨h0, fun y he => by cases he⟩

/-- The invariant of the call. -/
structure Inv (n : NodeId) (s : Adding K) : Prop where
  grounded : s.index.Grounded
  live : s.view.live n = true
  known : Known s.index s.links s.pc

omit [LinearOrder K] in
/-- A step of the call after which it has linked nothing new. -/
theorem Inv.goes (h : s.Inv n) {ix : Index} {k : AddPc} (hg : ix.Grounded)
    (hk : Known ix s.links k) (hl : ∀ y, k ≠ .linked y) :
    Inv n { s with index := ix, pc := k, links := s.linksAfter k } := by
  have hlinks : s.linksAfter k = s.links := by
    unfold linksAfter
    split
    · rename_i y
      exact absurd rfl (hl y)
    · rfl
  rw [hlinks]
  exact ⟨hg, h.live, hk⟩

theorem Inv.go (h : s.Inv n) {drawn : Nat} {ix : Index} {k : AddPc}
    (hG : s.LinksMeet (.go drawn)) (hs : s.pc.step s.view s.index n drawn = some (ix, k)) :
    Inv n { s with index := ix, pc := k, links := s.linksAfter k } := by
  have hkn := h.known
  rcases hpc : s.pc with _ | x | ⟨w, q⟩ | ⟨w, q, r⟩ | ⟨w, q, r⟩ | ⟨w, q, r⟩ | ⟨w, q, r, o⟩ |
    ⟨w, prev, next⟩ | points | ⟨x, i, prev, next⟩ | ⟨x, i, prev, next⟩ | ⟨x, i, prev, next⟩ |
    ⟨x, i⟩ | x | x | ⟨x, hd⟩ | _ | _ <;>
    simp only [hpc, AddPc.step] at hs hkn <;>
    try (cases w with | search y => ?_ | insert y i => exact hkn.elim)
  case search =>
    cases hs
    exact h.goes h.grounded trivial (by simp)
  case enter =>
    cases hs
    split_ifs <;> exact h.goes h.grounded trivial (by simp)
  case walk.search =>
    split at hs <;> cases hs <;> exact h.goes h.grounded trivial (by simp)
  case look.search =>
    cases hs
    split_ifs <;> exact h.goes h.grounded trivial (by simp)
  case unlinkTest.search =>
    cases hs
    split_ifs <;> exact h.goes h.grounded trivial (by simp)
  case unlinkRead.search =>
    cases hs
    exact h.goes h.grounded trivial (by simp)
  case unlinkCas.search =>
    have hg := h.grounded.casRight q (some r) o
    split at hs <;> rename_i hcas <;> cases hs <;> rw [hcas] at hg <;>
      exact h.goes hg trivial (by simp)
  case walked.search =>
    dsimp only at hs
    split_ifs at hs
    · cases hs
      exact h.goes h.grounded trivial (by simp)
    · split at hs <;> cases hs
      · exact h.goes h.grounded (by simp [Known]) (by simp)
      · exact h.goes h.grounded trivial (by simp)
      · exact h.goes h.grounded trivial (by simp)
  case create =>
    obtain ⟨k', hloop, he⟩ := Option.map_eq_some_iff.1 hs
    cases he
    have hg := h.grounded.createNewIndexNodes n (min drawn (points.length + 1) + 1) none
    obtain ⟨hk, hl⟩ := known_loop hloop (.inr ⟨rfl, hg.2, hkn⟩)
    exact h.goes hg hk hl
  case link =>
    cases hs
    exact h.goes (h.grounded.setRight i next) hkn (by simp)
  case linkTest =>
    -- the guard: the node before is alive
    have hlive : s.index.live s.view prev = true := by simpa only [LinksMeet, AddPc.Linkable, hpc] using hG
    rw [if_pos hlive] at hs
    cases hs
    exact h.goes h.grounded hkn (by simp)
  case linkCas =>
    -- the guard: nothing has come between
    have hright : (s.index.nodes prev).right = next := by simpa only [LinksMeet, AddPc.Linkable, hpc] using hG
    unfold Index.casRight at hs
    rw [if_pos hright] at hs
    cases hs
    refine ⟨h.grounded.setRight prev (some i), h.live, ?_⟩
    rcases hkn with h0 | hb
    · exact List.mem_cons_of_mem _ h0
    · show 0 ∈ (s.index.nodes x.head).level :: s.links
      rw [hb, h.grounded.2]
      exact List.mem_cons_self
  case linkFailed => exact hkn.elim
  case linked =>
    obtain ⟨k', hloop, he⟩ := Option.map_eq_some_iff.1 hs
    cases he
    obtain ⟨hk, hl⟩ := known_loop hloop (.inl hkn)
    exact h.goes h.grounded hk hl
  case grow =>
    cases hs
    split_ifs <;> exact h.goes h.grounded hkn (by simp)
  case casHead =>
    obtain ⟨⟨ix₁, b⟩, hcas, he⟩ := Option.map_eq_some_iff.1 hs
    cases he
    exact h.goes ((h.grounded.make _).casHead hcas) hkn (by simp)
  case gaveUp => exact hkn.elim
  case returned => cases hs

theorem Inv.step (h : s.Inv n) {mv : AddMove} (hG : s.LinksMeet mv) (hs : s.next n mv = some s') :
    s'.Inv n := by
  cases mv with
  | go drawn =>
    obtain ⟨⟨ix, k⟩, hstep, rfl⟩ := Option.map_eq_some_iff.1 hs
    exact h.go hG hstep
  | make x =>
    cases hs
    exact ⟨h.grounded.make x, h.live, h.known.congr rfl⟩
  | prepare i r =>
    cases hs
    exact ⟨h.grounded.setRight i r, h.live, h.known.congr rfl⟩
  | cas i cmp val =>
    cases hs
    refine ⟨h.grounded.casRight i cmp val, h.live, h.known.congr ?_⟩
    unfold Index.casRight
    split_ifs <;> rfl
  | casHead cmp val up =>
    obtain ⟨⟨ix, b⟩, hcas, rfl⟩ := Option.map_eq_some_iff.1 hs
    refine ⟨h.grounded.casHead hcas, h.live, h.known.congr ?_⟩
    unfold Index.casHead at hcas
    split_ifs at hcas <;> cases hcas <;> rfl
  | clear k =>
    simp only [next] at hs
    split_ifs at hs with hk
    cases hs
    refine ⟨h.grounded, ?_, h.known⟩
    simpa [Ne.symm hk] using h.live

/-- In every run in which the call's links find the index as they expect it, the call keeps its
node. -/
theorem Reach.keeps_node (hlive : v.live n = true) (h : Reach n LinksMeet hn v s) : s.Keeps n := by
  have hI : s.Inv n := by
    induction h with
    | init => exact ⟨⟨Nat.zero_lt_one, rfl⟩, hlive, trivial⟩
    | step _ hG hs ih => exact ih.step hG hs
  have hkn := hI.known
  refine ⟨fun hpc => ?_, fun hd => ?_⟩
  · rw [hpc] at hkn
    exact hkn.elim
  · rcases hpc : s.pc <;> rw [hpc] at hd hkn <;> simp only [AddPc.isDone, Bool.false_eq_true] at hd
    · exact hkn.elim
    · exact hkn

/-! ## Concrete runs -/

instance (v : NodeView K) (ix : Index) : (k : AddPc) → Decidable (k.Linkable v ix)
  | .linkTest _ _ prev _ => inferInstanceAs (Decidable (ix.live v prev = true))
  | .linkCas _ _ prev next => inferInstanceAs (Decidable ((ix.nodes prev).right = next))
  | .search | .enter _ | .walk _ _ | .look _ _ _ | .unlinkTest _ _ _ | .unlinkRead _ _ _
  | .unlinkCas _ _ _ _ | .walked _ _ _ | .create _ | .link _ _ _ _ | .linkFailed _ _ | .linked _
  | .grow _ | .casHead _ _ | .gaveUp | .returned => isTrue trivial

instance (s : Adding K) : (mv : AddMove) → Decidable (s.LinksMeet mv)
  | .go _ => inferInstanceAs (Decidable (s.pc.Linkable s.view s.index))
  | .make _ | .prepare _ _ | .cas _ _ _ | .casHead _ _ _ | .clear _ => isTrue trivial

/-- Make the moves in turn, as long as `G` allows them. -/
def play (n : NodeId) (G : Adding K → AddMove → Prop) [∀ s mv, Decidable (G s mv)] :
    Adding K → List AddMove → Option (Adding K)
  | s, [] => some s
  | s, mv :: mvs => if G s mv then (s.next n mv).bind fun s' => play n G s' mvs else none

theorem Reach.play {G : Adding K → AddMove → Prop} [∀ s mv, Decidable (G s mv)] :
    ∀ (mvs : List AddMove) {s s' : Adding K}, Reach n G hn v s → play n G s mvs = some s' →
      Reach n G hn v s'
  | [], _, _, hr, h => by
    rw [Adding.play, Option.some.injEq] at h
    exact h ▸ hr
  | mv :: mvs, s, s', hr, h => by
    rw [Adding.play] at h
    split_ifs at h with hG
    obtain ⟨s₁, hs, h⟩ := Option.bind_eq_some_iff.1 h
    exact Reach.play mvs (.step hr hG hs) h

theorem exists_reach (n hn : NodeId) (v : NodeView K) (G : Adding K → AddMove → Prop)
    [∀ s mv, Decidable (G s mv)] (mvs : List AddMove) (p : Adding K → Bool)
    (h : (play n G (init hn v) mvs).any p = true) : ∃ s, Reach n G hn v s ∧ p s = true := by
  rcases hs : play n G (init hn v) mvs with _ | s
  · simp [hs] at h
  · exact ⟨s, Reach.play mvs .init hs, by simpa [hs] using h⟩

/-- Keys in the order of the nodes' numbers, all nodes alive. -/
def numbered : NodeView Nat := ⟨id, fun _ => true⟩

/-- Other threads link an index node for node `5` in front of the call and clear the value of node `5`
while the call looks at it. The call unlinks the index node and links its own. -/
theorem keeps_node_removing : ∃ s : Adding Nat, s.pc = .returned ∧ s.view.live 5 = false ∧
    s.Keeps 2 := by
  obtain ⟨s, hr, hp⟩ := exists_reach 2 0 numbered LinksMeet
    ([.make { node := 5 }, .go 0, .cas 0 none (some 1)] ++ List.replicate 2 (.go 0) ++ [.clear 5] ++
      List.replicate 11 (.go 0)) (fun s => s.pc = .returned ∧ s.view.live 5 = false) (by decide)
  obtain ⟨hpc, hlive⟩ : s.pc = .returned ∧ s.view.live 5 = false := by simpa using hp
  exact ⟨s, hpc, hlive, Reach.keeps_node rfl hr⟩

/-- Node `1` is linked between the search for the place of node `2` and its link: `add` returns without
having linked node `2`, which holds its value. -/
theorem live_node_dropped : ¬ ∀ s, Reach 2 (fun _ _ => True) 0 numbered s → s.Keeps 2 := by
  intro h
  obtain ⟨s, hr, hp⟩ := exists_reach 2 0 numbered (fun _ _ => True)
    (List.replicate 5 (.go 0) ++ [.make { node := 1 }, .cas 0 none (some 2)] ++
      List.replicate 4 (.go 0)) (fun s => s.pc = .gaveUp ∧ s.view.live 2 = true) (by decide)
  obtain ⟨hpc, hlive⟩ : s.pc = .gaveUp ∧ s.view.live 2 = true := by simpa using hp
  have := (h s hr).gaveUp hpc
  rw [hlive] at this
  cases this

end Adding

end TxList
