import TxList.Proofs.Withheld
import TxList.Proofs.Scripts

/-!
# Giving a list back

The walk of `deinit_list` goes along the whole chain, which is in order of the keys and so comes to an
end, and retires a node when it has found another after it. The last node, which is the head if the list
is empty, is left.
-/

namespace TxList

open Prog Chain

variable {K V : Type} {m : Nat} [LinearOrder K]

section Chain

variable {s : Shared K V m} {P : ListId m → NodeId → Prop}

/-- A walk with room for all greater nodes is a path to the end. -/
theorem Shared.Sound.walk_path (h : s.Sound P) : ∀ (k : Nat) {o : Option NodeId},
    (∀ a, o = some a → (s.over a).card < k) →
    (walk s.next k o).head? = o ∧ Path s.next (walk s.next k o) ∧
      (∀ a, o = some a → ∀ b ∈ walk s.next k o, s.rank a ≤ s.rank b) ∧
      (walk s.next k o).Pairwise fun a b => s.rank a < s.rank b
  | 0, none, _ => by simp [walk, Chain.Path]
  | 0, some a, hk => absurd (hk a rfl) (Nat.not_lt_zero _)
  | k + 1, none, _ => by simp [walk, Chain.Path]
  | k + 1, some a, hk => by
    have hedge : ∀ b, s.next a = some b → (s.over b).card < k ∧ s.rank a < s.rank b := by
      intro b hb
      obtain ⟨-, hlt, hrank⟩ := h.edge a b hb
      have := Shared.card_over_lt hlt hrank
      have := hk a rfl
      exact ⟨by omega, hrank⟩
    obtain ⟨hhead, hpath, hle, hsort⟩ := walk_path h k fun b hb => (hedge b hb).1
    have habove : ∀ b ∈ walk s.next k (s.next a), s.rank a < s.rank b := by
      intro b hb
      rcases hn : s.next a with _ | c
      · rw [hn] at hb
        cases k <;> simp [walk] at hb
      · exact (hedge c hn).2.trans_le (hle c hn b hb)
    rw [walk]
    refine ⟨rfl, ⟨hhead.symm, hpath⟩, fun a' ha' b hb => ?_, List.pairwise_cons.2 ⟨habove, hsort⟩⟩
    obtain rfl := Option.some.inj ha'
    rcases List.mem_cons.1 hb with rfl | hb
    · exact le_rfl
    · exact (habove b hb).le

/-- Whatever state the lists are in, the chain is the path from the head and meets no node twice. -/
theorem Shared.Sound.chain_path (h : s.Sound P) (l : ListId m) :
    Path s.next (head l :: s.chain l) ∧ (head l :: s.chain l).Nodup := by
  have hhead : head l < s.fresh := (head_lt l).trans_le h.allocated
  have hover : (s.over (head l)).card ≤ s.fresh := by
    refine (Finset.card_filter_le _ _).trans ?_
    rw [Finset.card_range]
  have hedge : ∀ a, s.next (head l) = some a → (s.over a).card < s.fresh ∧
      s.rank (head l) < s.rank a := by
    intro a ha
    obtain ⟨-, hlt, hrank⟩ := h.edge _ a ha
    exact ⟨(Shared.card_over_lt hlt hrank).trans_le hover, hrank⟩
  obtain ⟨hfirst, hpath, hle, hsort⟩ := h.walk_path s.fresh fun a ha => (hedge a ha).1
  refine ⟨⟨hfirst.symm, hpath⟩, List.nodup_cons.2 ⟨fun hmem => ?_, ?_⟩⟩
  · rcases hn : s.next (head l) with _ | a
    · rw [Shared.chain, hn] at hmem
      cases hk : s.fresh <;> simp [walk, hk] at hmem
    · exact ((hedge a hn).2.trans_le (hle a hn _ hmem)).ne rfl
  · exact hsort.imp fun hlt he => (he ▸ hlt).ne rfl

end Chain

omit [LinearOrder K] in
/-- The loop retires the path's nodes up to the last one, which it leaves. -/
theorem deinitLoop_ends {E : Err → Ctx K V m → Prop} : ∀ (L : List NodeId) (fuel : Nat)
    (prev : NodeId) {c : Ctx K V m}, Path c.shared.next (prev :: L) → L.length < fuel →
    Ends (deinitLoop fuel prev L.head?) c (fun _ c' => c' = { c with shared :=
      { c.shared with retired := (prev :: L).dropLast.reverse ++ c.shared.retired } }) E
  | _, 0, _, _, _, hlt => absurd hlt (Nat.not_lt_zero _)
  | [], _ + 1, _, _, _, _ => by simp [deinitLoop]
  | cur :: L, fuel + 1, prev, c, hp, hlt => by
    have hnext : (c.shared.mem cur).next = L.head? := hp.2.1
    have ih := deinitLoop_ends (E := E) L fuel cur
      (c := { c with shared := { c.shared with retired := prev :: c.shared.retired } }) hp.2
      (by simpa using hlt)
    simp only [List.head?_cons, deinitLoop, Ends_bind, Ends_retire_node, Ends_node, hnext]
    refine ih.mono (fun _ c' hc => ?_) fun _ _ => id
    rw [hc]
    simp

/-- `deinit_list` ends, having retired the head and the chain's nodes but the last of them. -/
theorem Conf.Reach.deinit_list_ends {C : Conf K V m} {minKey : K} {dflt : V} {G : Conf.Guard K V m}
    (hr : Conf.Reach minKey dflt G C) (t : ThreadId) (l : ListId m) :
    ∃ N, ∀ fuel, N ≤ fuel → ∃ c, deinit_list fuel l (C.sys.ctx t) = .ok () c ∧ c.shared.retired =
      (head l :: C.sys.shared.chain l).dropLast.reverse ++ C.sys.shared.retired := by
  obtain ⟨hpath, -⟩ := (Conf.Reach.steady hr).sound.shared.chain_path l
  refine ⟨(C.sys.shared.chain l).length + 1, fun fuel hf => ?_⟩
  have hends : Ends (deinit_list fuel l) (C.sys.ctx t) (fun _ c => c.shared.retired =
      (head l :: C.sys.shared.chain l).dropLast.reverse ++ C.sys.shared.retired) fun _ _ => False := by
    have hnext : ((C.sys.ctx t).shared.mem (head l)).next = (C.sys.shared.chain l).head? := hpath.1
    unfold deinit_list
    simp only [Ends_bind, Ends_node, hnext]
    refine (deinitLoop_ends _ fuel (head l) (c := C.sys.ctx t) hpath (Nat.lt_of_succ_le hf)).mono
      (fun _ c hc => ?_) fun _ _ => id
    rw [hc]
    rfl
  rcases hrun : deinit_list fuel l (C.sys.ctx t) with ⟨u, c⟩ | ⟨e, c⟩
  · exact ⟨c, rfl, hends.ok hrun⟩
  · exact (hends.error hrun).elim

/-- `deinit_list`, called by thread `t`, ends and passes the head and every node of the chain to
`retire_node` once, and no other node. -/
def Conf.Deinits (C : Conf K V m) (t : ThreadId) (l : ListId m) : Prop :=
  ∃ N, ∀ fuel, N ≤ fuel → ∃ c rs, deinit_list fuel l (C.sys.ctx t) = .ok () c ∧
    c.shared.retired = rs ++ C.sys.shared.retired ∧ rs.Perm (head l :: C.sys.shared.chain l)

/-- The chain's last node is never given back. -/
theorem Conf.Reach.deinit_list_leaves_last {C : Conf K V m} {minKey : K} {dflt : V}
    (hr : Conf.Reach minKey dflt Conf.anyStep C) (t : ThreadId) (l : ListId m) :
    ¬ C.Deinits t l := by
  rintro ⟨N, hN⟩
  obtain ⟨N', hN'⟩ := hr.deinit_list_ends t l
  obtain ⟨c, rs, hrun, hretired, hperm⟩ := hN (max N N') (le_max_left _ _)
  obtain ⟨c', hrun', hretired'⟩ := hN' (max N N') (le_max_right _ _)
  obtain rfl : c = c' := by
    rw [hrun] at hrun'
    exact (EStateM.Result.ok.inj hrun').2
  have hrs : rs = (head l :: C.sys.shared.chain l).dropLast.reverse :=
    List.append_cancel_right (hretired.symm.trans hretired')
  have hlen := hperm.length_eq
  rw [hrs, List.length_reverse, List.length_dropLast, List.length_cons] at hlen
  omega

theorem Conf.Reach.deinit_list_leaves_last_two : ∃ C : Conf Nat Nat 1,
    Conf.Reach 0 0 Conf.anyStep C ∧ C.sys.shared.chain 0 = [1, 2] ∧ ¬ C.Deinits 0 0 := by
  obtain ⟨C, hr, -, hc⟩ := Conf.exists_reach_of_decidable (G := Conf.anyStep) 0 0 2
    [(0, .put 0 5 3), (0, .put 0 7 4)]
    (fun C : Conf Nat Nat 1 => decide (C.sys.shared.chain 0 = [1, 2])) (by decide +kernel)
  exact ⟨C, hr, of_decide_eq_true hc, hr.deinit_list_leaves_last 0 0⟩

/-- The head of an empty list is not given back. -/
theorem deinit_list_keeps_head : ¬ ∀ (C : Conf Nat Nat 1) (t : ThreadId) (l : ListId 1),
    Conf.Reach 0 0 Conf.anyStep C → C.Deinits t l := by
  intro h
  obtain ⟨N, hN⟩ := h (Conf.init 0 0) 0 0 .refl
  obtain ⟨c, rs, hrun, hretired, hperm⟩ := hN (N + 1) (Nat.le_succ N)
  have hc : (Conf.init 0 0 : Conf Nat Nat 1).sys.ctx 0 = c := (EStateM.Result.ok.inj hrun).2
  rw [← hc] at hretired
  have hrs : rs = [] := by simpa [Sys.ctx] using hretired
  have hlen := hperm.length_eq
  rw [hrs] at hlen
  simp at hlen

end TxList
