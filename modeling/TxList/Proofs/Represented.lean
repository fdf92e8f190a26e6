import TxList.Proofs.Scripts

/-!
# The lists and their indexes

In runs of transactions only and in runs of singletons only, the chains and the indexes are in
order after every call, and a node that left its chain is dead.
-/

namespace TxList

open Prog Chain

variable {K V : Type} {m : Nat} [LinearOrder K]

/-- The representation of the lists between calls. -/
structure Represented (s : Shared K V m) : Prop where
  chain : ∀ l, Path s.next (head l :: s.chain l)
  sorted : ∀ l, (s.chain l).Pairwise fun a b => (s.mem a).key < (s.mem b).key
  live : ∀ l, ∀ n ∈ head l :: s.chain l, (s.mem n).isLocked = false ∧
    (s.mem n).isDeleted = false ∧ (s.mem n).val.isSome = true
  index : ∀ l, (s.index l).bottomLevel = s.chain l
  getPred : ∀ l key, ∃ N, ∀ fuel, N ≤ fuel →
    (s.index l).getPred s.view key fuel = some (s.index l, s.below l key)

theorem Lists.represented {s : Shared K V m} {S : ListId m → Finset NodeId} (hL : Lists s S)
    (hu : ∀ n, (s.mem n).isLocked = false) : Represented s := by
  refine ⟨fun l => (hL.chain_spec l).1, fun l => ?_, fun l n hn => ?_, fun l => ?_, fun l key => ?_⟩
  all_goals obtain ⟨-, hmem, hsort⟩ := hL.chain_spec l
  · refine hsort.imp_of_mem fun {a b} ha hb hlt => ?_
    rw [hL.rank_mem ((hmem a).1 ha), hL.rank_mem ((hmem b).1 hb)] at hlt
    exact WithBot.coe_lt_coe.1 hlt
  · have hn' : n ∈ insert (head l) (S l) := by
      rcases List.mem_cons.1 hn with rfl | hn
      · exact Finset.mem_insert_self _ _
      · exact Finset.mem_insert_of_mem ((hmem n).1 hn)
    exact ⟨hu n, (hL.live l n hn').2, (hL.live l n hn').1⟩
  · obtain ⟨hmem', hsort'⟩ := (hL.indexed l).bottomLevel_spec
    have hperm : (s.index l).bottomLevel.Perm (s.chain l) := by
      refine (List.perm_ext_iff_of_nodup (hsort'.imp fun hlt he => (he ▸ hlt).ne rfl)
        (hsort.imp fun hlt he => (he ▸ hlt).ne rfl)).2 fun n => ?_
      rw [hmem', hmem]
    exact hperm.eq_of_pairwise (fun a b _ _ h1 h2 => absurd h1 h2.not_gt) hsort' hsort
  · obtain ⟨h1, N, hN⟩ := hL.getPred_spec l key
    refine ⟨N, fun fuel hf => ?_⟩
    obtain ⟨p, hp⟩ := hN fuel hf
    obtain ⟨-, hprev⟩ := h1 fuel _ p hp
    rw [hp, IsPrev.unique (hL.threads l).toRanked hprev (hL.below_isPrev l key)]

section Runs

variable {C C₀ : Conf K V m} {G : Conf.Guard K V m} {minKey : K} {dflt : V}

theorem Inv.represented_run {S : ListId m → Finset NodeId} (h : Inv C₀ S) (hr : C₀.Run Safe C) :
    Represented C.sys.shared ∧ ∀ l, ∀ n ∈ C₀.sys.shared.chain l, n ∉ C.sys.shared.chain l →
      (C.sys.shared.mem n).isDeleted = true ∧ (C.sys.shared.mem n).val = none := by
  obtain ⟨S', h', hn⟩ := h.run hr
  refine ⟨h'.lists.represented (h'.sane 0).unlocked, fun l n hn₀ hn₁ => ?_⟩
  rcases hn l n (((h.lists.chain_spec l).2.1 n).1 hn₀) with hn | hd
  · exact absurd (((h'.lists.chain_spec l).2.1 n).2 hn) hn₁
  · exact hd.2

/-- After every call of a run of transactions only, or of singletons only, the lists and their
indexes are in order, and the nodes that were on a chain before and are not any more are dead. -/
theorem represented_of_reach (hG : G = TxClient ∨ G = SingletonClient)
    (h₀ : Conf.Reach minKey dflt G C₀) (hr : C₀.Run G C) :
    Represented C.sys.shared ∧ ∀ l, ∀ n ∈ C₀.sys.shared.chain l, n ∉ C.sys.shared.chain l →
      (C.sys.shared.mem n).isDeleted = true ∧ (C.sys.shared.mem n).val = none := by
  rcases hG with rfl | rfl
  · have hO := (TxClient.run_safe_from (TxOnly.init minKey dflt) h₀).2
    obtain ⟨S, h⟩ := hO.inv
    exact h.represented_run (TxClient.run_safe_from hO hr).1
  · have hO := (SingletonClient.run_safe_from (SingletonOnly.init minKey dflt) h₀).2
    obtain ⟨S, h⟩ := hO.inv
    exact h.represented_run (SingletonClient.run_safe_from hO hr).1

theorem represented_of_reach_removed : ∃ C₀ C : Conf Nat Nat 1, Conf.Reach 0 0 TxClient C₀ ∧
    C₀.Run TxClient C ∧ C₀.sys.shared.chain 0 = [1, 2] ∧ C.sys.shared.chain 0 = [2] ∧
    Represented C.sys.shared ∧ ∀ l, ∀ n ∈ C₀.sys.shared.chain l, n ∉ C.sys.shared.chain l →
      (C.sys.shared.mem n).isDeleted = true ∧ (C.sys.shared.mem n).val = none := by
  obtain ⟨C₀, h₀, hI, hp⟩ := Conf.exists_reach_of_decidable (G := TxClient) 0 0 2
    [(0, .txBegin), (0, .put 0 5 3), (0, .put 0 7 4), (0, .txEnd)]
    (fun C : Conf Nat Nat 1 => decide (C.sys.shared.chain 0 = [1, 2]) &&
      (C.script (fun C t op => decide (TxClient C t op)) 2
        [(1, .txBegin), (1, .remove 0 5), (1, .txEnd)]).any
          fun C : Conf Nat Nat 1 => decide (C.sys.shared.chain 0 = [2])) (by decide +kernel)
  rw [Bool.and_eq_true, decide_eq_true_eq] at hp
  obtain ⟨C, hr, -, hc⟩ := Conf.exists_run_of_decidable hI _ _ hp.2
  exact ⟨C₀, C, h₀, hr, hp.1, of_decide_eq_true hc, represented_of_reach (.inl rfl) h₀ hr⟩

end Runs

end TxList
