import TxList.Proofs.Deinit
import TxList.Proofs.FiniteMap

/-!
# Walks along a list

`operator<<`, `get_sum_key` and `get_size` go along the chain from the head to its end. Whatever the
threads have done the chain is in strict order of the keys, so the walks end and give what the list's
map holds, in the order of the keys.
-/

namespace TxList

open Prog Chain

variable {K V : Type} {m : Nat}

/-- The keys and values of the nodes after the head. -/
def Shared.entries (s : Shared K V m) (l : ListId m) : List (K × Option V) :=
  (s.chain l).map fun n => ((s.mem n).key, (s.mem n).val)

section Loops

variable {c : Ctx K V m} {E : Err → Ctx K V m → Prop}

theorem streamLoop_ends : ∀ {L : List NodeId} {fuel : Nat}, Path c.shared.next L → L.length < fuel →
    Ends (streamLoop fuel L.head?) c (fun r c' => c' = c ∧
      r = L.map fun n => ((c.shared.mem n).key, (c.shared.mem n).val)) E
  | _, 0, _, hf => absurd hf (Nat.not_lt_zero _)
  | [], fuel + 1, _, _ => by simp [streamLoop]
  | n :: L, fuel + 1, hp, hf => by
    have hnext : (c.shared.mem n).next = L.head? := hp.1
    simp only [List.head?_cons, streamLoop, Ends_bind, Ends_node, hnext]
    refine (streamLoop_ends hp.2 (by simpa using hf)).mono (fun r c' hr => ?_) fun _ _ => id
    obtain ⟨rfl, rfl⟩ := hr
    exact ⟨rfl, rfl⟩

theorem sumLoop_ends [AddMonoid K] : ∀ {L : List NodeId} {fuel : Nat} {res : K},
    Path c.shared.next L → L.length < fuel → Ends (sumLoop fuel L.head? res) c
      (fun r c' => c' = c ∧ r = res + (L.map fun n => (c.shared.mem n).key).sum) E
  | _, 0, _, _, hf => absurd hf (Nat.not_lt_zero _)
  | [], fuel + 1, res, _, _ => by simp [sumLoop]
  | n :: L, fuel + 1, res, hp, hf => by
    have hnext : (c.shared.mem n).next = L.head? := hp.1
    simp only [List.head?_cons, sumLoop, Ends_bind, Ends_node, hnext]
    refine (sumLoop_ends hp.2 (by simpa using hf)).mono (fun r c' hr => ?_) fun _ _ => id
    rw [List.map_cons, List.sum_cons, ← add_assoc]
    exact hr

end Loops

section Chain

variable [LinearOrder K] {s : Shared K V m} {P : ListId m → NodeId → Prop}

/-- Whatever state the lists are in, the chain is in strict order. -/
theorem Shared.Sound.chain_sorted (h : s.Sound P) (l : ListId m) :
    (head l :: s.chain l).Pairwise (fun a b => s.rank a < s.rank b) ∧
      ∀ n ∈ s.chain l, m ≤ n ∧ n < s.fresh := by
  obtain ⟨hpath, -⟩ := h.chain_path l
  refine ⟨hpath.pairwise fun a b hb => (h.edge a b hb).2.2,
    fun n hn => ?_⟩
  obtain ⟨p, hp⟩ := hpath.exists_prev hn
  obtain ⟨h1, h2, -⟩ := h.edge p n hp
  exact ⟨h1, h2⟩

theorem Shared.Sound.entries_sorted (h : s.Sound P) (l : ListId m) :
    ((s.entries l).map Prod.fst).Pairwise (· < ·) := by
  obtain ⟨hsort, hbound⟩ := h.chain_sorted l
  rw [Shared.entries, List.map_map, List.pairwise_map]
  refine (List.pairwise_cons.1 hsort).2.imp_of_mem fun {a b} ha hb hlt => ?_
  rwa [s.rank_of_le (hbound a ha).1, s.rank_of_le (hbound b hb).1, WithBot.coe_lt_coe] at hlt

/-- The entries with a value are those of the list's map. -/
theorem Shared.Sound.mem_entries (h : s.Sound P) (l : ListId m) (key : K) (v : V) :
    (key, some v) ∈ s.entries l ↔ s.lookup l key = some v := by
  have hsort := h.entries_sorted l
  rw [Shared.entries, List.map_map, List.pairwise_map] at hsort
  rw [Shared.entries, Shared.lookup, List.mem_map, Option.bind_eq_some_iff]
  constructor
  · rintro ⟨n, hn, he⟩
    obtain ⟨hk, hv⟩ := Prod.mk.inj he
    refine ⟨n, ?_, hv⟩
    rcases hf : (s.chain l).find? fun n => (s.mem n).key = key with _ | y
    · exact absurd (decide_eq_true hk) (List.find?_eq_none.1 hf n hn)
    · have hy : (s.mem y).key = key := by simpa using List.find?_some hf
      rw [inj_of_sorted hsort hn (List.mem_of_find?_eq_some hf) (hk.trans hy.symm)]
  · rintro ⟨n, hf, hv⟩
    have hk : (s.mem n).key = key := by simpa using List.find?_some hf
    exact ⟨n, List.mem_of_find?_eq_some hf, by rw [hk, hv]⟩

end Chain

section Runs

variable [LinearOrder K] {C : Conf K V m} {minKey : K} {dflt : V} {G : Conf.Guard K V m}

/-- A head keeps the key it was constructed with. -/
theorem Conf.Reach.head_key (hr : Conf.Reach minKey dflt G C) (l : ListId m) :
    (C.sys.shared.mem (head l)).key = minKey := by
  refine (hr.keeps (J := fun C => C.sys.Sane ∧ (C.sys.shared.mem (head l)).key = minKey)
    ⟨Sys.sane_init minKey dflt, rfl⟩ fun {C₁ t _ _ C₂} ⟨hs, hk⟩ _ hst => ?_).2
  have hf := hst.framed hs
  exact ⟨hf.sane, (hf.framed.grows.key _ ((head_lt l).trans_le (hs t).heads)).trans hk⟩

/-- The three walks, called by thread `t`, end, given the fuel, and give these entries. -/
def Conf.Streams [Zero K] [Add K] (C : Conf K V m) (t : ThreadId) (l : ListId m) (minKey : K)
    (es : List (K × Option V)) : Prop :=
  ∃ N v, ∀ fuel, N ≤ fuel →
    stream fuel l (C.sys.ctx t) = .ok ((minKey, some v) :: es) (C.sys.ctx t) ∧
    get_sum_key fuel l (C.sys.ctx t) = .ok (minKey + (es.map Prod.fst).sum) (C.sys.ctx t) ∧
    get_size fuel l (C.sys.ctx t) = .ok es.length (C.sys.ctx t)

theorem Shared.Sound.walks_end [AddMonoid K] {c : Ctx K V m} {P : ListId m → NodeId → Prop}
    (h : c.shared.Sound P) (l : ListId m) : ∃ N, ∀ fuel, N ≤ fuel →
      stream fuel l c = .ok (((c.shared.mem (head l)).key, (c.shared.mem (head l)).val) ::
        c.shared.entries l) c ∧
      get_sum_key fuel l c
        = .ok ((c.shared.mem (head l)).key + ((c.shared.entries l).map Prod.fst).sum) c ∧
      get_size fuel l c = .ok (c.shared.entries l).length c := by
  obtain ⟨hpath, -⟩ := h.chain_path l
  refine ⟨(c.shared.chain l).length + 2, fun fuel hf => ⟨?_, ?_, ?_⟩⟩
  · exact (streamLoop_ends (L := head l :: c.shared.chain l) hpath hf).eq_ok
  · refine ((sumLoop_ends (L := head l :: c.shared.chain l) hpath hf).mono
      (fun r c' hr => ⟨hr.1, ?_⟩) fun _ _ => id).eq_ok
    rw [hr.2, zero_add, List.map_cons, List.sum_cons, Shared.entries, List.map_map]
    rfl
  · have hsize : Ends (get_size fuel l) c
        (fun r c' => c' = c ∧ r = (c.shared.entries l).length) fun _ _ => False := by
      simp only [get_size, Ends_bind, Ends_pure]
      refine (sizeLoop_ends (L := head l :: c.shared.chain l) hpath hf).mono
        (fun r c' hr => ⟨hr.2, ?_⟩) fun _ _ => id
      rw [hr.1, Shared.entries, List.length_map, List.length_cons]
      omega
    exact hsize.eq_ok

/-- In every state that calls lead to, made in any order, the walks along a list from its head end.
`operator<<` streams the head and then, in strict order of the keys, nodes of which those with a
value are the list's map; `get_sum_key` is the sum of the keys streamed and `get_size` the number of
nodes after the head. If the run was safe every node streamed has a value. -/
theorem Conf.Reach.listing [AddMonoid K] (hr : Conf.Reach minKey dflt Conf.anyStep C) (t : ThreadId)
    (l : ListId m) : ∃ es : List (K × Option V), C.Streams t l minKey es ∧
      (es.map Prod.fst).Pairwise (· < ·) ∧
      (∀ key v, (key, some v) ∈ es ↔ C.sys.shared.lookup l key = some v) ∧
      (Conf.Reach minKey dflt Safe C → ∀ e ∈ es, e.2.isSome = true) := by
  have hs := (Conf.Reach.steady hr).sound
  refine ⟨C.sys.shared.entries l, ?_, hs.shared.entries_sorted l, hs.shared.mem_entries l,
    fun hsafe e he => ?_⟩
  · obtain ⟨N, hN⟩ := Shared.Sound.walks_end (c := C.sys.ctx t) hs.shared l
    obtain ⟨v, hv⟩ := Option.isSome_iff_exists.1 (hs.shared.heads l).1
    refine ⟨N, v, fun fuel hf => ?_⟩
    have hwalk := hN fuel hf
    have hkey : ((C.sys.ctx t).shared.mem (head l)).key = minKey := hr.head_key l
    have hval : ((C.sys.ctx t).shared.mem (head l)).val = some v := hv
    rwa [hkey, hval] at hwalk
  · obtain ⟨S, h⟩ := Inv.of_reach hsafe
    obtain ⟨n, hn, rfl⟩ := List.mem_map.1 he
    exact (h.lists.live l n (Finset.mem_insert_of_mem (((h.lists.chain_spec l).2.1 n).1 hn))).1

/-- A transaction and singletons; the lists' walks, called by a third thread. -/
theorem Conf.Reach.listing_mixed : ∃ C : Conf Nat Nat 1, Conf.Reach 0 0 Conf.anyStep C ∧
    C.sys.shared.lookup 0 5 = some 3 ∧ C.sys.shared.lookup 0 7 = some 4 ∧
    ∃ es, C.Streams 2 0 0 es ∧ (5, some 3) ∈ es ∧ (7, some 4) ∈ es := by
  obtain ⟨C, hr, -, hp⟩ := Conf.exists_reach_of_decidable (G := Conf.anyStep) 0 0 2
    [(0, .txBegin), (0, .put 0 5 3), (1, .put 0 9 9), (0, .txEnd), (1, .put 0 7 4), (1, .remove 0 9)]
    (fun C : Conf Nat Nat 1 => decide (C.sys.shared.lookup 0 5 = some 3 ∧
      C.sys.shared.lookup 0 7 = some 4)) (by decide +kernel)
  obtain ⟨h5, h7⟩ := of_decide_eq_true hp
  obtain ⟨es, hs, -, hmem, -⟩ := hr.listing 2 0
  exact ⟨C, hr, h5, h7, es, hs, (hmem 5 3).2 h5, (hmem 7 4).2 h7⟩

end Runs

end TxList
