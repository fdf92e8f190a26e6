import TxList.Proofs.IndexOps
import TxList.Proofs.SingletonFrame
import TxList.Contents

/-!
# The lists between calls

`Lists s S` says that the shared memory `s` holds sorted lists: list `l`'s chain runs through the
nodes of `S l`, all of them live and all of them indexed. In such a memory a search of the index
changes nothing and a singleton's search succeeds at once.
-/

namespace TxList

open Prog Chain

variable {K V : Type} {m : Nat} [LinearOrder K]

/-- The order of the nodes on a chain: the heads come before every key. -/
def Shared.rank (s : Shared K V m) (n : NodeId) : WithBot K :=
  if n < m then ⊥ else (s.mem n).key

omit [LinearOrder K] in
theorem Shared.rank_head (s : Shared K V m) (l : ListId m) : s.rank (head l) = ⊥ := by
  simp [Shared.rank, head, l.isLt]

omit [LinearOrder K] in
theorem Shared.rank_of_le (s : Shared K V m) {n : NodeId} (h : m ≤ n) :
    s.rank n = ((s.mem n).key : WithBot K) := by
  simp [Shared.rank, Nat.not_lt.2 h]

/-- The shared memory holds sorted lists, with the nodes of `S l` in list `l`. -/
structure Lists (s : Shared K V m) (S : ListId m → Finset NodeId) : Prop where
  threads : ∀ l, Threads s.rank s.next (head l) (S l)
  bound : ∀ l, ∀ n ∈ S l, m ≤ n ∧ n < s.fresh
  live : ∀ l, ∀ n ∈ insert (head l) (S l), (s.mem n).val.isSome = true ∧
    (s.mem n).isDeleted = false
  indexed : ∀ l, Index.Indexed s.view s.rank (head l) (s.index l) (S l)
  disjoint : ∀ l l', l ≠ l' → Disjoint (S l) (S l')

namespace Lists

variable {s s' : Shared K V m} {S : ListId m → Finset NodeId}

theorem lt_fresh (h : Lists s S) (hm : m ≤ s.fresh) {l : ListId m} {n : NodeId}
    (hn : n ∈ insert (head l) (S l)) : n < s.fresh := by
  rcases Finset.mem_insert.1 hn with rfl | hn
  · exact l.isLt.trans_le hm
  · exact (h.bound l n hn).2

theorem rank_mem (h : Lists s S) {l : ListId m} {n : NodeId} (hn : n ∈ S l) :
    s.rank n = ((s.mem n).key : WithBot K) :=
  s.rank_of_le (h.bound l n hn).1

/-- What the lists are does not depend on locks, versions and singleton bits. -/
theorem congr (h : Lists s S) (hm : m ≤ s.fresh) (hfresh : s.fresh ≤ s'.fresh)
    (hkey : ∀ n < s.fresh, (s'.mem n).key = (s.mem n).key)
    (hnext : ∀ l, ∀ n ∈ insert (head l) (S l), (s'.mem n).next = (s.mem n).next)
    (hval : ∀ l, ∀ n ∈ insert (head l) (S l), (s'.mem n).val.isSome = (s.mem n).val.isSome)
    (hdel : ∀ l, ∀ n ∈ insert (head l) (S l), (s'.mem n).isDeleted = (s.mem n).isDeleted)
    (hindex : s'.index = s.index) : Lists s' S := by
  have hrank : ∀ l, ∀ n ∈ insert (head l) (S l), s'.rank n = s.rank n := by
    intro l n hn
    simp only [Shared.rank, hkey n (h.lt_fresh hm hn)]
  refine ⟨fun l => (h.threads l).congr (hrank l) (hnext l), fun l n hn =>
    ⟨(h.bound l n hn).1, (h.bound l n hn).2.trans_le hfresh⟩, fun l n hn => ?_, fun l => ?_,
    h.disjoint⟩
  · rw [hval l n hn, hdel l n hn]
    exact h.live l n hn
  · rw [hindex]
    exact (h.indexed l).congr (hrank l) fun n hn => hkey n (h.bound l n hn).2

/-! ## The chain -/

theorem chain_spec (h : Lists s S) (l : ListId m) : Path s.next (head l :: s.chain l) ∧
    (∀ n, n ∈ s.chain l ↔ n ∈ S l) ∧ (s.chain l).Pairwise fun a b => s.rank a < s.rank b := by
  obtain ⟨L, hp, hmem, hsort⟩ := (h.threads l).exists_path
  have hnd : L.Nodup := hsort.imp fun hlt he => (he ▸ hlt).ne rfl
  have hlen : L.length ≤ s.fresh := by
    have hsub : L ⊆ List.range s.fresh := fun n hn =>
      List.mem_range.2 (h.bound l n ((hmem n).1 hn)).2
    simpa using (hnd.subperm hsub).length_le
  have hchain : s.chain l = L := by
    rw [Shared.chain, hp.1, hp.2.walk_eq hlen]
  rw [hchain]
  exact ⟨hp, hmem, hsort⟩

/-- A key's value in a list. -/
theorem lookup_eq_some (h : Lists s S) {l : ListId m} {key : K} {v : V} :
    s.lookup l key = some v ↔ ∃ n ∈ S l, s.rank n = (key : WithBot K) ∧ (s.mem n).val = some v := by
  obtain ⟨-, hmem, hsort⟩ := h.chain_spec l
  simp only [Shared.lookup, Option.bind_eq_some_iff]
  constructor
  · rintro ⟨n, hn, hv⟩
    have hn' := (hmem n).1 (List.mem_of_find?_eq_some hn)
    have hk := List.find?_some hn
    refine ⟨n, hn', ?_, hv⟩
    rw [h.rank_mem hn', WithBot.coe_inj]
    simpa using hk
  · rintro ⟨n, hn, hk, hv⟩
    rw [h.rank_mem hn, WithBot.coe_inj] at hk
    rcases hf : (s.chain l).find? fun n => (s.mem n).key = key with _ | n'
    · rw [List.find?_eq_none] at hf
      exact absurd (by simpa using hk) (hf n ((hmem n).2 hn))
    · have hn' := (hmem n').1 (List.mem_of_find?_eq_some hf)
      have hk' := List.find?_some hf
      simp only [decide_eq_true_eq] at hk'
      have he : n' = n := (h.threads l).inj n' hn' n hn (by
        rw [h.rank_mem hn', h.rank_mem hn, hk, hk'])
      exact ⟨n, by rw [he], hv⟩

/-! ## Searching the index -/

theorem all_live (h : Lists s S) (l : ListId m) : ∀ n ∈ S l, s.view.live n = true :=
  fun n hn => (h.live l n (Finset.mem_insert_of_mem hn)).1

theorem getPred_spec (h : Lists s S) (l : ListId m) (key : K) :
    (∀ fuel ix p, (s.index l).getPred s.view key fuel = some (ix, p) → ix = s.index l ∧
      IsPrev s.rank (S l) (head l) key p) ∧
    ∃ N, ∀ fuel, N ≤ fuel → ∃ p, (s.index l).getPred s.view key fuel = some (s.index l, p) := by
  obtain ⟨h1, N, hN⟩ := Index.getPred_spec key (h.indexed l) (s.rank_head l)
    (h.live l _ (Finset.mem_insert_self _ _)).1
  have hfilter : (S l).filter (s.view.live ·) = S l :=
    Finset.filter_true_of_mem (h.all_live l)
  have h2 : ∀ fuel ix p, (s.index l).getPred s.view key fuel = some (ix, p) → ix = s.index l ∧
      IsPrev s.rank (S l) (head l) key p := by
    intro fuel ix p hg
    obtain ⟨-, hp, he⟩ := h1 fuel ix p hg
    rw [hfilter] at hp
    exact ⟨he (h.all_live l), hp⟩
  refine ⟨h2, N, fun fuel hf => ?_⟩
  obtain ⟨⟨ix, p⟩, hx⟩ := Option.isSome_iff_exists.1 (hN fuel hf)
  obtain ⟨rfl, -⟩ := h2 fuel ix p hx
  exact ⟨p, hx⟩

variable {c : Ctx K V m} {fuel : Nat} {l : ListId m} {key : K} {E : Err → Ctx K V m → Prop}

/-- The index search does not get to its end with this fuel. -/
def Starved (c : Ctx K V m) (fuel : Nat) (l : ListId m) (key : K) : Prop :=
  fuel = 0 ∨ (c.shared.index l).getPred c.shared.view key fuel = none

theorem not_starved (h : Lists c.shared S) (l : ListId m) (key : K) :
    ∃ N, ∀ fuel, N ≤ fuel → ¬ Starved c fuel l key := by
  obtain ⟨-, N, hN⟩ := h.getPred_spec l key
  refine ⟨N + 1, fun fuel hf hs => ?_⟩
  rcases hs with hs | hs
  · omega
  · obtain ⟨p, hp⟩ := hN fuel (by omega)
    rw [hs] at hp
    simp at hp

theorem indexGetPred_ends (h : Lists c.shared S) {Q : NodeId → Ctx K V m → Prop}
    (hQ : ∀ p, IsPrev c.shared.rank (S l) (head l) key p → Q p c)
    (hE : Starved c fuel l key → E .diverged c) : Ends (indexGetPred fuel l key) c Q E := by
  simp only [indexGetPred, Ends_onIndex]
  refine ⟨fun hn => hE (.inr hn), fun ix p hp => ?_⟩
  obtain ⟨rfl, hprev⟩ := (h.getPred_spec l key).1 fuel ix p hp
  simpa using hQ p hprev

/-! ## Searching as a singleton -/

/-- The node leads to one with the key. -/
def found (s : Shared K V m) (key : K) (p : NodeId) : Bool :=
  match s.next p with
  | some y => (s.mem y).key = key
  | none => false

theorem find_node_singelton_ends (h : Lists c.shared S)
    (hu : ∀ n, (c.shared.mem n).isLocked = false)
    {Q : Bool × NodeId × Option NodeId → Ctx K V m → Prop}
    (hQ : ∀ p, IsPrev c.shared.rank (S l) (head l) key p →
      Q (found c.shared key p, p, c.shared.next p) c)
    (hE : Starved c fuel l key → E .diverged c) :
    Ends (find_node_singelton fuel l key fuel) c Q E := by
  rcases fuel with _ | fuel
  · exact hE (.inl rfl)
  have hfree : ∀ n, n ∈ insert (head l) (S l) → (c.shared.mem n).isLockedOrDeleted = false := by
    intro n hn
    have h1 := hu n
    have h2 := (h.live l n hn).2
    simp only [LNode.isLocked, LNode.isDeleted] at h1 h2
    simp [LNode.isLockedOrDeleted, Word.isLockedOrDeleted, h1, h2]
  simp only [find_node_singelton, getPredSingleton, Ends_bind]
  refine h.indexGetPred_ends (fun p hp => ?_) hE
  simp only [getPredSingletonLoop, Ends_bind, Ends_node, hfree p hp.1, Bool.false_eq_true, if_false,
    Ends_pure, hu p]
  have hQp := hQ p hp
  rcases hn : (c.shared.mem p).next with _ | y
  · simp only [findSingletonLoop, Ends_pure]
    simpa only [found, Shared.next, hn] using hQp
  · have hy : y ∈ S l := (h.threads l).next_mem hp.1 hn
    have hge := (h.threads l).le_of_next hp hn
    rw [h.rank_mem hy, WithBot.coe_le_coe] at hge
    simp only [found, Shared.next, hn] at hQp
    simp only [findSingletonLoop, Ends_bind, Ends_node, hfree y (Finset.mem_insert_of_mem hy),
      Bool.false_eq_true, if_false]
    simp only [Ends_ite, Ends_pure, Ends_bind, Ends_node]
    refine ⟨fun he => by simpa [he, hn] using hQp, fun hne => ⟨fun _ => by simpa [hne] using hQp,
      fun hlt => absurd (lt_of_le_of_ne hge fun he => hne he.symm) hlt⟩⟩

/-- A node with the key stands right after the one right below it. -/
theorem found_iff (h : Lists s S) {p : NodeId} (hp : IsPrev s.rank (S l) (head l) key p) :
    found s key p = true ↔ ∃ y ∈ S l, s.next p = some y ∧ s.rank y = (key : WithBot K) := by
  simp only [found]
  rcases hn : s.next p with _ | y
  · simp
  · have hy : y ∈ S l := (h.threads l).next_mem hp.1 hn
    simp only [decide_eq_true_eq, Option.some.injEq]
    constructor
    · intro hk
      exact ⟨y, hy, rfl, by rw [h.rank_mem hy, hk]⟩
    · rintro ⟨y', hy', rfl, hk⟩
      rw [h.rank_mem hy', WithBot.coe_inj] at hk
      exact hk

theorem not_found (h : Lists s S) {p : NodeId} (hp : IsPrev s.rank (S l) (head l) key p)
    (hf : found s key p = false) : ∀ n ∈ S l, s.rank n ≠ (key : WithBot K) := by
  intro n hn hk
  rw [← hk] at hp
  have hnext := (h.threads l).next_of_isPrev hn hp
  rw [hk] at hp
  have := (h.found_iff hp).2 ⟨n, hn, hnext, hk⟩
  rw [hf] at this
  simp at this

/-- `getSingleton` reads the list's map. -/
theorem getSingleton_ends (h : Lists c.shared S) (hu : ∀ n, (c.shared.mem n).isLocked = false)
    {Q : Option V → Ctx K V m → Prop} (hQ : Q (c.shared.lookup l key) c)
    (hE : Starved c fuel l key → E .diverged c) : Ends (getSingleton fuel l key) c Q E := by
  simp only [getSingleton, Ends_bind]
  refine h.find_node_singelton_ends hu (fun p hp => ?_) hE
  rcases hf : found c.shared key p with _ | _
  · have hnone : c.shared.lookup l key = none := by
      rcases hl : c.shared.lookup l key with _ | v
      · rfl
      · obtain ⟨n, hn, hk, -⟩ := h.lookup_eq_some.1 hl
        exact absurd hk (h.not_found hp hf n hn)
    rw [hnone] at hQ
    simpa using hQ
  · obtain ⟨y, hy, hn, hk⟩ := (h.found_iff hp).1 hf
    obtain ⟨v, hv⟩ := Option.isSome_iff_exists.1
      (h.live l y (Finset.mem_insert_of_mem hy)).1
    rw [h.lookup_eq_some.2 ⟨y, hy, hk, hv⟩] at hQ
    simpa only [hn, Ends_bind, Ends_node, Ends_pure, hv] using hQ

end Lists

end TxList
