import TxList.Proofs.Insertion
import TxList.Proofs.Fuel
import Mathlib.Data.Set.Card

/-!
# Singleton operations as operations on a finite map

With no transaction open the lists hold the maps that the calls so far have made, and every call
ends, returns what the map returns and leaves the list with the map it leaves.
-/

namespace TxList

open Prog Chain

variable {K V : Type} {m : Nat} [LinearOrder K]

/-- What the maps return to an operation. -/
def Maps.answer (M : Maps K V m) : Op K V m → Ret V
  | .put l key _ | .remove l key | .get l key => .val (M l key)
  | .containsKey l key => .bool (M l key).isSome
  | .txBegin | .txEnd | .handleAbort => .unit

/-- The maps after an operation. -/
def Maps.after (M : Maps K V m) : Op K V m → Maps K V m
  | .put l key val => M.set l key (some val)
  | .remove l key => M.set l key none
  | .get _ _ | .containsKey _ _ | .txBegin | .txEnd | .handleAbort => M

section Acts

variable {S : ListId m → Finset NodeId} {c c' : Ctx K V m} {op : Op K V m} {ret : Ret V}
  {l : ListId m} {key : K}

/-- A node's value is that of its key. -/
theorem Lists.lookup_of_mem {s : Shared K V m} (hL : Lists s S) {y : NodeId} (hy : y ∈ S l)
    (hk : s.rank y = key) : s.lookup l key = (s.mem y).val :=
  hL.lookup_eq (.of_mem hy hk (hL.live l y (Finset.mem_insert_of_mem hy)).1)

theorem Lists.lookup_of_absent {s : Shared K V m} (hL : Lists s S)
    (h : ∀ n ∈ S l, s.rank n ≠ key) : s.lookup l key = none :=
  hL.lookup_eq (o := none) h

/-- A singleton returns what the list's map returns. -/
theorem Act.answer (h : Act S c op ret c') (hL : Lists c.shared S) (hop : op.isAccess = true)
    (hF : c.transaction.TX = false) : ret = Maps.answer c.shared.lookup op := by
  have hno : ∀ {P : Prop}, c.transaction.TX = true → P := fun hT => by
    rw [hT] at hF
    simp at hF
  cases h with
  | opened | handled | rejected | cleared | finished | committed => simp [Op.isAccess] at hop
  | thrown _ hT => exact hno hT
  | strayed _ hT => exact hno hT
  | overwrote hl => exact hno hl.1
  | inserted hl => exact hno hl.1
  | unlinked hl => exact hno hl.1
  | missed hl => exact hno hl.1
  | read hl => exact hno hl.1
  | contained hl => exact hno hl.1
  | stamped _ hy hk => rw [Maps.answer, hL.lookup_of_mem hy hk]
  | linked _ _ habs => rw [Maps.answer, hL.lookup_of_absent habs]
  | cut _ hp hx hk => rw [Maps.answer, hL.lookup_of_mem ((hL.threads _).next_mem hp hx) hk]
  | absent _ habs => rw [Maps.answer, hL.lookup_of_absent habs]
  | gotten => rfl
  | checked => rfl

/-- A singleton `remove` leaves no value. -/
theorem Act.lookup_remove (h : Act S c (.remove l key) ret c') (hL : Lists c.shared S)
    (hF : c.transaction.TX = false) : c'.shared.lookup l key = none := by
  have hno : ∀ {P : Prop}, c.transaction.TX = true → P := fun hT => by
    rw [hT] at hF
    simp at hF
  cases h with
  | thrown _ hT => exact hno hT
  | strayed _ hT => exact hno hT
  | unlinked hl => exact hno hl.1
  | missed hl => exact hno hl.1
  | @cut _ _ p x s' _ hp hx hk hmem hM =>
    have hxS := (hL.threads l).next_mem hp hx
    refine hM.lists.lookup_of_absent fun n hn hnk => ?_
    rcases mem_patched.1 hn with ⟨hn, hnx⟩ | hn
    · rw [hM.rank (hL.bound l n hn).2, ← hk] at hnk
      exact hnx (by simp [(hL.threads l).inj n hn x hxS hnk])
    · simp at hn
  | absent _ habs => exact hL.lookup_of_absent habs

end Acts

section Runs

variable {C C' : Conf K V m} {S : ListId m → Finset NodeId} {t : ThreadId} {op : Op K V m}
  {ret : Ret V} {minKey : K} {dflt : V}

/-- The list's maps after a singleton's call. -/
theorem Inv.lookup_after (h : Inv C S) (hst : C.Step t op ret C') (hop : op.isAccess = true)
    (hF : C.inTX t = false) :
    C'.sys.shared.lookup = Maps.after C.sys.shared.lookup op := by
  obtain ⟨c', hc', hact, -, -⟩ := h.step_act hst
  have hleaves : ∀ {l key}, LeavesKey l key C t op →
      C'.sys.shared.lookup l key = C.sys.shared.lookup l key := fun hG => by
    rw [hc']
    exact hact.lookup_of_leaves hst h hG
  have hshared : C'.sys.shared = c'.shared := by rw [hc']; rfl
  funext l key
  cases op with
  | txBegin | txEnd | handleAbort => simp [Op.isAccess] at hop
  | get => exact hleaves trivial
  | containsKey => exact hleaves trivial
  | put l' key' val =>
    by_cases hk : l = l' ∧ key = key'
    · obtain ⟨rfl, rfl⟩ := hk
      rw [hshared, hact.lookup_put h.lists (h.sane t) hF]
      simp [Maps.after, Maps.set]
    · rw [hleaves (.inr (by tauto))]
      by_cases hl : l = l'
      · subst hl
        simp [Maps.after, Maps.set, show key ≠ key' from fun he => hk ⟨rfl, he⟩]
      · simp [Maps.after, Maps.set, hl]
  | remove l' key' =>
    by_cases hk : l = l' ∧ key = key'
    · obtain ⟨rfl, rfl⟩ := hk
      rw [hshared, hact.lookup_remove h.lists hF]
      simp [Maps.after, Maps.set]
    · rw [hleaves (.inr (by tauto))]
      by_cases hl : l = l'
      · subst hl
        simp [Maps.after, Maps.set, show key ≠ key' from fun he => hk ⟨rfl, he⟩]
      · simp [Maps.after, Maps.set, hl]

/-- The history's maps after a singleton's call. -/
theorem Hist.maps_after (H : Hist K V m) (M : Maps K V m) (hop : op.isAccess = true) :
    (H.step t false op (M.answer op)).maps = H.maps.after op := by
  cases op with
  | txBegin | txEnd | handleAbort => simp [Op.isAccess] at hop
  | put | remove | get | containsKey => rfl

/-- A singleton's call ends, given the fuel. -/
theorem Inv.settles (h : Inv C S) (hop : op.isAccess = true) (hF : C.inTX t = false) (ch : Choice) :
    Settles (fun n => call (ch.withFuel n) op) (C.sys.ctx t) (fun _ _ => True)
      (Throws fun _ => True) := by
  have hF : (C.sys.ctx t).transaction.TX = false := hF
  have hL : Lists (C.sys.ctx t).shared S := h.lists
  have hs := h.sane t
  have hget : ∀ l key, ∃ n, ∀ {Q : Option V → Ctx K V m → Prop},
      Q ((C.sys.ctx t).shared.lookup l key) (C.sys.ctx t) →
      Ends (getKey n l key) (C.sys.ctx t) Q (Throws fun _ => True) := by
    intro l key
    obtain ⟨N, hN⟩ := hL.not_starved l key
    refine ⟨N, fun hQ => ?_⟩
    simp only [getKey, Ends_bind, Ends_get, hF, Bool.false_eq_true, if_false]
    exact hL.getSingleton_ends hs.unlocked hQ fun hst => hN N le_rfl hst
  cases op with
  | txBegin | txEnd | handleAbort => simp [Op.isAccess] at hop
  | put l key val =>
    obtain ⟨n, hn⟩ := hL.not_putStarved hs ch.level l key val
    refine ⟨n, ?_⟩
    simp only [call, put, Ends_bind, Ends_get, hF, Bool.false_eq_true, if_false]
    exact (hL.putSingleton_acts hs hF fun hst => absurd hst hn).mono (fun _ _ _ => trivial)
      fun _ _ he => he
  | remove l key =>
    obtain ⟨n, hn⟩ := hL.not_removeStarved l key
    refine ⟨n, ?_⟩
    simp only [call, remove, Ends_bind, Ends_get, hF, Bool.false_eq_true, if_false]
    exact (hL.removeSingleton_acts hs hF fun hst => absurd hst hn).mono (fun _ _ _ => trivial)
      fun _ _ he => he
  | get l key =>
    obtain ⟨n, hn⟩ := hget l key
    refine ⟨n, ?_⟩
    simp only [call, Ends_bind]
    exact hn trivial
  | containsKey l key =>
    obtain ⟨n, hn⟩ := hget l key
    refine ⟨n, ?_⟩
    simp only [call, containsKey, Ends_bind]
    exact hn trivial

/-- In runs of singletons the lists hold the maps of the history. -/
theorem SingletonClient.lookup_eq (hr : Conf.Reach minKey dflt SingletonClient C) :
    SingletonOnly C ∧ C.sys.shared.lookup = C.hist.maps := by
  refine hr.keeps (J := fun C => SingletonOnly C ∧ C.sys.shared.lookup = C.hist.maps)
    ⟨.init minKey dflt, ?_⟩ ?_
  · funext l key
    exact (Inv.init minKey dflt).lists.lookup_of_absent fun n hn => by simp at hn
  · rintro C t op ret C' ⟨hO, hlook⟩ hG hst
    obtain ⟨S, h⟩ := hO.inv
    have hF := hO.closed t
    have hop : op.isAccess = true := by
      cases op <;> simp_all [SingletonClient, Op.isAccess]
    obtain ⟨c', -, hact, -, hhist⟩ := h.step_act hst
    have hret : ret = Maps.answer C.sys.shared.lookup op := hact.answer h.lists hop hF
    refine ⟨hO.step hG hst, ?_⟩
    rw [h.lookup_after hst hop hF, hhist, hF, hret, Hist.maps_after _ _ hop, hlook]

/-! ## The size -/

omit [LinearOrder K] in
theorem sizeLoop_ends {c : Ctx K V m} {E : Err → Ctx K V m → Prop} : ∀ {L : List NodeId}
    {fuel res : Nat}, Path c.shared.next L → L.length < fuel →
    Ends (sizeLoop fuel L.head? res) c (fun r c' => r = res + L.length ∧ c' = c) E
  | _, 0, _, _, hf => by simp at hf
  | [], fuel + 1, res, _, _ => by simp [sizeLoop]
  | n :: L, fuel + 1, res, hp, hf => by
    simp only [List.head?_cons, sizeLoop, Ends_bind, Ends_node]
    rw [show (c.shared.mem n).next = L.head? from hp.1]
    refine (sizeLoop_ends hp.2 (by simpa using hf)).mono (fun r c' hr => ?_) fun _ _ he => he
    rw [List.length_cons]
    exact ⟨by omega, hr.2⟩

/-- As many keys have a value as there are nodes after the head. -/
theorem Lists.ncard_keys {s : Shared K V m} (hL : Lists s S) (l : ListId m) :
    {key | (s.lookup l key).isSome = true}.ncard = (s.chain l).length := by
  obtain ⟨-, hmem, hsort⟩ := hL.chain_spec l
  have hkeys : {key | (s.lookup l key).isSome = true}
      = ((s.chain l).map fun n => (s.mem n).key).toFinset := by
    ext key
    simp only [Set.mem_ofPred_eq, (hL.reads_lookup l key).isSome, Finset.mem_coe, List.mem_toFinset,
      List.mem_map, hmem]
    refine exists_congr fun n => and_congr_right fun hn => ?_
    rw [hL.rank_mem hn, WithBot.coe_inj]
  rw [hkeys, Set.ncard_coe_finset, List.toFinset_card_of_nodup, List.length_map]
  refine (List.pairwise_map.2 (hsort.imp_of_mem fun {a b} ha hb hlt he => ?_))
  rw [hL.rank_mem ((hmem a).1 ha), hL.rank_mem ((hmem b).1 hb), he] at hlt
  exact lt_irrefl _ hlt

theorem Lists.get_size_ends {c : Ctx K V m} (hL : Lists c.shared S) (l : ListId m) :
    ∃ N, ∀ fuel, N ≤ fuel →
      get_size fuel l c = .ok {key | (c.shared.lookup l key).isSome = true}.ncard c := by
  obtain ⟨hp, -, -⟩ := hL.chain_spec l
  refine ⟨(c.shared.chain l).length + 2, fun fuel hf => ?_⟩
  have hends : Ends (get_size fuel l) c
      (fun r c' => r = {key | (c.shared.lookup l key).isSome = true}.ncard ∧ c' = c)
      fun _ _ => False := by
    simp only [get_size, Ends_bind, Ends_pure]
    refine (sizeLoop_ends (L := head l :: c.shared.chain l) hp ?_).mono (fun r c' hr => ?_)
      fun _ _ he => he
    · rw [List.length_cons]
      omega
    · rw [hL.ncard_keys, hr.1, List.length_cons]
      exact ⟨by omega, hr.2⟩
  rcases hr : get_size fuel l c with ⟨r, c'⟩ | ⟨e, c'⟩
  · obtain ⟨rfl, rfl⟩ := hends.ok hr
    rfl
  · exact (hends.error hr).elim

/-- Singleton operations implement finite maps: in every run of them each call ends and returns
what the map of the calls so far returns, and `get_size` counts its keys. -/
theorem singleton_finite_map (hr : Conf.Reach minKey dflt SingletonClient C) (t : ThreadId) :
    (∀ op : Op K V m, op.isAccess = true → C.Yields t op fun ret C' =>
      ret = C.hist.maps.answer op ∧ C'.hist.maps = C.hist.maps.after op) ∧
    ∀ l, ∃ N, ∀ fuel, N ≤ fuel → get_size fuel l (C.sys.ctx t) =
      .ok {key | (C.hist.maps l key).isSome = true}.ncard (C.sys.ctx t) := by
  obtain ⟨hO, hlook⟩ := SingletonClient.lookup_eq hr
  obtain ⟨S, h⟩ := hO.inv
  have hF := hO.closed t
  refine ⟨fun op hop => ⟨fun ch _ => Sys.exists_fuel (h.settles hop hF ch), fun {ret C'} hst => ?_⟩,
    fun l => ?_⟩
  · obtain ⟨c', -, hact, -, hhist⟩ := h.step_act hst
    have hret : ret = Maps.answer C.hist.maps op := by
      rw [← hlook]
      exact hact.answer h.lists hop hF
    refine ⟨hret, ?_⟩
    rw [hhist, hF, hret, Hist.maps_after _ _ hop]
  · rw [← hlook]
    exact Lists.get_size_ends (c := C.sys.ctx t) h.lists l

/-- A key put twice, another removed. -/
theorem singleton_finite_map_removed : ∃ C : Conf Nat Nat 1, Conf.Reach 0 0 SingletonClient C ∧
    C.hist.maps 0 0 = some 2 ∧ C.hist.maps 0 7 = none ∧
    C.Yields 0 (.get 0 0) (fun ret _ => ret = .val (some 2)) := by
  obtain ⟨C, hr, -, hp⟩ := Conf.exists_reach_of_decidable (G := SingletonClient) 0 0 1
    [(0, .put 0 0 1), (0, .put 0 7 3), (0, .put 0 0 2), (0, .remove 0 7)]
    (fun C : Conf Nat Nat 1 => decide (C.hist.maps 0 0 = some 2 ∧ C.hist.maps 0 7 = none))
    (by decide +kernel)
  obtain ⟨h1, h2⟩ := of_decide_eq_true hp
  have h := (singleton_finite_map hr 0).1 (.get 0 0) rfl
  refine ⟨C, hr, h1, h2, h.ends, fun hst => ?_⟩
  rw [(h.only hst).1, Maps.answer, h1]

end Runs

end TxList
