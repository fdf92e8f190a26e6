import TxList.Proofs.Reach

/-!
# What a live transaction has to show for its calls

A live transaction's calls so far, replayed on the committed maps, give what it sees: keys it has
put or removed are in its write set or its new nodes, and the others it sees as they are. The nodes
it has read guard the keys it has asked for: while they stay as they are, so does whether the keys
are there, and for the keys it has put or removed also the value.
-/

namespace TxList

open Prog Chain

variable {K V : Type} {m : Nat}

/-! ## Reading a key -/

section Reads

variable {rank rank' : NodeId → WithBot K} {val val' : NodeId → Option V} {A A' : Finset NodeId}
  {key : K} {o o' : Option V}

theorem Reads.congr (h : Reads rank val A key o)
    (hA : ∀ n, n ∈ A' ∧ rank' n = key ↔ n ∈ A ∧ rank n = key)
    (hv : ∀ n ∈ A, rank n = key → val' n = val n) : Reads rank' val' A' key o := by
  rcases o with _ | v
  · exact fun n hn hk => h n ((hA n).1 ⟨hn, hk⟩).1 ((hA n).1 ⟨hn, hk⟩).2
  · obtain ⟨n, hn, hk, hval⟩ := h
    obtain ⟨hn', hk'⟩ := (hA n).2 ⟨hn, hk⟩
    exact ⟨n, hn', hk', (hv n hn hk).trans hval⟩

theorem Reads.unique (hA : ∀ n ∈ A, ∀ n' ∈ A, rank n = rank n' → n = n') (h : Reads rank val A key o)
    (h' : Reads rank val A key o') : o = o' := by
  rcases o with _ | v <;> rcases o' with _ | v'
  · rfl
  · obtain ⟨n, hn, hk, -⟩ := h'
    exact absurd hk (h n hn)
  · obtain ⟨n, hn, hk, -⟩ := h
    exact absurd hk (h' n hn)
  · obtain ⟨n, hn, hk, hv⟩ := h
    obtain ⟨n', hn', hk', hv'⟩ := h'
    rw [hA n hn n' hn' (hk.trans hk'.symm), hv'] at hv
    exact hv.symm

theorem Reads.of_mem {n : NodeId} (hn : n ∈ A) (hk : rank n = key) (hv : (val n).isSome = true) :
    Reads rank val A key (val n) := by
  obtain ⟨v, hv⟩ := Option.isSome_iff_exists.1 hv
  rw [hv]
  exact ⟨n, hn, hk, hv⟩

theorem Reads.isSome (h : Reads rank val A key o) :
    o.isSome = true ↔ ∃ n ∈ A, rank n = key := by
  rcases o with _ | v
  · simpa [Reads] using h
  · obtain ⟨n, hn, hk, -⟩ := h
    simpa using ⟨n, hn, hk⟩

end Reads

variable [LinearOrder K]

/-! ## Replaying -/

namespace Maps

variable {M M' : Maps K V m} {P : Option V → Rec K V m → Prop} {cur : List (Rec K V m)}
  {r : Rec K V m} {l : ListId m} {key : K}

theorem replay_append (M : Maps K V m) (xs ys : List (Rec K V m)) :
    M.replay (xs ++ ys) = (M.replay xs).replay ys := by
  simp [replay]

theorem replay_cons (M : Maps K V m) (r : Rec K V m) (cur : List (Rec K V m)) :
    M.replay (r :: cur) = (M.apply r).replay cur := rfl

theorem apply_of_not (h : ¬ r.Updates l key) : M.apply r l key = M l key := by
  cases r with
  | put l' key' val ret =>
    by_cases hl : l = l'
    · subst hl
      have hk : key ≠ key' := fun hk => h ⟨rfl, rfl, hk.symm⟩
      simp [Maps.apply, Maps.set, hk]
    · simp [Maps.apply, Maps.set, hl]
  | remove l' key' ret =>
    by_cases hl : l = l'
    · subst hl
      have hk : key ≠ key' := fun hk => h ⟨rfl, rfl, hk.symm⟩
      simp [Maps.apply, Maps.set, hk]
    · simp [Maps.apply, Maps.set, hl]
  | get => rfl
  | containsKey => rfl

theorem apply_of_updates (h : r.Updates l key) : M.apply r l key = M'.apply r l key := by
  obtain ⟨hu, rfl, rfl⟩ := h
  cases r with
  | put => simp [Maps.apply, Maps.set, Rec.list, Rec.key]
  | remove => simp [Maps.apply, Maps.set, Rec.list, Rec.key]
  | get => simp [Rec.isUpdate] at hu
  | containsKey => simp [Rec.isUpdate] at hu

theorem apply_congr (h : M l key = M' l key) : M.apply r l key = M'.apply r l key := by
  by_cases hr : r.Updates l key
  · exact apply_of_updates hr
  · rw [apply_of_not hr, apply_of_not hr, h]

/-- A key nobody updates keeps its value. -/
theorem replay_of_not : ∀ {cur : List (Rec K V m)} {M : Maps K V m},
    (∀ r ∈ cur, ¬ r.Updates l key) → M.replay cur l key = M l key
  | [], _, _ => rfl
  | r :: cur, M, h => by
    rw [replay_cons, replay_of_not fun r hr => h r (by simp [hr]), apply_of_not (h r (by simp))]

theorem replay_congr : ∀ {cur : List (Rec K V m)} {M M' : Maps K V m}, M l key = M' l key →
    M.replay cur l key = M'.replay cur l key
  | [], _, _, h => h
  | r :: cur, M, M', h => by
    rw [replay_cons, replay_cons]
    exact replay_congr (apply_congr h)

/-- An updated key's value does not depend on where the replay starts. -/
theorem replay_of_updates : ∀ {cur : List (Rec K V m)} {M M' : Maps K V m},
    (∃ r ∈ cur, r.Updates l key) → M.replay cur l key = M'.replay cur l key
  | [], _, _, h => by simp at h
  | r :: cur, M, M', h => by
    rw [replay_cons, replay_cons]
    by_cases hr : r.Updates l key
    · exact replay_congr (apply_of_updates hr)
    · obtain ⟨r', hr', hu⟩ := h
      rcases List.mem_cons.1 hr' with rfl | hr'
      · exact absurd hu hr
      · exact replay_of_updates ⟨r', hr', hu⟩

theorem All_append : ∀ {xs ys : List (Rec K V m)} {M : Maps K V m},
    M.All P (xs ++ ys) ↔ M.All P xs ∧ (M.replay xs).All P ys
  | [], _, _ => by simp [All, replay]
  | r :: xs, ys, M => by
    rw [List.cons_append, All, All, All_append, and_assoc]
    rfl

theorem All.mono {Q : Option V → Rec K V m → Prop} (hPQ : ∀ o r, P o r → Q o r) :
    ∀ {cur : List (Rec K V m)} {M : Maps K V m}, M.All P cur → M.All Q cur
  | [], _, _ => trivial
  | _ :: _, _, h => ⟨hPQ _ _ h.1, h.2.mono hPQ⟩

/-- Replaying from other maps that agree, for what `P` asks, on the keys looked up. -/
theorem All.rebase : ∀ {cur : List (Rec K V m)} {M M' : Maps K V m},
    (∀ r ∈ cur, P (M r.list r.key) r → P (M' r.list r.key) r) → M.All P cur → M'.All P cur
  | [], _, _, _, _ => trivial
  | r :: cur, M, M', h, hP => by
    refine ⟨h r (by simp) hP.1, hP.2.rebase fun r' hr' => ?_⟩
    by_cases hu : r.Updates r'.list r'.key
    · rw [show M'.apply r r'.list r'.key = M.apply r r'.list r'.key from apply_of_updates hu]
      exact id
    · rw [apply_of_not hu, apply_of_not hu]
      exact h r' (by simp [hr'])

end Maps

/-- What the calls of a live transaction returned: a `remove` the key's value, a `put` and a `get`
whether the key was there, `containsKey` as well. -/
def Rec.Sound (o : Option V) : Rec K V m → Prop
  | .put _ _ _ ret => ret.isSome = o.isSome
  | .remove _ _ ret => ret = o
  | .get _ _ ret => ret.isSome = o.isSome
  | .containsKey _ _ ret => ret = o.isSome

section Lookup

variable {s : Shared K V m} {S : ListId m → Finset NodeId} {l : ListId m} {key : K} {o : Option V}

theorem Lists.reads_lookup (hL : Lists s S) (l : ListId m) (key : K) :
    Reads s.rank (fun n => (s.mem n).val) (S l) key (s.lookup l key) := by
  rcases hl : s.lookup l key with _ | v
  · intro n hn hk
    obtain ⟨v, hv⟩ := Option.isSome_iff_exists.1 (hL.live l n (Finset.mem_insert_of_mem hn)).1
    rw [hL.lookup_eq_some.2 ⟨n, hn, hk, hv⟩] at hl
    simp at hl
  · exact hL.lookup_eq_some.1 hl

theorem Lists.lookup_eq (hL : Lists s S)
    (h : Reads s.rank (fun n => (s.mem n).val) (S l) key o) :
    s.lookup l key = o :=
  (hL.reads_lookup l key).unique (hL.threads l).inj h

end Lookup

/-! ## The accounts -/

/-- The nodes read tell whether the key is there: the node with the key is one of them, or the node
below it is. -/
def Guarded (S : ListId m → Finset NodeId) (c : Ctx K V m) (l : ListId m) (key : K) : Prop :=
  (∃ n ∈ S l, c.shared.rank n = key ∧ n ∈ c.storage.readSet) ∨
    ∀ p, IsPrev c.shared.rank (S l) (head l) key p → p ∈ c.storage.readSet

/-- A node with the key has been read. -/
def Covered (S : ListId m → Finset NodeId) (c : Ctx K V m) (l : ListId m) (key : K) : Prop :=
  ∀ n ∈ S l, c.shared.rank n = key → n ∈ c.storage.readSet

/-- The calls `cur` of a live transaction, over the committed maps `M`. -/
structure Accounts (M : Maps K V m) (S : ListId m → Finset NodeId) (cur : List (Rec K V m))
    (c : Ctx K V m) : Prop where
  view : ∀ l key, (∃ r ∈ cur, r.Updates l key) →
    Reads c.shared.rank (c.storage.valOf c.shared.mem) (c.storage.seen S l) key (M.replay cur l key)
  guarded : ∀ r ∈ cur, Guarded S c r.list r.key
  covered : ∀ r ∈ cur, r.isUpdate = true → Covered S c r.list r.key
  sound : M.All Rec.Sound cur

section Own

variable {M : Maps K V m} {S : ListId m → Finset NodeId} {cur : List (Rec K V m)} {c c' : Ctx K V m}
  {l : ListId m} {key : K} {val : V} {p x : NodeId} {r : Rec K V m}

theorem Accounts.empty (M : Maps K V m) (S : ListId m → Finset NodeId) (c : Ctx K V m) :
    Accounts M S [] c :=
  ⟨fun l key h => by simp at h, fun r hr => by simp at hr, fun r hr => by simp at hr, trivial⟩

/-- What the transaction sees is the replay of its calls. -/
theorem Accounts.view_all (h : Accounts M S cur c) (hV : Viewed S cur c) (hL : Lists c.shared S)
    (hM : ∀ l key, c.shared.lookup l key = M l key) (l : ListId m) (key : K) :
    Reads c.shared.rank (c.storage.valOf c.shared.mem) (c.storage.seen S l) key
      (M.replay cur l key) := by
  by_cases hu : ∃ r ∈ cur, r.Updates l key
  · exact h.view l key hu
  · push Not at hu
    have hU := hV.untouched l key hu
    rw [Maps.replay_of_not hu, ← hM]
    refine (hL.reads_lookup l key).congr (fun n => ?_) fun n hn hk => (hU.kept n hn hk).2
    refine and_congr_left fun hk => ?_
    rw [LocalStorage.mem_seen]
    constructor
    · rintro ⟨hn | hn, -⟩
      · exact hn
      · exact absurd hk (hU.added n hn)
    · exact fun hn => ⟨.inl hn, (hU.kept n hn hk).1⟩

/-- One more call, which changes what the transaction sees of the key it updates only. -/
theorem Accounts.extend (h : Accounts M S cur c)
    (hrank : ∀ l, ∀ n ∈ insert (head l) (S l), c'.shared.rank n = c.shared.rank n)
    (hread : c.storage.readSet ⊆ c'.storage.readSet)
    (hsame : ∀ l key, ¬ r.Updates l key → (∀ n, n ∈ c'.storage.seen S l ∧ c'.shared.rank n = key ↔
      n ∈ c.storage.seen S l ∧ c.shared.rank n = key) ∧ ∀ n ∈ c.storage.seen S l,
      c.shared.rank n = key → c'.storage.valOf c'.shared.mem n = c.storage.valOf c.shared.mem n)
    (hown : r.isUpdate = true → Reads c'.shared.rank (c'.storage.valOf c'.shared.mem)
      (c'.storage.seen S r.list) r.key ((M.replay cur).apply r r.list r.key))
    (hguard : Guarded S c' r.list r.key) (hcover : r.isUpdate = true → Covered S c' r.list r.key)
    (hsound : r.Sound (M.replay cur r.list r.key)) : Accounts M S (cur ++ [r]) c' := by
  have hG : ∀ l key, Guarded S c l key → Guarded S c' l key := by
    rintro l key (⟨n, hn, hk, hr⟩ | hp)
    · exact .inl ⟨n, hn, by rw [hrank l n (Finset.mem_insert_of_mem hn)]; exact hk, hread hr⟩
    · exact .inr fun p hp' => hread (hp p (hp'.congr_rank fun n hn => (hrank l n hn).symm))
  have hC : ∀ l key, Covered S c l key → Covered S c' l key := by
    intro l key hcov n hn hk
    rw [hrank l n (Finset.mem_insert_of_mem hn)] at hk
    exact hread (hcov n hn hk)
  refine ⟨fun l key hu => ?_, fun r' hr' => ?_, fun r' hr' hu => ?_, ?_⟩
  · rw [Maps.replay_append]
    show Reads _ _ _ _ ((M.replay cur).apply r l key)
    by_cases hr : r.Updates l key
    · obtain ⟨hr, rfl, rfl⟩ := hr
      exact hown hr
    · rw [Maps.apply_of_not hr]
      obtain ⟨hiff, hval⟩ := hsame l key hr
      refine (h.view l key ?_).congr hiff hval
      obtain ⟨r', hr', hu⟩ := hu
      rcases List.mem_append.1 hr' with hr' | hr'
      · exact ⟨r', hr', hu⟩
      · exact absurd (List.mem_singleton.1 hr' ▸ hu) hr
  · rcases List.mem_append.1 hr' with hr' | hr'
    · exact hG _ _ (h.guarded r' hr')
    · rw [List.mem_singleton.1 hr']
      exact hguard
  · rcases List.mem_append.1 hr' with hr' | hr'
    · exact hC _ _ (h.covered r' hr' hu)
    · rw [List.mem_singleton.1 hr'] at hu ⊢
      exact hcover hu
  · exact Maps.All_append.2 ⟨h.sound, hsound, trivial⟩

section Calls

variable (h : Accounts M S cur c) (hV : Viewed S cur c) (hL : Lists c.shared S) (hs : Sane c)
  (hM : ∀ l key, c.shared.lookup l key = M l key)

include hV hL hs

/-- The node right below a key in what the transaction sees guards the key. -/
theorem guarded_of_prev (hp : IsPrev c.shared.rank (c.storage.seen S l) (head l) key p)
    (hrank : ∀ l, ∀ n ∈ insert (head l) (S l), c'.shared.rank n = c.shared.rank n)
    (hread : c.storage.readSet ⊆ c'.storage.readSet) (hpr : p ∈ c'.storage.readSet) :
    Guarded S c' l key := by
  refine .inr fun q hq => ?_
  have hq' : IsPrev c.shared.rank (S l) (head l) key q :=
    hq.congr_rank fun n hn => (hrank l n hn).symm
  rcases hV.overlay.prev_eq_or_written hL hp hq' with rfl | hw
  · exact hpr
  · exact hread (hs.write_read q hw)

omit [LinearOrder K] hL hV in
/-- A node of a list that the transaction does not see has been read. -/
theorem covered_of_seen (hread : ∀ n ∈ c.storage.seen S l, c.shared.rank n = key →
    n ∈ c'.storage.readSet) (hsub : c.storage.readSet ⊆ c'.storage.readSet)
    (hrank : ∀ l, ∀ n ∈ insert (head l) (S l), c'.shared.rank n = c.shared.rank n) :
    Covered S c' l key := by
  intro n hn hk
  rw [hrank l n (Finset.mem_insert_of_mem hn)] at hk
  rcases hd : c.storage.deletes n with _ | _
  · exact hread n (LocalStorage.mem_seen.2 ⟨.inl hn, hd⟩) hk
  · exact hsub (hs.write_read n (LocalStorage.mem_of_deletes hd))

include h

theorem Accounts.read (hp : IsPrev c.shared.rank (c.storage.seen S l) (head l) key p)
    (hlist : r.list = l) (hkey : r.key = key) (hr : r.isUpdate = false)
    (hsound : r.Sound (M.replay cur l key)) :
    Accounts M S (cur ++ [r]) { c with storage := c.storage.addToReadSet p } := by
  have hno : ∀ {P : Prop}, r.isUpdate = true → P := fun hu => by simp [hr] at hu
  subst hlist hkey
  refine h.extend (fun _ _ _ => rfl) (Finset.subset_insert _ _)
    (fun l key _ => ⟨fun n => Iff.rfl, fun n _ _ => rfl⟩) hno ?_ hno hsound
  exact guarded_of_prev hV hL hs hp (fun _ _ _ => rfl) (Finset.subset_insert _ _)
    (Finset.mem_insert_self _ _)

include hM

theorem Accounts.missed (hp : IsPrev c.shared.rank (c.storage.seen S l) (head l) key p)
    (habs : ∀ n ∈ c.storage.seen S l, c.shared.rank n ≠ key) :
    Accounts M S (cur ++ [.remove l key none])
      { c.writing with storage := c.storage.addToReadSet p } := by
  refine h.extend (fun _ _ _ => rfl) (Finset.subset_insert _ _)
    (fun l key _ => ⟨fun n => Iff.rfl, fun n _ _ => rfl⟩) (fun _ => ?_) ?_ (fun _ => ?_) ?_
  · simp only [Maps.apply, Maps.set, Rec.list, Rec.key, Function.update_self]
    exact habs
  · exact guarded_of_prev hV hL hs hp (fun _ _ _ => rfl) (Finset.subset_insert _ _)
      (Finset.mem_insert_self _ _)
  · exact covered_of_seen hs (fun n hn hk => absurd hk (habs n hn)) (Finset.subset_insert _ _)
      fun _ _ _ => rfl
  · exact Reads.unique (hV.overlay.threads l).inj (o := none) habs (h.view_all hV hL hM l key)

theorem Accounts.overwrite (hx : x ∈ c.storage.seen S l) (hk : c.shared.rank x = key) :
    Accounts M S (cur ++ [.put l key val (c.shared.mem x).val])
      { c.writing with storage := c.storage.overwrite c.shared.mem x val } := by
  have hseen : ∀ l, (c.storage.overwrite c.shared.mem x val).seen S l = c.storage.seen S l :=
    fun l => LocalStorage.seen_overwrite
  have hread : c.storage.readSet ⊆ (c.storage.overwrite c.shared.mem x val).readSet :=
    Finset.subset_insert _ _
  have hxr : x ∈ (c.storage.overwrite c.shared.mem x val).readSet := Finset.mem_insert_self _ _
  have hinj := (hV.overlay.threads l).inj
  refine h.extend (fun _ _ _ => rfl) hread (fun l' key' hno => ⟨fun n => ?_, fun n hn hr => ?_⟩)
    (fun _ => ?_) ?_ (fun _ => ?_) ?_
  · show n ∈ (c.storage.overwrite c.shared.mem x val).seen S l' ∧ _ ↔ _
    rw [hseen]
    rfl
  · have hne : n ≠ x := by
      rintro rfl
      obtain rfl := hV.overlay.seen_unique hL (Finset.mem_insert_of_mem hn)
        (Finset.mem_insert_of_mem hx)
      exact hno ⟨rfl, rfl, WithBot.coe_inj.1 (hk.symm.trans hr)⟩
    show (c.storage.overwrite c.shared.mem x val).valOf c.shared.mem n = _
    rw [LocalStorage.overwrite_valOf, if_neg hne]
  · simp only [Maps.apply, Maps.set, Rec.list, Rec.key, Function.update_self]
    refine ⟨x, ?_, hk, ?_⟩
    · show x ∈ (c.storage.overwrite c.shared.mem x val).seen S l
      rw [hseen]
      exact hx
    · show (c.storage.overwrite c.shared.mem x val).valOf c.shared.mem x = some val
      rw [LocalStorage.overwrite_valOf, if_pos rfl]
  · rcases (LocalStorage.mem_seen.1 hx).1 with hxS | hxA
    · exact .inl ⟨x, hxS, hk, hxr⟩
    · refine .inr fun q hq => hread (hs.write_read q ?_)
      exact (hV.overlay.patch l).prev x (Finset.mem_union_right _ (List.mem_toFinset.2 hxA)) q
        (by rw [hk]; exact hq)
  · exact covered_of_seen hs (fun n hn hr => hinj n hn x hx (hr.trans hk.symm) ▸ hxr) hread
      fun _ _ _ => rfl
  · have hval : (c.shared.mem x).val.isSome = true := by
      rcases (LocalStorage.mem_seen.1 hx).1 with hxS | hxA
      · exact (hL.live l x (Finset.mem_insert_of_mem hxS)).1
      · exact (hV.overlay.new l x hxA).2.2.1
    show (c.shared.mem x).val.isSome = (M.replay cur l key).isSome
    rw [hval, (h.view_all hV hL hM l key).isSome.2 ⟨x, hx, hk⟩]

theorem Accounts.unlink (hx : x ∈ c.storage.seen S l) (hk : c.shared.rank x = key)
    (hp : IsPrev c.shared.rank (c.storage.seen S l) (head l) key p) :
    Accounts M S (cur ++ [.remove l key (c.storage.valOf c.shared.mem x)]) { c.writing with
      storage := c.storage.unlink c.shared.mem l p x (c.storage.nextOf c.shared.mem x) } := by
  have hne : p ≠ x := fun he => hp.2.1.ne (by rw [he, hk])
  set ls' := c.storage.unlink c.shared.mem l p x (c.storage.nextOf c.shared.mem x) with hls'
  have hinj := (hV.overlay.threads l).inj
  have hseen : ∀ l' n, n ∈ ls'.seen S l' ↔ n ∈ c.storage.seen S l' ∧ n ≠ x := fun l' n =>
    LocalStorage.mem_seen_unlink hne (hV.overlay.kept hp.1)
  have hread : ∀ n, n ∈ ls'.readSet ↔ n = x ∨ n = p ∨ n ∈ c.storage.readSet := by
    intro n
    simp [hls', LocalStorage.unlink, LocalStorage.relink]
  have hsub : c.storage.readSet ⊆ ls'.readSet := fun n hn => (hread n).2 (.inr (.inr hn))
  refine h.extend (fun _ _ _ => rfl) hsub (fun l' key' hno => ⟨fun n => ?_, fun n hn hr => ?_⟩)
    (fun _ => ?_) ?_ (fun _ => ?_) ?_
  · show n ∈ ls'.seen S l' ∧ _ ↔ _
    rw [hseen]
    refine ⟨fun hn => ⟨hn.1.1, hn.2⟩, fun hn => ⟨⟨hn.1, ?_⟩, hn.2⟩⟩
    rintro rfl
    obtain rfl := hV.overlay.seen_unique hL (Finset.mem_insert_of_mem hn.1)
      (Finset.mem_insert_of_mem hx)
    exact hno ⟨rfl, rfl, WithBot.coe_inj.1 (hk.symm.trans hn.2)⟩
  · exact LocalStorage.unlink_valOf hne
  · simp only [Maps.apply, Maps.set, Rec.list, Rec.key, Function.update_self]
    intro n hn hr
    obtain ⟨hn, hnx⟩ := (hseen l n).1 hn
    exact hnx (hinj n hn x hx (hr.trans hk.symm))
  · exact guarded_of_prev hV hL hs hp (fun _ _ _ => rfl) hsub ((hread p).2 (.inr (.inl rfl)))
  · exact covered_of_seen hs
      (fun n hn hr => (hread n).2 (.inl (hinj n hn x hx (hr.trans hk.symm)))) hsub fun _ _ _ => rfl
  · exact Reads.unique hinj
      (Reads.of_mem hx hk (hV.overlay.val l x (Finset.mem_insert_of_mem hx)))
      (h.view_all hV hL hM l key)

theorem Accounts.insertAfter {y : LNode K V}
    (hp : IsPrev c.shared.rank (c.storage.seen S l) (head l) key p)
    (habs : ∀ n ∈ c.storage.seen S l, c.shared.rank n ≠ key)
    (hy : y = { key := key, val := some val, next := c.storage.nextOf c.shared.mem p }) :
    Accounts M S (cur ++ [.put l key val none]) { c.writing with
      shared := c.shared.alloc y
      storage := c.storage.insertAfter (c.shared.alloc y).mem l p c.shared.fresh } := by
  set s' := c.shared.alloc y with hs'
  set ls' := c.storage.insertAfter s'.mem l p c.shared.fresh with hls'
  have hmem : ∀ n < c.shared.fresh, s'.mem n = c.shared.mem n := fun n hn => by
    simp [hs', Function.update_of_ne (show n ≠ c.shared.fresh from hn.ne)]
  have hrank : ∀ n < c.shared.fresh, s'.rank n = c.shared.rank n := fun n hn => by
    simp only [Shared.rank, hmem n hn]
  have hrankS : ∀ l, ∀ n ∈ insert (head l) (S l), s'.rank n = c.shared.rank n := fun l n hn =>
    hrank n (hL.lt_fresh hs.heads hn)
  have hnew : s'.rank c.shared.fresh = key := by
    rw [Shared.rank_of_le _ hs.heads]
    simp [hs', hy]
  have hlt : ∀ l', ∀ n ∈ c.storage.seen S l', n < c.shared.fresh := by
    intro l' n hn
    rcases (LocalStorage.mem_seen.1 hn).1 with hn | hn
    · exact (hL.bound l' n hn).2
    · exact (hV.overlay.new l' n hn).2.1
  have hwf : c.shared.fresh ∉ c.storage.writeSet := fun hw =>
    (hs.readSet _ (hs.write_read _ hw)).ne rfl
  have hpf : c.shared.fresh ≠ p := by
    rcases Finset.mem_insert.1 hp.1 with rfl | hp'
    · exact (hL.lt_fresh hs.heads (Finset.mem_insert_self _ _)).ne'
    · exact (hlt l p hp').ne'
  have hseen : ∀ l' n, n ∈ ls'.seen S l' ↔
      n ∈ c.storage.seen S l' ∨ l' = l ∧ n = c.shared.fresh := fun l' n =>
    LocalStorage.mem_seen_insertAfter (hV.overlay.kept hp.1) hwf
  have hread : c.storage.readSet ⊆ ls'.readSet := Finset.subset_insert _ _
  refine h.extend hrankS hread (fun l' key' hno => ⟨fun n => ?_, fun n hn hr => ?_⟩)
    (fun _ => ?_) ?_ (fun _ => ?_) ?_
  · show n ∈ ls'.seen S l' ∧ s'.rank n = key' ↔ _
    rw [hseen]
    constructor
    · rintro ⟨hn | ⟨rfl, rfl⟩, hr⟩
      · exact ⟨hn, hrank n (hlt l' n hn) ▸ hr⟩
      · exact absurd ⟨rfl, rfl, WithBot.coe_inj.1 (hnew.symm.trans hr)⟩ hno
    · exact fun hn => ⟨.inl hn.1, (hrank n (hlt l' n hn.1)).trans hn.2⟩
  · show ls'.valOf s'.mem n = _
    rw [hls', LocalStorage.insertAfter_valOf]
    exact LocalStorage.valOf_congr fun _ => by rw [hmem n (hlt l' n hn)]
  · simp only [Maps.apply, Maps.set, Rec.list, Rec.key, Function.update_self]
    refine ⟨c.shared.fresh, (hseen l _).2 (.inr ⟨rfl, rfl⟩), hnew, ?_⟩
    show ls'.valOf s'.mem c.shared.fresh = some val
    rw [LocalStorage.valOf_of_notMem fun hw => ?_]
    · simp [hs', hy]
    · rcases LocalStorage.mem_insertAfter.1 hw with hw | hw
      · exact hpf hw
      · exact hwf hw
  · exact guarded_of_prev hV hL hs hp hrankS hread (Finset.mem_insert_self _ _)
  · exact covered_of_seen hs (fun n hn hk => absurd hk (habs n hn)) hread hrankS
  · have hnone : none = M.replay cur l key :=
      Reads.unique (hV.overlay.threads l).inj (o := none) habs (h.view_all hV hL hM l key)
    show (none : Option V).isSome = (M.replay cur l key).isSome
    rw [← hnone]

end Calls

end Own

/-! ## Someone else's step -/

section Others

variable {M M' : Maps K V m} {S D F : ListId m → Finset NodeId} {W : Set NodeId}
  {cur : List (Rec K V m)} {c : Ctx K V m} {s' : Shared K V m} {l : ListId m} {key : K}

variable (hL : Lists c.shared S) (hs : Sane c) (hM : Mutates c.shared s' S D F W)
  (hW : ∀ n ∈ c.storage.readSet, n ∉ W)

include hL hs hM

omit hs in
theorem Mutates.rank_node {n : NodeId} (hn : n ∈ S l) : s'.rank n = c.shared.rank n :=
  hM.rank (hL.bound l n hn).2

theorem Mutates.rank_listed {n : NodeId} (hn : n ∈ insert (head l) (S l)) :
    s'.rank n = c.shared.rank n :=
  hM.rank (hL.lt_fresh hs.heads hn)

theorem Mutates.ranked (l : ListId m) : Ranked s'.rank (head l) (S l) :=
  ((hL.threads l).congr (fun _ hn => hM.rank_listed hL hs hn) fun _ _ => rfl).toRanked

include hW

/-- Whether a guarded key is there, and on which node, does not change. -/
theorem Guarded.mem_iff (hG : Guarded S c l key) {n : NodeId} (hk : s'.rank n = key) :
    n ∈ patched (S l) (D l) (F l) ↔ n ∈ S l := by
  rcases hG with ⟨x, hx, hxk, hr⟩ | hp
  · have hx' : x ∈ patched (S l) (D l) (F l) :=
      mem_patched.2 (.inl ⟨hx, fun hd => hW x hr ((hM.patch l).del x hd)⟩)
    have hxk' : s'.rank x = key := (hM.rank_node hL hx).trans hxk
    constructor
    · intro hn
      rwa [(hM.lists.threads l).inj n hn x hx' (hk.trans hxk'.symm)]
    · intro hn
      rwa [(hM.ranked hL hs l).inj n hn x hx (hk.trans hxk'.symm)]
  · have hbot : s'.rank (head l) < key := by
      rw [s'.rank_head]
      exact WithBot.bot_lt_coe key
    obtain ⟨p, hp'⟩ := IsPrev.exists_of_bot (S := S l) hbot
    refine (hM.patch l).mem_iff hp' (hW p (hp p ?_)) hk
    exact hp'.congr_rank fun n hn => (hM.rank_listed hL hs hn).symm

theorem Guarded.mutate (hG : Guarded S c l key) :
    Guarded (fun l => patched (S l) (D l) (F l)) { c with shared := s' } l key := by
  rcases hG with ⟨x, hx, hxk, hr⟩ | hp
  · exact .inl ⟨x, mem_patched.2 (.inl ⟨hx, fun hd => hW x hr ((hM.patch l).del x hd)⟩),
      (hM.rank_node hL hx).trans hxk, hr⟩
  · refine .inr fun q hq => ?_
    have hbot : s'.rank (head l) < key := by
      rw [s'.rank_head]
      exact WithBot.bot_lt_coe key
    obtain ⟨p, hp'⟩ := IsPrev.exists_of_bot (S := S l) hbot
    have hpr := hp p (hp'.congr_rank fun n hn => (hM.rank_listed hL hs hn).symm)
    have hp'' := (hM.patch l).isPrev hp' (hW p hpr)
    rwa [IsPrev.unique (hM.lists.threads l).toRanked hq hp'']

theorem Covered.mutate (hC : Covered S c l key) (hG : Guarded S c l key) :
    Covered (fun l => patched (S l) (D l) (F l)) { c with shared := s' } l key := by
  intro n hn hk
  have hn' := (hG.mem_iff hL hs hM hW hk).1 hn
  exact hC n hn' ((hM.rank_node hL hn').symm.trans hk)

theorem Guarded.listed_iff (hG : Guarded S c l key) (n : NodeId) :
    n ∈ patched (S l) (D l) (F l) ∧ s'.rank n = key ↔ n ∈ S l ∧ c.shared.rank n = key := by
  constructor
  · rintro ⟨hn, hk⟩
    have hn' := (hG.mem_iff hL hs hM hW hk).1 hn
    exact ⟨hn', (hM.rank_node hL hn').symm.trans hk⟩
  · rintro ⟨hn, hk⟩
    have hk' := (hM.rank_node hL hn).trans hk
    exact ⟨(hG.mem_iff hL hs hM hW hk').2 hn, hk'⟩

/-- A guarded key stays there, or stays absent. -/
theorem Guarded.lookup_isSome (hG : Guarded S c l key) :
    (s'.lookup l key).isSome = (c.shared.lookup l key).isSome := by
  rw [Bool.eq_iff_iff, (hM.lists.reads_lookup l key).isSome, (hL.reads_lookup l key).isSome]
  simp only [hG.listed_iff hL hs hM hW]

/-- The value of a key stays when the node with the key is not written to. -/
theorem Guarded.lookup_eq (hG : Guarded S c l key)
    (hval : ∀ n ∈ S l, c.shared.rank n = key → (s'.mem n).val = (c.shared.mem n).val) :
    s'.lookup l key = c.shared.lookup l key :=
  hM.lists.lookup_eq ((hL.reads_lookup l key).congr (hG.listed_iff hL hs hM hW) hval)

theorem Accounts.mutate (h : Accounts M S cur c) (hV : Viewed S cur c)
    (hA : ∀ l, ∀ x ∈ c.storage.indexAdd l, x ∉ W)
    (hlook : ∀ l key, c.shared.lookup l key = M l key) (hlook' : ∀ l key, s'.lookup l key = M' l key) :
    Accounts M' (fun l => patched (S l) (D l) (F l)) cur { c with shared := s' } := by
  have hcov : ∀ r ∈ cur, r.isUpdate = true → ∀ n ∈ S r.list, c.shared.rank n = r.key →
      (s'.mem n).val = (c.shared.mem n).val := fun r hr hu n hn hk =>
    (hM.same n (hL.bound _ n hn).2 (hW n (h.covered r hr hu n hn hk))).2.1
  refine ⟨fun l key hu => ?_, fun r hr => (h.guarded r hr).mutate hL hs hM hW, fun r hr hu =>
    (h.covered r hr hu).mutate hL hs hM hW (h.guarded r hr), h.sound.rebase fun r hr => ?_⟩
  · obtain ⟨r, hr, hupd, rfl, rfl⟩ := id hu
    rw [show M'.replay cur r.list r.key = M.replay cur r.list r.key from Maps.replay_of_updates hu]
    refine (h.view _ _ hu).congr (fun n => ?_) fun n hn hk => LocalStorage.valOf_congr fun _ => ?_
    · have hiff := (h.guarded r hr).listed_iff hL hs hM hW n
      simp only [LocalStorage.mem_seen]
      constructor
      · rintro ⟨⟨hn | hn, hd⟩, hk⟩
        · exact ⟨⟨.inl (hiff.1 ⟨hn, hk⟩).1, hd⟩, (hiff.1 ⟨hn, hk⟩).2⟩
        · exact ⟨⟨.inr hn, hd⟩, (hM.rank (hV.overlay.new _ n hn).2.1).symm.trans hk⟩
      · rintro ⟨⟨hn | hn, hd⟩, hk⟩
        · exact ⟨⟨.inl (hiff.2 ⟨hn, hk⟩).1, hd⟩, (hiff.2 ⟨hn, hk⟩).2⟩
        · exact ⟨⟨.inr hn, hd⟩, (hM.rank (hV.overlay.new _ n hn).2.1).trans hk⟩
    · rcases (LocalStorage.mem_seen.1 hn).1 with hn | hn
      · exact hcov r hr hupd n hn hk
      · exact (hM.same n (hV.overlay.new _ n hn).2.1 (hA _ n hn)).2.1
  · have hG := h.guarded r hr
    rw [← hlook, ← hlook']
    have hsome := hG.lookup_isSome hL hs hM hW
    cases r with
    | put => exact fun hsnd => hsnd.trans hsome.symm
    | remove l key ret =>
      have heq := hG.lookup_eq hL hs hM hW (hcov _ hr rfl)
      exact fun hsnd => hsnd.trans heq.symm
    | get => exact fun hsnd => hsnd.trans hsome.symm
    | containsKey => exact fun hsnd => hsnd.trans hsome.symm

end Others

end TxList
