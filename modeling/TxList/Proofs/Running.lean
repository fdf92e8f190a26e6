import TxList.Proofs.Atomic
import TxList.Proofs.OwnView

/-!
# What a running transaction sees

A transaction checks the version of every node it passes, so as long as it is not told of a change it
searches the lists as they were at its `TXbegin`, with its own writes over them, whatever has been
committed since and whether it will commit itself. Two things escape its checks: a node that another
commit has brought into a list has the version 0, and a node that one of its own write elements leads
to is used unchecked. `Sighted` is the guard that no call of the transaction meets either.
-/

namespace TxList

open Prog Chain

variable {K V : Type} {m : Nat}

/-- The list and the key of a list operation. -/
def Op.key? : Op K V m → Option (ListId m × K)
  | .put l key _ | .remove l key | .get l key | .containsKey l key => some (l, key)
  | .txBegin | .txEnd | .handleAbort => none

/-- The nodes of the lists that the transaction began with, and those it has allocated since. -/
def Knows (S : ListId m → Finset NodeId) (ls : LocalStorage V m) (n : NodeId) : Prop :=
  ∃ l, n ∈ insert (head l) (S l) ∨ n ∈ ls.indexAdd l

/-- The same thread over other shared memory. -/
def Ctx.over (c : Ctx K V m) (z : Shared K V m) : Ctx K V m := { c with shared := z }

/-- `z` pictures the memory of a running transaction: of the nodes it knows, those that carry no
mark are there as they were. The picture itself carries no marks. -/
structure Picture (S : ListId m → Finset NodeId) (z : Shared K V m) (c : Ctx K V m) : Prop where
  fresh : z.fresh = c.shared.fresh
  next : ∀ n y, (z.mem n).next = some y → y < z.fresh
  index : ∀ l i, ((z.index l).nodes i).node < z.fresh
  blank : ∀ n, (z.mem n).word = {}
  clock : c.transaction.readVersion ≤ z.gvc
  key : ∀ n, Knows S c.storage n → (c.shared.mem n).key = (z.mem n).key
  same : ∀ n, Knows S c.storage n → ¬ Marked (c.shared.mem n) c.transaction.readVersion →
    (c.shared.mem n).next = (z.mem n).next ∧ (c.shared.mem n).val = (z.mem n).val

section Agree

variable {S : ListId m → Finset NodeId} {z : Shared K V m} {c : Ctx K V m} {l : ListId m} {n : NodeId}

theorem Knows.of_seen (hn : n ∈ insert (head l) (c.storage.seen S l)) : Knows S c.storage n := by
  rcases Finset.mem_insert.1 hn with rfl | hn
  · exact ⟨l, .inl (Finset.mem_insert_self _ _)⟩
  · exact ⟨l, (LocalStorage.mem_seen.1 hn).1.imp_left Finset.mem_insert_of_mem⟩

theorem not_marked_blank {x : LNode K V} (hx : x.word = {}) (rv : Nat) : ¬ Marked x rv := by
  rintro (h | h)
  · rw [hx] at h
    exact absurd h (Nat.not_lt_zero _)
  · rw [hx] at h
    simp at h

theorem Picture.live (h : Picture S z c) (hT : c.transaction.TX = true) : (c.over z).Live :=
  ⟨hT, fun n _ => not_marked_blank (h.blank n) _⟩

theorem Picture.sane (h : Picture S z c) (hs : Sane c) : Sane (c.over z) := by
  have hf : c.shared.fresh = z.fresh := h.fresh.symm
  refine ⟨hf ▸ hs.heads, h.next, h.index, fun n => ?_, fun n => ?_, h.clock, fun n hn => ?_,
    hs.write_read, fun n we y hw hy => ?_, fun l n hn => ?_⟩
  · show (z.mem n).word.version ≤ z.gvc
    rw [h.blank n]
    exact Nat.zero_le _
  · show (z.mem n).word.lock = false
    rw [h.blank n]
  · exact hf ▸ hs.readSet n hn
  · exact hf ▸ hs.write_next n we y hw hy
  · exact hf ▸ hs.indexAdd l n hn

variable (h : Picture S z c) (hn : Knows S c.storage n)
  (hc : n ∈ c.storage.writeSet ∨ ¬ Marked (c.shared.mem n) c.transaction.readVersion)

include h hn

theorem Picture.rank : c.shared.rank n = z.rank n := by
  rw [Shared.rank, Shared.rank, h.key n hn]

include hc

/-- A node that has been checked, or that the transaction writes to, leads on as in the picture. -/
theorem Picture.nextOf : c.storage.nextOf c.shared.mem n = c.storage.nextOf z.mem n :=
  LocalStorage.nextOf_congr fun hw => (h.same n hn (hc.resolve_left hw)).1

theorem Picture.valOf : c.storage.valOf c.shared.mem n = c.storage.valOf z.mem n :=
  LocalStorage.valOf_congr fun hw => (h.same n hn (hc.resolve_left hw)).2

end Agree

variable [LinearOrder K]

/-- Where a search for the key can enter the list: at the node below the key, and from a node that
the transaction has deleted at the one below that. -/
inductive Shared.Enters (s : Shared K V m) (ls : LocalStorage V m) (l : ListId m) (key : K) :
    NodeId → Prop
  | first : Enters s ls l key (s.below l key)
  | back {p : NodeId} : Enters s ls l key p → ls.deletes p = true →
      Enters s ls l key (s.below l (s.mem p).key)

/-- No node with the key that one of the write elements leads to has been changed. -/
def Ctx.LeadsTrue (c : Ctx K V m) (key : K) : Prop :=
  ∀ n we y, c.storage.writeSet.lookup n = some we → we.next = some y → (c.shared.mem y).key = key →
    ¬ Marked (c.shared.mem y) c.transaction.readVersion

section Search

variable {S S' : ListId m → Finset NodeId} {z : Shared K V m} {c : Ctx K V m} {l : ListId m}
  {key : K} {fuel : Nat}

/-- The node has been checked, or the transaction writes to it. -/
def Ctx.Trusts (c : Ctx K V m) (n : NodeId) : Prop :=
  n ∈ c.storage.writeSet ∨ ¬ Marked (c.shared.mem n) c.transaction.readVersion

/-- What a search finds: the place of the key in the picture, with the node before it trusted, and
the node there too unless a write element leads to it. -/
structure FoundIn (S : ListId m → Finset NodeId) (z : Shared K V m) (c : Ctx K V m) (l : ListId m)
    (key : K) (r : Bool × NodeId × Option NodeId) (c' : Ctx K V m) : Prop where
  at_place : FoundAt S (c.over z) l key r (c.over z)
  stays : c' = c
  trusts : c.Trusts r.2.1
  checked : r.2.1 ∉ c.storage.writeSet → ∀ y, r.2.2 = some y →
    ¬ Marked (c.shared.mem y) c.transaction.readVersion

variable (hL : Lists c.shared S') (hLz : Lists z S) (hO : Overlay z S c.storage) (h : Picture S z c)

include hL h

theorem Picture.getPredLoop_ends {Q : NodeId → Ctx K V m → Prop}
    (hin : ∀ p, c.shared.Enters c.storage l key p →
      ¬ Marked (c.shared.mem p) c.transaction.readVersion → p ∈ insert (head l) (S l))
    (hQ : ∀ p, p ∈ insert (head l) (c.storage.seen S l) → z.rank p < key →
      ¬ Marked (c.shared.mem p) c.transaction.readVersion → Q p c) :
    ∀ (n : Nat) {pred : NodeId}, c.shared.Enters c.storage l key pred →
      pred ∈ insert (head l) (S' l) → c.shared.rank pred < key →
      Ends (TxList.getPredLoop fuel l n pred) c Q (OnAbort (Thrown c))
  | 0, _, _, _, _ => by simp [TxList.getPredLoop]
  | n + 1, pred, hent, hpred, hlt => by
    have hdead : (c.shared.mem pred).isDeleted = false := (hL.live l pred hpred).2
    simp only [TxList.getPredLoop, Ends_bind]
    refine checkNode_ends fun hm => ?_
    simp only [Ends_node, Ends_get, Ends_ite, Ends_bind, Ends_assert, OnAbort_assertFailed,
      implies_true, and_true, Ends_pure, hdead, Bool.or_false]
    change (c.storage.deletes pred = true → _ → _) ∧ (¬ c.storage.deletes pred = true → _)
    refine ⟨fun hd hh => ?_, fun hd => ?_⟩
    · have hpS : pred ∈ S' l := Finset.mem_of_mem_insert_of_ne hpred (by simpa using hh)
      refine hL.indexGetPred_ends (fun p hp => ?_) fun _ => trivial
      have hback : c.shared.Enters c.storage l key p := by
        rw [IsPrev.unique (hL.threads l).toRanked hp (hL.below_isPrev l _)]
        exact hent.back hd
      refine getPredLoop_ends hin hQ n hback hp.1 (hp.2.1.trans ?_)
      rwa [← hL.rank_mem hpS]
    · have hold := hin pred hent hm
      refine hQ pred ?_ ?_ hm
      · rcases Finset.mem_insert.1 hold with rfl | hold
        · exact Finset.mem_insert_self _ _
        · exact Finset.mem_insert_of_mem (LocalStorage.mem_seen.2 ⟨.inl hold, by simpa using hd⟩)
      · rwa [← h.rank ⟨l, .inl hold⟩]

include hLz hO

omit hL in
theorem Picture.findLoop_ends : ∀ (n : Nat) {pred : NodeId} {next : Option NodeId},
    next = c.storage.nextOf z.mem pred → pred ∈ insert (head l) (c.storage.seen S l) →
    z.rank pred < key → c.Trusts pred → (pred ∉ c.storage.writeSet → ∀ y, next = some y →
      ¬ Marked (c.shared.mem y) c.transaction.readVersion) →
    Ends (findLoop key n pred next) c (FoundIn S z c l key) (OnAbort (Thrown c))
  | 0, _, _, _, _, _, _, _ => by simp [findLoop]
  | n + 1, pred, none, hnext, hpred, hlt, htr, hch => by
    have hp := (hO.threads l).isPrev_of_next hpred hlt fun y hy => by
      rw [← hnext] at hy
      simp at hy
    refine ⟨⟨rfl, hp, ?_, hnext⟩, rfl, htr, hch⟩
    simp only [seesKey, Ctx.over, ← hnext]
  | n + 1, pred, some y, hnext, hpred, hlt, htr, hch => by
    have hy : y ∈ c.storage.seen S l := (hO.threads l).next_mem hpred hnext.symm
    have hyk : (c.shared.mem y).key = (z.mem y).key :=
      h.key y (Knows.of_seen (Finset.mem_insert_of_mem hy))
    have hrank : z.rank y = (c.shared.mem y).key := by rw [hO.rank_seen hLz hy, hyk]
    have hstop : key ≤ (c.shared.mem y).key →
        FoundIn S z c l key (decide ((c.shared.mem y).key = key), pred, some y) c := by
      intro hle
      have hp := (hO.threads l).isPrev_of_next hpred hlt fun y' hy' => by
        rw [← hnext] at hy'
        obtain rfl := Option.some.inj hy'
        rw [hrank]
        exact WithBot.coe_le_coe.2 hle
      have hsees : seesKey (c.over z) key pred = decide ((z.mem y).key = key) := by
        simp only [seesKey, Ctx.over, ← hnext]
        exact decide_eq_decide.2 Iff.rfl
      exact ⟨⟨rfl, hp, by rw [hsees, hyk], hnext⟩, rfl, htr, hch⟩
    simp only [findLoop, Ends_bind, Ends_node, Ends_ite, Ends_pure]
    refine ⟨fun he => by simpa [he] using hstop he.ge, fun hne => ⟨fun hgt => ?_, fun hle => ?_⟩⟩
    · simpa [hne] using hstop hgt.le
    · refine getNext_rule (fun _ => ⟨rfl, rfl⟩) (fun _ _ => ⟨rfl, rfl⟩) fun hc => ?_
      have htr' : c.Trusts y := hc.imp_right And.left
      have hks := Knows.of_seen (Finset.mem_insert_of_mem hy)
      refine Picture.findLoop_ends n (h.nextOf hks htr') (Finset.mem_insert_of_mem hy) ?_ htr'
        fun hw y' hy' => (hc.resolve_left hw).2 y' ?_
      · rw [hrank]
        exact WithBot.coe_lt_coe.2 (lt_of_le_of_ne (not_lt.1 hle) hne)
      · rwa [LocalStorage.nextOf_of_notMem hw] at hy'

/-- The search goes through the picture, unless it throws. -/
theorem Picture.find_node_ends
    (hin : ∀ p, c.shared.Enters c.storage l key p →
      ¬ Marked (c.shared.mem p) c.transaction.readVersion → p ∈ insert (head l) (S l)) :
    Ends (find_node fuel l key) c (FoundIn S z c l key) (OnAbort (Thrown c)) := by
  simp only [find_node, TxList.getPred, Ends_bind]
  refine hL.indexGetPred_ends (fun p hp => ?_) fun _ => trivial
  have hent : c.shared.Enters c.storage l key p := by
    rw [IsPrev.unique (hL.threads l).toRanked hp (hL.below_isPrev l key)]
    exact .first
  refine h.getPredLoop_ends hL hin (fun pred hpred hlt hm => ?_) fuel hent hp.1 hp.2.1
  refine getNext_rule (fun _ => ⟨rfl, rfl⟩) (fun _ _ => ⟨rfl, rfl⟩) fun hc => ?_
  refine Picture.findLoop_ends hLz hO h fuel (h.nextOf (Knows.of_seen hpred) (.inr hm)) hpred hlt (.inr hm)
    fun hw y hy => (hc.resolve_left hw).2 y ?_
  rwa [LocalStorage.nextOf_of_notMem hw] at hy

end Search

/-! ## Its calls -/

/-- A call that throws nothing ends as it would over the picture. -/
def Mirrors (S : ListId m → Finset NodeId) (z : Shared K V m) (c : Ctx K V m) (op : Op K V m)
    (ret : Ret V) (c' : Ctx K V m) : Prop :=
  c'.transaction.TX = true ∧ ∃ z', Act S (c.over z) op ret (c'.over z') ∧ Picture S z' c'

section Calls

variable {S S' : ListId m → Finset NodeId} {z : Shared K V m} {c c' : Ctx K V m} {l : ListId m}
  {key : K} {val : V} {fuel : Nat} {ch : Choice}

omit [LinearOrder K] in
theorem Picture.congr (h : Picture S z c) (hs : c'.shared = c.shared)
    (ha : c'.storage.indexAdd = c.storage.indexAdd)
    (hrv : c'.transaction.readVersion = c.transaction.readVersion) : Picture S z c' := by
  have hk : ∀ n, Knows S c'.storage n → Knows S c.storage n := fun n hn => by
    unfold Knows at hn ⊢
    rwa [ha] at hn
  refine ⟨by rw [hs, h.fresh], h.next, h.index, h.blank, by rw [hrv]; exact h.clock, ?_, ?_⟩
  · rw [hs]
    exact fun n hn => h.key n (hk n hn)
  · rw [hs, hrv]
    exact fun n hn => h.same n (hk n hn)

omit [LinearOrder K] in
/-- A node that the transaction allocates is the same in the picture. -/
theorem Picture.alloc (h : Picture S z c) {x : LNode K V} (hx : x.word = {})
    (hn : ∀ y, x.next = some y → y < z.fresh) (hs' : c'.shared = c.shared.alloc x)
    (ha : c'.storage.indexAdd = (c.storage.addToIndexAdd l c.shared.fresh).indexAdd)
    (hrv : c'.transaction.readVersion = c.transaction.readVersion) : Picture S (z.alloc x) c' := by
  have hk : ∀ n, Knows S c'.storage n → n ≠ c.shared.fresh → Knows S c.storage n := by
    rintro n ⟨l', hn⟩ hne
    refine ⟨l', hn.imp_right fun hn => ?_⟩
    rw [ha] at hn
    simp only [LocalStorage.addToIndexAdd, Function.update_apply] at hn
    split_ifs at hn with hl
    · rw [hl]
      exact (List.mem_append.1 hn).resolve_right fun h => hne (List.mem_singleton.1 h)
    · exact hn
  have hmem : ∀ n, n ≠ c.shared.fresh → c'.shared.mem n = c.shared.mem n ∧
      (z.alloc x).mem n = z.mem n := fun n hne => by
    rw [hs', Shared.alloc_mem, Shared.alloc_mem, h.fresh]
    exact ⟨Function.update_of_ne hne _ _, Function.update_of_ne hne _ _⟩
  have hnew : c'.shared.mem c.shared.fresh = x ∧ (z.alloc x).mem c.shared.fresh = x := by
    rw [hs', Shared.alloc_mem, Shared.alloc_mem, h.fresh]
    exact ⟨Function.update_self _ _ _, Function.update_self _ _ _⟩
  refine ⟨by rw [hs', Shared.alloc_fresh, Shared.alloc_fresh, h.fresh], fun n y hy => ?_,
    fun l i => (h.index l i).trans (Nat.lt_succ_self _), fun n => ?_, by rw [hrv]; exact h.clock,
    fun n hn => ?_, fun n hn hm => ?_⟩
  all_goals by_cases hne : n = c.shared.fresh
  · subst hne
    rw [hnew.2] at hy
    exact (hn y hy).trans (Nat.lt_succ_self _)
  · rw [(hmem n hne).2] at hy
    exact (h.next n y hy).trans (Nat.lt_succ_self _)
  · rw [hne, hnew.2, hx]
  · rw [(hmem n hne).2]
    exact h.blank n
  · rw [hne, hnew.1, hnew.2]
  · rw [(hmem n hne).1, (hmem n hne).2]
    exact h.key n (hk n hn hne)
  · rw [hne, hnew.1, hnew.2]
    exact ⟨rfl, rfl⟩
  · rw [(hmem n hne).1, (hmem n hne).2]
    rw [(hmem n hne).1, hrv] at hm
    exact h.same n (hk n hn hne) hm

variable (hL : Lists c.shared S') (hLz : Lists z S) (hO : Overlay z S c.storage) (h : Picture S z c)
  (hs : Sane c) (hT : c.transaction.TX = true)
  (hin : ∀ p, c.shared.Enters c.storage l key p →
    ¬ Marked (c.shared.mem p) c.transaction.readVersion → p ∈ insert (head l) (S l))

omit [LinearOrder K] in
theorem Mirrors.onAbort_writing {e : Err} (he : OnAbort (Thrown c.writing) e c') :
    OnAbort (Thrown c) e c' :=
  he.mono fun he => Thrown.of_writing he

include hLz hO h hs in
theorem Picture.lt_fresh {n : NodeId} (hn : Knows S c.storage n) : n < z.fresh := by
  obtain ⟨l, hn | hn⟩ := hn
  · exact hLz.lt_fresh (h.sane hs).heads hn
  · exact (hO.new l n hn).2.1

omit [LinearOrder K] in
theorem LocalStorage.valOf_alloc {ls : LocalStorage V m} {s : Shared K V m} {n : NodeId}
    {x : LNode K V} (hn : n ≠ s.fresh) : ls.valOf (s.alloc x).mem n = ls.valOf s.mem n :=
  LocalStorage.valOf_congr fun _ => by rw [Shared.alloc_mem, Function.update_of_ne hn]

omit [LinearOrder K] in
theorem Sane.nextOf_lt {n y : NodeId} (hs : Sane c) (hy : c.storage.nextOf c.shared.mem n = some y) :
    y < c.shared.fresh := by
  rw [LocalStorage.nextOf] at hy
  rcases hw : c.storage.writeSet.lookup n with _ | we <;> rw [hw] at hy
  · exact hs.next n y hy
  · exact hs.write_next n we y hw hy

include hLz hO h in
/-- The node that a search finds with the key is trusted unless a changed one is led to. -/
theorem FoundIn.found {x pred : NodeId} (hr : FoundIn S z c l key (true, pred, some x) c')
    (hlead : c.LeadsTrue key) : x ∈ c.storage.seen S l ∧ z.rank x = key ∧
      IsPrev z.rank (c.storage.seen S l) (head l) key pred ∧
      ¬ Marked (c.shared.mem x) c.transaction.readVersion := by
  obtain ⟨-, hp, hx, hk⟩ := hr.at_place.found (c := c.over z) hLz hO
  refine ⟨hx, hk, hp, ?_⟩
  by_cases hw : pred ∈ c.storage.writeSet
  · obtain ⟨we, hwe⟩ := Option.isSome_iff_exists.1 (AList.lookup_isSome.2 hw)
    have hnext : some x = c.storage.nextOf z.mem pred := hr.at_place.2.2.2
    rw [LocalStorage.nextOf, hwe] at hnext
    refine hlead pred we x hwe hnext.symm ?_
    have hrank : z.rank x = ((z.mem x).key : WithBot K) := hO.rank_seen hLz hx
    rw [h.key x (.of_seen (Finset.mem_insert_of_mem hx))]
    exact WithBot.coe_inj.1 (hrank.symm.trans hk)
  · exact hr.checked hw x rfl

include hL hLz hO h hT hin

theorem Picture.put_mirrors (hlead : c.LeadsTrue key) (hs : Sane c) :
    Ends (putTX fuel l key val) c (fun v => Mirrors S z c (.put l key val) (.val v))
      (OnAbort (Thrown c)) := by
  have hlive := h.live hT
  have hw : Picture S z c.writing := h.congr rfl rfl rfl
  refine putTX_ends (R := FoundIn S z c.writing l key)
    ((hw.find_node_ends (c := c.writing) hL hLz hO hin).mono (fun _ _ hr => hr)
      fun _ _ he => Mirrors.onAbort_writing he) (fun pred x c' hr => ?_)
    fun found pred next c' hr hno => ?_
  · obtain rfl := hr.stays
    obtain ⟨hx, hk, -, hm⟩ := hr.found (c := c.writing) hLz hO hw hlead
    have hks : Knows S c.storage x := .of_seen (Finset.mem_insert_of_mem hx)
    refine ⟨hT, z, ?_, h.congr rfl rfl rfl⟩
    have hst : c.storage.overwrite c.shared.mem x val = c.storage.overwrite z.mem x val := by
      unfold LocalStorage.overwrite
      rw [h.nextOf hks (.inr hm)]
    have hact := @Act.overwrote K V m _ S (c.over z) l key val x hlive hx hk
    show Act S (c.over z) _ (.val (c.shared.mem x).val)
      (({ c.writing with storage := c.storage.overwrite c.shared.mem x val } : Ctx K V m).over z)
    rw [hst, (h.same x hks hm).2]
    exact hact
  · obtain rfl := hr.stays
    obtain ⟨-, hp, habs, hnext⟩ := hr.at_place.missing (c := c.writing.over z) hLz hO hno
    have hnext : next = c.storage.nextOf z.mem pred := hnext
    have hkp : Knows S c.storage pred := .of_seen hp.1
    have hlt : pred < z.fresh := h.lt_fresh hLz hO hs hkp
    set y : LNode K V := { key := key, val := some val, next := next } with hy
    have hact := @Act.inserted K V m _ S (c.over z) l key val pred y hlive hp habs
      (by rw [hy, hnext]; rfl)
    have hst : c.storage.insertAfter (c.shared.alloc y).mem l pred c.shared.fresh =
        c.storage.insertAfter (z.alloc y).mem l pred z.fresh := by
      have hval : c.storage.valOf (c.shared.alloc y).mem pred = c.storage.valOf (z.alloc y).mem pred := by
        rw [LocalStorage.valOf_alloc hlt.ne, LocalStorage.valOf_alloc (h.fresh ▸ hlt.ne)]
        exact h.valOf hkp hr.trusts
      unfold LocalStorage.insertAfter
      rw [hval, h.fresh]
    refine ⟨hT, z.alloc y, ?_, h.alloc (l := l) rfl (fun k hk => ?_) rfl ?_ rfl⟩
    · show Act S (c.over z) _ _ (({ c.writing with
        shared := c.shared.alloc y
        storage := c.storage.insertAfter (c.shared.alloc y).mem l pred c.shared.fresh } :
          Ctx K V m).over (z.alloc y))
      rw [hst]
      exact hact
    · exact (h.sane hs).nextOf_lt (c := c.over z) (n := pred) (hnext.symm.trans hk)
    · rfl

theorem Picture.remove_mirrors (hlead : c.LeadsTrue key) :
    Ends (removeTX fuel l key) c (fun v => Mirrors S z c (.remove l key) (.val v))
      (OnAbort (Thrown c)) := by
  have hlive := h.live hT
  have hw : Picture S z c.writing := h.congr rfl rfl rfl
  refine removeTX_ends (R := FoundIn S z c.writing l key)
    (N := fun _ x o _ => o = c.storage.nextOf z.mem x)
    ((hw.find_node_ends (c := c.writing) hL hLz hO hin).mono (fun _ _ hr => hr)
      fun _ _ he => Mirrors.onAbort_writing he) (fun pred x c' hr => ?_) (fun pred x o c' hr ho => ?_)
    fun found pred next c' hr hno => ?_
  · obtain rfl := hr.stays
    obtain ⟨hx, -, -, hm⟩ := hr.found (c := c.writing) hLz hO hw hlead
    refine (getNext_ends fun _ => ?_).mono (fun _ _ he => he) fun e c' he => ?_
    · exact ⟨rfl, h.nextOf (.of_seen (Finset.mem_insert_of_mem hx)) (.inr hm)⟩
    · exact he.mono fun he => ⟨he.shared, he.closed⟩
  · obtain rfl := hr.stays
    obtain ⟨hx, hk, hp, hm⟩ := hr.found (c := c.writing) hLz hO hw hlead
    have hkx : Knows S c.storage x := .of_seen (Finset.mem_insert_of_mem hx)
    have hne : pred ≠ x := fun he => hp.2.1.ne (by rw [he, ← hk])
    have hvx := h.valOf hkx (.inr hm)
    have hvp : c.storage.valOf c.shared.mem pred = c.storage.valOf z.mem pred :=
      h.valOf (.of_seen hp.1) hr.trusts
    have hrel : c.storage.relink c.shared.mem pred o = c.storage.relink z.mem pred o := by
      unfold LocalStorage.relink
      rw [hvp]
    have hval : ∀ mem : NodeId → LNode K V, (c.storage.relink mem pred o).valOf mem x =
        c.storage.valOf mem x := fun _ => LocalStorage.relink_valOf _ _ hne
    have hst : c.storage.unlink c.shared.mem l pred x o = c.storage.unlink z.mem l pred x o := by
      unfold LocalStorage.unlink
      rw [hval, hval, hrel, hvx]
    refine ⟨hT, z, ?_, h.congr rfl rfl rfl⟩
    show Act S (c.over z) _ (.val ((c.storage.relink c.shared.mem pred o).valOf c.shared.mem x))
      (({ c.writing with storage := c.storage.unlink c.shared.mem l pred x o } : Ctx K V m).over z)
    rw [hval, hst, hvx, ho]
    exact Act.unlinked (c := c.over z) hlive hx hk hp
  · obtain rfl := hr.stays
    obtain ⟨-, hp, habs, -⟩ := hr.at_place.missing (c := c.writing.over z) hLz hO hno
    exact ⟨hT, z, Act.missed (c := c.over z) hlive hp habs, h.congr rfl rfl rfl⟩

theorem Picture.get_mirrors {op : Op K V m} {f : Option V → Ret V} (hlead : c.LeadsTrue key)
    (hact : ∀ {p o}, IsPrev z.rank (c.storage.seen S l) (head l) key p →
      Reads z.rank (c.storage.valOf z.mem) (c.storage.seen S l) key o →
      Act S (c.over z) op (f o) { c.over z with storage := c.storage.addToReadSet p }) :
    Ends (getTX fuel l key) c (fun v => Mirrors S z c op (f v)) (OnAbort (Thrown c)) := by
  refine getTX_ends (R := FoundIn S z c l key) (h.find_node_ends hL hLz hO hin)
    (fun pred x c' hr => ?_) fun found pred next c' hr hno => ?_
  · obtain rfl := hr.stays
    obtain ⟨hx, hk, hp, hm⟩ := hr.found hLz hO h hlead
    obtain ⟨v, hv⟩ := Option.isSome_iff_exists.1 (hO.val l x (Finset.mem_insert_of_mem hx))
    rw [h.valOf (.of_seen (Finset.mem_insert_of_mem hx)) (.inr hm), hv]
    exact ⟨hT, z, hact hp ⟨x, hx, hk, hv⟩, h.congr rfl rfl rfl⟩
  · obtain rfl := hr.stays
    obtain ⟨-, hp, habs, -⟩ := hr.at_place.missing (c := c'.over z) hLz hO hno
    exact ⟨hT, z, hact hp habs, h.congr rfl rfl rfl⟩

/-- A list operation of the running transaction that meets nothing it cannot check. -/
theorem Picture.call_mirrors (op : Op K V m) (hop : op.key? = some (l, key))
    (hlead : c.LeadsTrue key) (hs : Sane c) :
    Ends (call ch op) c (Mirrors S z c op) (OnAbort (Thrown c)) := by
  have hlive := h.live hT
  have hclosed : ∀ {P : Prop}, c.transaction.TX = false → P := fun hF => by
    rw [hT] at hF
    simp at hF
  cases op with
  | txBegin | txEnd | handleAbort => simp [Op.key?] at hop
  | put l' key' val =>
    obtain ⟨rfl, rfl⟩ : l' = l ∧ key' = key := by simpa [Op.key?] using hop
    simp only [call, Ends_bind, Ends_pure]
    exact access_ends (fun _ => h.put_mirrors hL hLz hO hT hin hlead hs) hclosed
  | remove l' key' =>
    obtain ⟨rfl, rfl⟩ : l' = l ∧ key' = key := by simpa [Op.key?] using hop
    simp only [call, Ends_bind, Ends_pure]
    exact access_ends (fun _ => h.remove_mirrors hL hLz hO hT hin hlead) hclosed
  | get l' key' =>
    obtain ⟨rfl, rfl⟩ : l' = l ∧ key' = key := by simpa [Op.key?] using hop
    simp only [call, Ends_bind, Ends_pure]
    exact access_ends (fun _ => h.get_mirrors hL hLz hO hT hin hlead fun hp hr =>
      .read hlive hp hr) hclosed
  | containsKey l' key' =>
    obtain ⟨rfl, rfl⟩ : l' = l ∧ key' = key := by simpa [Op.key?] using hop
    simp only [call, containsKey, Ends_bind, Ends_pure]
    exact access_ends (fun _ => h.get_mirrors (f := fun o => .bool o.isSome) hL hLz hO hT hin hlead
      fun hp hr => .contained hlive hp hr) hclosed

end Calls

/-! ## Its run -/

/-- Steps after `C₁`, in which thread `t` began a transaction that is open still: no call of the
transaction enters a list at an unmarked node that joined it since, or goes by a write element to a
changed node; and no other thread changes a node of the lists there were without a mark that stays. -/
def Sighted (C₁ : Conf K V m) (t : ThreadId) : Conf.Guard K V m := fun C u op =>
  Safe C u op ∧
    (u = t → C.inTX t = true ∧ ∃ l key, op.key? = some (l, key) ∧ (C.sys.ctx t).LeadsTrue key ∧
      ∀ p, C.sys.shared.Enters (C.sys.threads t).storage l key p →
        ¬ Marked (C.sys.shared.mem p) (C.sys.threads t).transaction.readVersion →
        p = head l ∨ p ∈ C₁.sys.shared.chain l) ∧
    (u ≠ t → (∀ l key val, op = .put l key val → C.inTX u = false →
      C.sys.shared.lookup l key = none → C.sys.shared.below l key ≠ head l ∧
        ∀ l', C.sys.shared.below l key ∉ C₁.sys.shared.chain l') ∧
      (op = .txEnd → C.inTX u = true → ∀ n ∈ (C.sys.threads u).storage.readSet,
        n ∈ (C.sys.threads u).storage.writeSet → (C.sys.shared.mem n).word.singleton = true →
        (C.sys.shared.mem n).word.version = (C.sys.threads u).transaction.readVersion →
        (C.sys.threads u).transaction.readVersion ≠ (C.sys.threads t).transaction.readVersion))

/-- The open transaction of thread `t`, which began when the lists had the nodes `S` and the maps
`M`, works on the picture `z`. The lists have the nodes `S'` by now. -/
structure Running (M : Maps K V m) (S S' : ListId m → Finset NodeId) (z : Shared K V m)
    (C : Conf K V m) (t : ThreadId) : Prop where
  picture : Picture S z (C.sys.ctx t)
  lists : Lists z S
  viewed : Viewed S (C.hist.current t) ((C.sys.ctx t).over z)
  accounts : Accounts M S (C.hist.current t) ((C.sys.ctx t).over z)
  lookup : ∀ l key, z.lookup l key = M l key
  off : ∀ l, ∀ x ∈ (C.sys.threads t).storage.indexAdd l, ∀ l', x ∉ insert (head l') (S' l')
  apart : ∀ u, u ≠ t → (C.sys.ctx u).Live → ∀ l, ∀ x ∈ (C.sys.threads t).storage.indexAdd l,
    ∀ l', x ∉ (C.sys.threads u).storage.indexAdd l'

section Runs

variable {C C' C₁ : Conf K V m} {M : Maps K V m} {S S' : ListId m → Finset NodeId} {z : Shared K V m}
  {t u : ThreadId} {op : Op K V m} {ret : Ret V}

/-- The calls of a transaction do not depend on the maps of the history. -/
theorem Hist.step_current_maps (H : Hist K V m) (M : Maps K V m) (inTX : Bool) :
    (({ H with maps := M } : Hist K V m).step t inTX op ret).current =
      (H.step t inTX op ret).current := by
  simp only [Hist.step]
  split
  · rfl
  · rfl
  · rfl
  · rfl
  · split
    · rfl
    · split_ifs <;> rfl

/-- A call of the transaction itself. -/
theorem Running.own (h : Running M S S' z C t) (hI : Inv C S') (hE : M.All Rec.ReadReplays
    (C.hist.current t)) {l : ListId m} {key : K} (hop : op.key? = some (l, key))
    (hT : C.inTX t = true) (hlead : (C.sys.ctx t).LeadsTrue key)
    (hin : ∀ p, C.sys.shared.Enters (C.sys.threads t).storage l key p →
      ¬ Marked (C.sys.shared.mem p) (C.sys.threads t).transaction.readVersion →
      p ∈ insert (head l) (S l))
    (hst : C.Step t op ret C') :
    (C'.inTX t = false ∧ C'.hist.current t = C.hist.current t) ∨
      C'.inTX t = true ∧ M.All Rec.ReadReplays (C'.hist.current t) ∧ ∃ z', Running M S S' z' C' t := by
  have hacc : op.isAccess = true := by
    cases op <;> simp [Op.key?, Op.isAccess] at hop ⊢
  have hframe := hst.framed hI.sane
  obtain ⟨ch, -, hstep, hhist⟩ := id hst
  obtain ⟨c', hc', hc⟩ := Sys.step_of_ends (h.picture.call_mirrors (c := C.sys.ctx t) hI.lists h.lists
    h.viewed.overlay hT hin op hop hlead (hI.sane t)) hstep
  have hctx : C'.sys.ctx t = c' := by rw [hc', Sys.ctx_put_self]
  rcases hc with ⟨hT', z', hact, hp⟩ | ⟨rfl, hthrow⟩
  · -- over the picture the call is one of a live transaction
    set H : Hist K V m := { C.hist with maps := M } with hH
    have hs : Sane ((C.sys.ctx t).over z) := h.picture.sane (hI.sane t)
    have hlive : ((C.sys.ctx t).over z).Live := h.picture.live hT
    have hlive' : (c'.over z').Live := hp.live hT'
    have hcur : (H.step t true op ret).current t = C'.hist.current t := by
      rw [hH, Hist.step_current_maps, hhist, hT]
    have hmaps : (H.step t true op ret).maps = M :=
      H.step_maps (fun he => by simp [he, Op.isAccess] at hacc) fun _ => rfl
    have hTX : ((C.sys.ctx t).over z).transaction.TX = true := hT
    obtain ⟨hLz', hV', hnew⟩ := hact.viewed (t := t) (H := H) h.lists hs hlive' (fun _ => hlive)
      (fun _ => h.viewed) (fun he => by simp [he, Op.isAccess] at hacc)
    have hA' := hact.accounts (t := t) (H := H) hlive' (fun _ => hlive) h.lists hs (fun _ => h.viewed)
      (fun _ => h.accounts) h.lookup
    have hE' := hact.read_replays (t := t) (H := H) hlive' (fun _ => hlive) h.lists
      (fun _ => h.viewed) (fun _ => h.accounts) h.lookup fun _ => hE
    have hlook := hact.lookup (t := t) (H := H) (fun _ => hT) h.lists hs (fun _ => h.viewed)
      (fun _ => h.accounts) h.lookup
    rw [hTX, hcur] at hV' hA' hE'
    rw [hmaps] at hA' hE'
    rw [hTX, hmaps] at hlook
    have hx : ∀ l, ∀ x ∈ (C'.sys.threads t).storage.indexAdd l, x = C.sys.shared.fresh ∨
        x ∈ (C.sys.threads t).storage.indexAdd l := fun l x hx => by
      have hst : (C'.sys.threads t).storage = c'.storage := by rw [hc', Sys.put_threads_self]
      rw [hst] at hx
      exact (hnew l x hx).imp (fun he => he.trans h.picture.fresh) And.left
    refine .inr ⟨by rw [Conf.inTX, hc', Sys.put_threads_self]; exact hT', hE', z', ?_⟩
    rw [← hctx] at hp hV' hA'
    refine ⟨hp, hLz', hV', hA', hlook, fun l x hx' l' => ?_, fun u hu hl l x hx' l' => ?_⟩
    · rcases hx l x hx' with rfl | hx'
      · exact fun hmem => (hI.lists.lt_fresh (hI.sane t).heads hmem).ne rfl
      · exact h.off l x hx' l'
    · have hst : C'.sys.threads u = C.sys.threads u := hframe.threads u hu
      have hl₀ : (C.sys.ctx u).Live := by
        refine hframe.live_of_live hI.sane hu (fun n _ _ _ hX => ?_) hl
        simp [hX.2.1, Op.isAccess] at hacc
      rw [hst]
      rcases hx l x hx' with rfl | hx'
      · exact fun hmem => ((hI.sane u).indexAdd l' _ hmem).ne rfl
      · exact h.apart u hu hl₀ l x hx' l'
  · refine .inl ⟨?_, ?_⟩
    · have := hthrow.closed
      rw [← hctx] at this
      exact this
    · rw [hhist]
      rfl

/-- What the transaction knows and is not told of is not written to by another thread. -/
theorem Running.kept (h : Running M S S' z C t) (hI : Inv C S') (hu : u ≠ t)
    (hG : Sighted C₁ t C u op) (hS : ∀ l n, n ∈ S l → n ∈ C₁.sys.shared.chain l) {c' : Ctx K V m}
    {D F : ListId m → Finset NodeId} {W : Set NodeId} (hC : Change S' (C.sys.ctx u) c' op D F W)
    {n : NodeId} (hn : Knows S (C.sys.threads t).storage n)
    (hm : ¬ Marked (c'.shared.mem n) (C.sys.threads t).transaction.readVersion) : n ∉ W := by
  intro hW
  rcases hC.marks n hW with ⟨l, key, val, hop, hT, habs, hp⟩ | hmark
  · have hnone : C.sys.shared.lookup l key = none := hI.lists.lookup_of_absent habs
    obtain ⟨hhead, hchain⟩ := (hG.2.2 hu).1 l key val hop hT hnone
    obtain rfl := IsPrev.unique (hI.lists.threads l).toRanked hp (hI.lists.below_isPrev l key)
    obtain ⟨l', hl' | hl'⟩ := hn
    · rcases Finset.mem_insert.1 hl' with he | hl'
      · have hp' : C.sys.shared.below l key ∈ insert (head l') (S' l') :=
          he ▸ Finset.mem_insert_self _ _
        exact hhead (he.trans (by rw [hI.lists.unique_list hp.1 hp']))
      · exact hchain l' (hS l' _ hl')
    · exact h.off l' _ hl' l hp.1
  · exact hm (hmark _ (hI.sane t).readVersion)

/-- A call of another thread. -/
theorem Running.other (h : Running M S S' z C t) (hI : Inv C S') (hu : u ≠ t)
    (hG : Sighted C₁ t C u op) (hS : ∀ l n, n ∈ S l → n ∈ C₁.sys.shared.chain l)
    (hst : C.Step u op ret C') : ∃ S'', Inv C' S'' ∧ ∃ z', Running M S S'' z' C' t := by
  have hframe := hst.framed hI.sane
  obtain ⟨-, -, -, -, hhist⟩ := hI.step_act hst
  obtain ⟨c', D, F, W, hc', hact, hC, hlive, hInv⟩ := hI.step hG.1 hst
  have hctx : C'.sys.ctx t = { C.sys.ctx t with shared := c'.shared } := by
    rw [hc', Sys.ctx_put_ne _ _ hu.symm]
  have hctxu : C'.sys.ctx u = c' := by rw [hc', Sys.ctx_put_self]
  have hthr : C'.sys.threads t = C.sys.threads t := hframe.threads t hu.symm
  have hcur : C'.hist.current t = C.hist.current t := by
    rw [hhist]
    exact Hist.step_current_ne _ hu.symm
  have hshared : C'.sys.shared = c'.shared := by rw [hc']; rfl
  have hs : Sane ((C.sys.ctx t).over z) := h.picture.sane (hI.sane t)
  have hfresh : z.fresh ≤ c'.shared.fresh := h.picture.fresh.le.trans hC.mutates.fresh
  set z' : Shared K V m := { z with fresh := c'.shared.fresh } with hz'
  have hMz : Mutates z z' S (fun _ => ∅) (fun _ => ∅) ∅ :=
    .of_same h.lists hs.heads hfresh (fun _ _ => rfl) (fun _ _ => ⟨rfl, rfl, rfl⟩) rfl
  have hLz' : Lists z' S := by simpa only [patched_empty] using hMz.lists
  have hlook : ∀ l key, z'.lookup l key = M l key := fun l key =>
    (hMz.lookup_eq h.lists l key).trans (h.lookup l key)
  have hV := h.viewed.mutate h.lists hs hMz (fun _ _ => Set.notMem_empty _)
    (fun l f hf => by simp at hf) fun _ _ _ => Set.notMem_empty _
  have hA := h.accounts.mutate h.lists hs hMz (fun _ _ => Set.notMem_empty _) h.viewed
    (fun _ _ _ => Set.notMem_empty _) h.lookup hlook
  simp only [patched_empty] at hV hA
  have hlt : ∀ {n}, Knows S (C.sys.threads t).storage n → n < C.sys.shared.fresh := fun hn =>
    (h.picture.lt_fresh (c := C.sys.ctx t) h.lists h.viewed.overlay (hI.sane t) hn).trans_eq h.picture.fresh
  refine ⟨_, hInv, z', ⟨⟨?_, fun n y hy => (h.picture.next n y hy).trans_le hfresh,
    fun l i => (h.picture.index l i).trans_le hfresh, h.picture.blank, ?_, fun n hn => ?_,
    fun n hn hm => ?_⟩, hLz', ?_, ?_, hlook, fun l x hx l' => ?_, fun v hv hl l x hx l' => ?_⟩⟩
  · rw [hctx]
  · rw [hctx]
    exact h.picture.clock
  · rw [hctx] at hn ⊢
    exact (hC.mutates.key n (hlt hn)).trans (h.picture.key n hn)
  · rw [hctx] at hn hm ⊢
    have hm₀ : ¬ Marked (C.sys.shared.mem n) (C.sys.threads t).transaction.readVersion := by
      intro hm₀
      refine hm ?_
      rw [← hshared]
      refine hframe.framed.grows.marked n (hlt hn) _ (hI.sane t).readVersion ?_ hm₀
      rintro ⟨-, hop, hr, hw, hTu, hrv, hver⟩
      have hsing : (C.sys.shared.mem n).word.singleton = true := by
        rcases hm₀ with hm₀ | ⟨-, hm₀⟩
        · exact absurd hver hm₀.ne'
        · exact hm₀
      exact (hG.2.2 hu).2 hop hTu n hr hw hsing (hver.trans hrv) hrv.symm
    obtain ⟨hnext, hval, -⟩ := hC.mutates.same n (hlt hn) (h.kept hI hu hG hS hC hn hm)
    obtain ⟨hnext₀, hval₀⟩ := h.picture.same n hn hm₀
    exact ⟨hnext.trans hnext₀, hval.trans hval₀⟩
  · rw [hctx, hcur]
    exact hV
  · rw [hctx, hcur]
    exact hA
  · rw [hthr] at hx
    intro hmem
    rcases Finset.mem_insert.1 hmem with rfl | hmem
    · exact h.off l _ hx l' (Finset.mem_insert_self _ _)
    · rcases mem_patched.1 hmem with hmem | hmem
      · exact h.off l x hx l' (Finset.mem_insert_of_mem hmem.1)
      · rcases hC.joins l' x hmem with rfl | ⟨hlu, hxu⟩
        · exact ((hI.sane t).indexAdd l _ hx).ne rfl
        · exact h.apart u hu hlu l x hx l' hxu
  · rw [hthr] at hx
    by_cases hvu : v = u
    · subst hvu
      have hstor : (C'.sys.threads v).storage = c'.storage := by rw [hc', Sys.put_threads_self]
      obtain ⟨-, -, hnew⟩ := hact.viewed (t := v) (H := C.hist) hI.lists (hI.sane v)
        (by rwa [← hctxu]) (fun hop => hframe.own_live hI.sane hop hl) (hI.viewed v)
        (hG.1.1 ·)
      rw [hstor]
      intro hmem
      rcases hnew l' x hmem with rfl | ⟨hmem, hlv⟩
      · exact ((hI.sane t).indexAdd l _ hx).ne rfl
      · exact h.apart v hv hlv l x hx l' hmem
    · rw [hframe.threads v hvu]
      exact h.apart v hv (hlive v hvu hl) l x hx l'

/-- The picture a transaction takes at its `TXbegin`. -/
theorem Running.begin (hI : Inv C S) (hG : Safe C t .txBegin) (hst : C.Step t .txBegin .unit C₁) :
    Inv C₁ S ∧ C₁.hist.current t = [] ∧ ∃ z, Running C₁.sys.shared.lookup S S z C₁ t := by
  obtain ⟨-, -, -, -, hhist⟩ := hI.step_act hst
  obtain ⟨c', D, F, W, hc', hact, -, -, hInv⟩ := hI.step hG hst
  have he := hG.1 rfl
  cases hact with
  | strayed hop => simp [Op.isAccess] at hop
  | opened =>
    have hshared : C₁.sys.shared = C.sys.shared := by rw [hc']; rfl
    have hctx : C₁.sys.ctx t = { C.sys.ctx t with transaction := { (C.sys.ctx t).transaction with
        TX := true, readVersion := C.sys.shared.gvc } } := by rw [hc', Sys.ctx_put_self]; rfl
    have hstor : (C₁.sys.threads t).storage = (C.sys.threads t).storage := by
      rw [hc', Sys.put_threads_self]; rfl
    have hcur : C₁.hist.current t = [] := by
      rw [hhist]
      simp [Hist.step]
    have hI₁ : Inv C₁ S := by
      have hL : Lists C₁.sys.shared S := hshared ▸ hI.lists
      rwa [hL.unique hInv.lists] at hInv
    set z : Shared K V m := { C.sys.shared with
      mem := fun n => { C.sys.shared.mem n with word := {} } } with hz
    have hs := hI.sane t
    have hLz : Lists z S := hI.lists.congr hs.heads le_rfl (fun _ _ => rfl) (fun _ _ _ => rfl)
      (fun _ _ _ => rfl) (fun l n hn => (hI.lists.live l n hn).2.symm) rfl
    have hzs : ∀ l key, z.lookup l key = C₁.sys.shared.lookup l key := fun l key => by
      rw [hshared]
      rfl
    have hempty : (((C₁.sys.ctx t).over z).storage).IsEmpty := by
      rw [hctx]
      exact he
    refine ⟨hI₁, hcur, z, ⟨?_, hs.next, hs.index, fun _ => rfl, ?_, fun n _ => ?_, fun n _ _ => ?_⟩,
      hLz, ?_, ?_, hzs, fun l x hx => ?_, fun u _ _ l x hx => ?_⟩
    · rw [hctx]
      rfl
    · rw [hctx]
    · rw [hctx]
      rfl
    · rw [hctx]
      exact ⟨rfl, rfl⟩
    · rw [hcur]
      exact Viewed.empty hLz hempty
    · rw [hcur]
      exact Accounts.empty _ _ _
    · rw [hstor, he.2.2.1] at hx
      simp at hx
    · rw [hstor, he.2.2.1] at hx
      simp at hx

/-- The run of a transaction after its `TXbegin`: as long as it is open it works on its picture. -/
theorem Running.run (hI : Inv C₁ S) (hcur : C₁.hist.current t = [])
    (h : ∃ z, Running M S S z C₁ t) (hr : C₁.Run (Sighted C₁ t) C) :
    M.All Rec.Sound (C.hist.current t) ∧ M.All Rec.ReadReplays (C.hist.current t) ∧ ∃ S', Inv C S' ∧
      (C.inTX t = true → ∃ z, Running M S S' z C t) := by
  have hS : ∀ l n, n ∈ S l ↔ n ∈ C₁.sys.shared.chain l := fun l n =>
    ((hI.lists.chain_spec l).2.1 n).symm
  refine hr.keeps (J := fun C => M.All Rec.Sound (C.hist.current t) ∧
    M.All Rec.ReadReplays (C.hist.current t) ∧ ∃ S', Inv C S' ∧
      (C.inTX t = true → ∃ z, Running M S S' z C t)) ?_ ?_
  · rw [hcur]
    exact ⟨trivial, trivial, S, hI, fun _ => h⟩
  rintro C u op ret C' ⟨hsnd, hE, S', hI', hrun⟩ hG hst
  obtain ⟨-, -, -, hframe, hhist⟩ := hI'.step_act hst
  by_cases hu : u = t
  · subst hu
    obtain ⟨hT, l, key, hop, hlead, hin⟩ := hG.2.1 rfl
    obtain ⟨z, hz⟩ := hrun hT
    obtain ⟨c', D, F, W, hc', hact, -, -, hInv⟩ := hI'.step hG.1 hst
    have hq : Quiet C.sys.shared c'.shared :=
      hact.quiet (by cases op <;> simp [Op.key?, Op.isAccess] at hop ⊢) hT
    have hI'' : Inv C' S' := by
      have hL : Lists C'.sys.shared S' := by
        have hM := (hI'.lists.mutates_of_quiet (hI'.sane u).heads hq).lists
        simp only [patched_empty] at hM
        rw [hc']
        exact hM
      rwa [hL.unique hInv.lists] at hInv
    have hin' : ∀ p, C.sys.shared.Enters (C.sys.threads u).storage l key p →
        ¬ Marked (C.sys.shared.mem p) (C.sys.threads u).transaction.readVersion →
        p ∈ insert (head l) (S l) := fun p hp hm => by
      rcases hin p hp hm with rfl | hp
      · exact Finset.mem_insert_self _ _
      · exact Finset.mem_insert_of_mem ((hS l p).2 hp)
    rcases hz.own hI' hE hop hT hlead hin' hst with ⟨hF, hsame⟩ | ⟨-, hE', z', hz'⟩
    · refine ⟨hsame ▸ hsnd, hsame ▸ hE, S', hI'', fun hT' => ?_⟩
      rw [hF] at hT'
      simp at hT'
    · exact ⟨hz'.accounts.sound, hE', S', hI'', fun _ => ⟨z', hz'⟩⟩
  · have hsame : C'.hist.current t = C.hist.current t := by
      rw [hhist]
      exact Hist.step_current_ne _ (Ne.symm hu)
    rw [hsame]
    have hTX : C'.inTX t = C.inTX t := by
      rw [Conf.inTX, Conf.inTX, hframe.threads t (Ne.symm hu)]
    rcases hT : C.inTX t with _ | _
    · obtain ⟨S'', hI'', -⟩ := hI'.step_nodes hG.1 hst
      refine ⟨hsnd, hE, S'', hI'', fun hT' => ?_⟩
      rw [hTX, hT] at hT'
      simp at hT'
    · obtain ⟨z, hz⟩ := hrun hT
      obtain ⟨S'', hI'', hz'⟩ := hz.other hI' hu hG (fun l n => (hS l n).1) hst
      exact ⟨hsnd, hE, S'', hI'', fun _ => hz'⟩

/-- A running transaction, also one that will abort, has read the lists as they were at its
`TXbegin`. -/
theorem Conf.Reach.reads_snapshot {minKey : K} {dflt : V} {C₀ : Conf K V m}
    (hr : Conf.Reach minKey dflt Safe C₀) (hG : Safe C₀ t .txBegin) (hb : C₀.Step t .txBegin .unit C₁)
    (hrun : C₁.Run (Sighted C₁ t) C) :
    Maps.All Rec.Sound C₁.sys.shared.lookup (C.hist.current t) ∧
      Maps.All Rec.ReadReplays C₁.sys.shared.lookup (C.hist.current t) := by
  obtain ⟨S, hI⟩ := Inv.of_reach hr
  obtain ⟨hI₁, hcur, hz⟩ := Running.begin hI hG hb
  obtain ⟨hsnd, hE, -⟩ := Running.run hI₁ hcur hz hrun
  exact ⟨hsnd, hE⟩

/-- Without own writes a search enters the list below the key. -/
theorem Shared.Enters.eq_below {s : Shared K V m} {ls : LocalStorage V m} {l : ListId m} {key : K}
    {p : NodeId} (h : s.Enters ls l key p) (hw : ls.writeSet.keys = []) : p = s.below l key := by
  have hno : ∀ n, n ∉ ls.writeSet := fun n hn => by
    rw [AList.mem_keys, hw] at hn
    simp at hn
  cases h with
  | first => rfl
  | back _ hd => exact absurd (LocalStorage.mem_of_deletes hd) (hno _)

/-- A test for `Sighted` where there are no singletons and the transaction only reads. -/
def Conf.sightedReads [DecidableEq V] (C₁ : Conf K V m) (t : ThreadId) (C : Conf K V m) (u : ThreadId)
    (op : Op K V m) : Bool :=
  decide (op = .txBegin → (C.sys.threads u).storage.IsEmpty) && (!op.isAccess || C.inTX u) &&
    decide (∀ n ∈ (C.sys.threads u).storage.readSet, (C.sys.shared.mem n).word.singleton = false) &&
    (decide (u ≠ t) || C.inTX t && decide ((C.sys.threads t).storage.writeSet.keys = []) &&
      op.key?.any fun x => decide (C.sys.shared.below x.1 x.2 = head x.1 ∨
        C.sys.shared.below x.1 x.2 ∈ C₁.sys.shared.chain x.1))

theorem Sighted.of_reads [DecidableEq V] (h : C₁.sightedReads t C u op = true) :
    Sighted C₁ t C u op := by
  simp only [Conf.sightedReads, Bool.and_eq_true, Bool.or_eq_true, decide_eq_true_eq] at h
  obtain ⟨⟨⟨hstart, hacc⟩, hsing⟩, hown⟩ := h
  have hput : ∀ {l key val}, op = .put l key val → C.inTX u = true := by
    rintro l key val rfl
    simpa [Op.isAccess] using hacc
  have hno : ∀ {P : Prop} {n}, n ∈ (C.sys.threads u).storage.readSet →
      (C.sys.shared.mem n).word.singleton = true → P := fun hn hs => by
    rw [hsing _ hn] at hs
    simp at hs
  refine ⟨⟨hstart, fun l key val hop hF _ _ _ => ?_, fun _ _ n hn _ hs => hno hn hs⟩,
    fun hu => ?_, fun _ => ⟨fun l key val hop hF _ => ?_, fun _ _ n hn _ hs => hno hn hs⟩⟩
  · rw [hput hop] at hF
    simp at hF
  · obtain ⟨⟨hT, hw⟩, hop⟩ := hown.resolve_left fun h => h hu
    obtain ⟨⟨l, key⟩, hkey, hbelow⟩ := (Option.any_eq_true _ _).1 hop
    refine ⟨hu ▸ hT, l, key, hkey, fun n we y hlook => ?_, fun p hp _ => ?_⟩
    · have hn : n ∈ (C.sys.threads t).storage.writeSet := AList.lookup_isSome.1 (by
        rw [show (C.sys.threads t).storage.writeSet.lookup n = some we from hlook]; rfl)
      rw [AList.mem_keys, hw] at hn
      simp at hn
    · rw [hp.eq_below hw]
      exact of_decide_eq_true hbelow
  · rw [hput hop] at hF
    simp at hF

/-- A transaction reads on while another commits an insertion and a new value, and throws when it
comes to the changed node. -/
theorem Conf.Reach.reads_snapshot_thrown : ∃ C₀ C₁ C : Conf Nat Nat 1, Conf.Reach 0 0 Safe C₀ ∧
    C₀.Step 0 .txBegin .unit C₁ ∧ C₁.Run (Sighted C₁ 0) C ∧ C.hist.thrown 0 = true ∧
    C.hist.current 0 = [.get 0 5 (some 1), .get 0 3 none, .containsKey 0 5 true] ∧
    C.sys.shared.lookup 0 7 = some 4 ∧
    Maps.All Rec.ReadReplays C₁.sys.shared.lookup (C.hist.current 0) := by
  obtain ⟨C₀, hr, hI, hp⟩ := Conf.exists_reach (B := 2) (G := Safe) 0 0
    [(1, .txBegin), (1, .put 0 5 1), (1, .put 0 7 2), (1, .txEnd)]
    (fun C₀ : Conf Nat Nat 1 => C₀.safeAlone 2 0 .txBegin && C₀.after 0 .txBegin .unit
      fun C₁ : Conf Nat Nat 1 => (C₁.script (C₁.sightedReads 0) 2 [(0, .get 0 5), (1, .txBegin), (1, .put 0 7 4),
        (1, .put 0 9 6), (1, .txEnd), (0, .get 0 3), (0, .containsKey 0 5), (0, .get 0 9)]).any
          fun C : Conf Nat Nat 1 => decide (C.hist.thrown 0 = true ∧
            C.hist.current 0 = [.get 0 5 (some 1), .get 0 3 none, .containsKey 0 5 true] ∧
            C.sys.shared.lookup 0 7 = some 4))
    (fun C t op hI hg => Safe.of_safeAlone hI hg) (by decide +kernel)
  rw [Bool.and_eq_true] at hp
  obtain ⟨C₁, hst, hrest⟩ := Conf.step_of_after hp.2
  obtain ⟨C, hrun, -, hC⟩ := Conf.exists_run (G := Sighted C₁ 0) (hI.step (by decide) hst) _ _
    (fun C t op _ hg => Sighted.of_reads hg) hrest
  obtain ⟨hth, hcur, hlook⟩ := of_decide_eq_true hC
  exact ⟨C₀, C₁, C, hr, hst, hrun, hth, hcur, hlook,
    (hr.reads_snapshot (Safe.of_safeAlone hI hp.1) hst hrun).2⟩

end Runs

end TxList
