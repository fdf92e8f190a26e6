import TxList.Proofs.Acts

/-!
# The invariant of runs

Between calls the lists are in order, and every live transaction sees sorted lists through its own
write set. Someone else's step either changes nothing such a transaction writes to, or marks a node
it has read, after which it is live no longer. Two things can break this in the code: a singleton's
insertion leaves the node it writes to without a mark, and an aborting `TXend` can clear a mark
that another transaction depends on. `Safe` is the guard that neither happens.
-/

namespace TxList

open Prog Chain

variable {K V : Type} {m : Nat} [LinearOrder K]

/-! ## The shared part of a step -/

section Shared

variable {S : ListId m → Finset NodeId} {c c' : Ctx K V m} {op : Op K V m} {ret : Ret V}

/-- `op` is a singleton `put` that inserts a node after `p`. -/
def LinksAfter (S : ListId m → Finset NodeId) (c : Ctx K V m) (op : Op K V m) (p : NodeId) : Prop :=
  ∃ l key val, op = .put l key val ∧ c.transaction.TX = false ∧
    (∀ n ∈ S l, c.shared.rank n ≠ key) ∧ IsPrev c.shared.rank (S l) (head l) key p

/-- What a call does to the shared lists: what it writes to is marked for every running
transaction, unless it is the node a singleton inserts after. -/
structure Change (S : ListId m → Finset NodeId) (c c' : Ctx K V m) (op : Op K V m)
    (D F : ListId m → Finset NodeId) (W : Set NodeId) : Prop where
  mutates : Mutates c.shared c'.shared S D F W
  marks : ∀ n ∈ W, LinksAfter S c op n ∨ ∀ rv ≤ c.shared.gvc, Marked (c'.shared.mem n) rv
  within : ∀ n ∈ W, (∃ l, n ∈ insert (head l) (S l)) ∨ c.Live ∧ ∃ l, n ∈ c.storage.indexAdd l
  joins : ∀ l, ∀ f ∈ F l, f = c.shared.fresh ∨ c.Live ∧ f ∈ c.storage.indexAdd l

theorem Lists.mutates_of_quiet {s s' : Shared K V m} (hL : Lists s S) (hm : m ≤ s.fresh)
    (hq : Quiet s s') : Mutates s s' S (fun _ => ∅) (fun _ => ∅) ∅ :=
  .of_same hL hm hq.fresh (fun n hn => by rw [hq.mem n hn])
    (fun n hn => by rw [hq.mem n hn]; exact ⟨rfl, rfl, rfl⟩) hq.index

theorem Lists.clearMark_mutates {s : Shared K V m} (hL : Lists s S) (hm : m ≤ s.fresh) (n : NodeId) :
    Mutates s (s.clearMark n) S (fun _ => ∅) (fun _ => ∅) ∅ := by
  have hmem : ∀ k, ((s.clearMark n).mem k).key = (s.mem k).key ∧
      ((s.clearMark n).mem k).next = (s.mem k).next ∧
      ((s.clearMark n).mem k).val = (s.mem k).val ∧
      ((s.clearMark n).mem k).isDeleted = (s.mem k).isDeleted := by
    intro k
    by_cases hk : k = n
    · subst hk
      simp [Shared.clearMark, LNode.setSingleton, LNode.isDeleted]
    · simp [Shared.clearMark, hk]
  exact .of_same hL hm le_rfl (fun k _ => (hmem k).1) (fun k _ => (hmem k).2) rfl

/-- Nothing of the lists changes. -/
theorem Change.of_mutates (hM : Mutates c.shared c'.shared S (fun _ => ∅) (fun _ => ∅) ∅) :
    Change S c c' op (fun _ => ∅) (fun _ => ∅) ∅ :=
  ⟨hM, fun n hn => hn.elim, fun n hn => hn.elim, fun l f hf => by simp at hf⟩

theorem Act.change (h : Act S c op ret c') (hL : Lists c.shared S) (hs : Sane c)
    (hO : c.Live → Overlay c.shared S c.storage) : ∃ D F W, Change S c c' op D F W := by
  have hquiet : Quiet c.shared c'.shared → ∃ D F W, Change S c c' op D F W := fun hq =>
    ⟨_, _, _, .of_mutates (hL.mutates_of_quiet hs.heads hq)⟩
  have hstamp : ∀ {x : LNode K V} {rv : Nat}, x.word.version = c.shared.gvc →
      x.word.singleton = true → rv ≤ c.shared.gvc → Marked x rv := by
    intro x rv hv hx hrv
    rcases hrv.lt_or_eq with hlt | he
    · exact .inl (hv ▸ hlt)
    · exact .inr ⟨hv.trans he.symm, hx⟩
  cases h with
  | opened => exact hquiet (.refl _)
  | handled r => exact hquiet ⟨le_rfl, fun _ _ => rfl, fun _ => .inl rfl, rfl⟩
  | rejected => exact hquiet (.refl _)
  | @cleared n _ _ => exact ⟨_, _, _, .of_mutates (hL.clearMark_mutates hs.heads n)⟩
  | finished => exact hquiet (.refl _)
  | committed hlive _ hu hM =>
    refine ⟨_, _, _, hM, fun n hn => .inr fun rv hrv => ?_, fun n hn => ?_, fun l f hf => .inr ?_⟩
    · show Marked _ _
      rw [Ctx.cleaned, hu.mem]
      exact commit_marked hn hrv
    · obtain ⟨l, hn | hn⟩ := (hO hlive).writes n hn
      · exact .inl ⟨l, hn⟩
      · exact .inr ⟨hlive, l, hn⟩
    · exact ⟨hlive, (LocalStorage.mem_added.1 hf).1⟩
  | thrown _ _ ht => exact hquiet ht.quiet
  | strayed _ _ _ hq => exact hquiet hq.quiet
  | overwrote => exact hquiet (.refl _)
  | inserted _ _ _ hx => exact hquiet (.alloc _ (by rw [hx]))
  | unlinked => exact hquiet (.refl _)
  | missed => exact hquiet (.refl _)
  | read => exact hquiet (.refl _)
  | contained => exact hquiet (.refl _)
  | @stamped l _ val y _ hy _ =>
    refine ⟨_, _, _, hL.stampValue_mutates hs.heads hy val, fun n hn => .inr fun rv hrv => ?_,
      fun n hn => .inl ⟨l, ?_⟩, fun l f hf => by simp at hf⟩
    · rw [show n = y from hn]
      exact hstamp (by simp [Shared.stampValue]) (by simp [Shared.stampValue]) hrv
    · rw [show n = y from hn]
      exact Finset.mem_insert_of_mem hy
  | @linked l key val p s' hT hp habs hmem hM =>
    refine ⟨_, _, _, hM, fun n hn => .inl ?_, fun n hn => .inl ⟨l, ?_⟩, fun l' f hf => .inl ?_⟩
    · rw [show n = p from hn]
      exact ⟨l, key, val, rfl, hT, habs, hp⟩
    · rw [show n = p from hn]
      exact hp.1
    · exact Finset.mem_singleton.1 (mem_only.1 hf).2
  | @cut l key p x s' hT hp hx hk hmem hM =>
    have hne : p ≠ x := fun he => ((hL.threads l).lt_next hp hx).ne (by rw [he])
    refine ⟨_, _, _, hM, fun n hn => .inr fun rv hrv => ?_, fun n hn => .inl ⟨l, ?_⟩,
      fun l f hf => by simp at hf⟩
    · show Marked (s'.mem n) rv
      rw [hmem]
      rcases hn with rfl | rfl
      · exact hstamp (by simp [Shared.unlinkStamped]) (by simp [Shared.unlinkStamped]) hrv
      · exact hstamp (by simp [Shared.unlinkStamped, hne.symm])
          (by simp [Shared.unlinkStamped, hne.symm]) hrv
    · rcases hn with rfl | rfl
      · exact hp
      · exact Finset.mem_insert_of_mem ((hL.threads l).next_mem hp hx)
  | absent => exact hquiet (.refl _)
  | gotten => exact hquiet (.refl _)
  | checked => exact hquiet (.refl _)

end Shared

/-! ## What a live transaction sees -/

/-- The transaction sees this key as the shared list has it. -/
structure Untouched (s : Shared K V m) (S : ListId m → Finset NodeId) (ls : LocalStorage V m)
    (l : ListId m) (key : K) : Prop where
  kept : ∀ n ∈ S l, s.rank n = key → ls.deletes n = false ∧ ls.valOf s.mem n = (s.mem n).val
  added : ∀ x ∈ ls.indexAdd l, s.rank x ≠ key

/-- A live transaction with the calls `cur` so far. -/
structure Viewed (S : ListId m → Finset NodeId) (cur : List (Rec K V m)) (c : Ctx K V m) : Prop where
  overlay : Overlay c.shared S c.storage
  idle : c.transaction.readOnly = true → c.storage.writeSet = ∅ ∧ ∀ l, c.storage.indexAdd l = []
  untouched : ∀ l key, (∀ r ∈ cur, ¬ r.Updates l key) → Untouched c.shared S c.storage l key

section View

variable {S D F : ListId m → Finset NodeId} {W : Set NodeId} {c : Ctx K V m}
  {cur : List (Rec K V m)} {l : ListId m} {key : K} {val : V} {p x : NodeId}

/-- A node to be added is on no list yet. -/
theorem Overlay.indexAdd_off {s : Shared K V m} {ls : LocalStorage V m} (hO : Overlay s S ls)
    (hx : x ∈ ls.indexAdd l) (l' : ListId m) : x ∉ insert (head l') (S l') := by
  intro h
  rcases Finset.mem_insert.1 h with rfl | h
  · exact absurd (hO.new l _ hx).1 (Nat.not_le.2 l'.isLt)
  · by_cases he : l = l'
    · subst he
      exact (hO.patch l).new x (List.mem_toFinset.2 hx) h
    · exact (hO.apart l l' he x hx).1 h

/-- A transaction that has done nothing yet. -/
theorem Lists.overlay_empty {s : Shared K V m} {ls : LocalStorage V m} (hL : Lists s S)
    (he : ls.IsEmpty) : Overlay s S ls := by
  obtain ⟨hw, -, ha, hr⟩ := he
  have hno : ∀ n, n ∉ ls.writeSet := fun n => by
    rw [hw]
    exact AList.notMem_empty n
  have hgone : ∀ A, ls.gone A = ∅ := fun A => by
    refine Finset.filter_eq_empty_iff.2 fun n _ => ?_
    rw [LocalStorage.deletes_of_notMem (hno n)]
    simp
  have hseen : ∀ l, ls.seen S l = S l := fun l => by
    ext n
    simp [LocalStorage.mem_seen, ha, LocalStorage.deletes_of_notMem (hno n)]
  refine ⟨fun l => ?_, fun l => ?_, fun l n hn => ?_, fun l => LocalStorage.deletes_of_notMem (hno _),
    fun l n => ?_, fun l => by simp [ha], fun l x hx => by simp [ha] at hx,
    fun l x hx => by simp [ha] at hx, fun l l' _ x hx => by simp [ha] at hx,
    fun n hn => absurd hn (hno n)⟩
  · rw [hgone, ha]
    exact .empty _ _ _
  · rw [hseen]
    exact (hL.threads l).congr (fun _ _ => rfl) fun n _ => LocalStorage.nextOf_of_notMem (hno n)
  · rw [hseen] at hn
    rw [LocalStorage.valOf_of_notMem (hno n)]
    exact (hL.live l n hn).1
  · simp [hr, LocalStorage.deletes_of_notMem (hno n)]

theorem Viewed.empty {S : ListId m → Finset NodeId} (hL : Lists c.shared S) (he : c.storage.IsEmpty) :
    Viewed S [] c := by
  refine ⟨hL.overlay_empty he, fun _ => ⟨he.1, he.2.2.1⟩, fun l key _ => ⟨fun n _ _ => ?_,
    fun x hx => by simp [he.2.2.1] at hx⟩⟩
  have hn : n ∉ c.storage.writeSet := by
    rw [he.1]
    exact AList.notMem_empty n
  exact ⟨LocalStorage.deletes_of_notMem hn, LocalStorage.valOf_of_notMem hn⟩

/-- Someone else's step leaves the view one of the lists as they are then. -/
theorem Viewed.mutate {s' : Shared K V m} (h : Viewed S cur c) (hL : Lists c.shared S) (hs : Sane c)
    (hM : Mutates c.shared s' S D F W) (hW : ∀ n ∈ c.storage.writeSet, n ∉ W)
    (hF : ∀ l, ∀ f ∈ F l, f ∉ c.storage.writeSet ∧ ∀ l', f ∉ c.storage.indexAdd l')
    (hA : ∀ l, ∀ x ∈ c.storage.indexAdd l, x ∉ W) :
    Viewed (fun l => patched (S l) (D l) (F l)) cur { c with shared := s' } := by
  refine ⟨h.overlay.mutate hL hs.heads hM (Set.disjoint_left.2 hW) hF hA, h.idle,
    fun l key hno => ⟨fun n hn hk => ?_, fun x hx => ?_⟩⟩
  · rcases mem_patched.1 hn with ⟨hn, -⟩ | hn
    · have hlt := hL.lt_fresh hs.heads (Finset.mem_insert_of_mem hn)
      simp only [hM.rank hlt] at hk
      obtain ⟨hd, hv⟩ := (h.untouched l key hno).kept n hn hk
      refine ⟨hd, ?_⟩
      by_cases hw : n ∈ c.storage.writeSet
      · have hsame := (hM.same n hlt (hW n hw)).2.1
        rw [LocalStorage.valOf_congr fun hno => absurd hw hno]
        exact hv.trans hsame.symm
      · exact LocalStorage.valOf_of_notMem hw
    · have hw := (hF l n hn).1
      exact ⟨LocalStorage.deletes_of_notMem hw, LocalStorage.valOf_of_notMem hw⟩
  · simp only [hM.rank (h.overlay.new l x hx).2.1]
    exact (h.untouched l key hno).added x hx

/-- A node that is on list `l'` and that the transaction sees on list `l`. -/
theorem Overlay.list_eq {l' : ListId m} {s : Shared K V m} {ls : LocalStorage V m}
    (hO : Overlay s S ls) (hL : Lists s S) (hx : x ∈ ls.seen S l) (hx' : x ∈ S l') : l' = l := by
  rcases (LocalStorage.mem_seen.1 hx).1 with h | h
  · exact hL.unique_list (Finset.mem_insert_of_mem hx') (Finset.mem_insert_of_mem h)
  · exact absurd (Finset.mem_insert_of_mem hx') (hO.indexAdd_off h l')

section Own

variable (h : Viewed S cur c) (hL : Lists c.shared S)

include h

theorem Viewed.addToReadSet (p : NodeId) (r : Rec K V m) :
    Viewed S (cur ++ [r]) { c with storage := c.storage.addToReadSet p } := by
  refine ⟨h.overlay.addToReadSet p, h.idle, fun l key hno => ?_⟩
  have hU := h.untouched l key fun r hr => hno r (by simp [hr])
  exact ⟨hU.kept, hU.added⟩

include hL

theorem Viewed.overwrite (hx : x ∈ c.storage.seen S l) (hk : c.shared.rank x = key) (ret : Option V) :
    Viewed S (cur ++ [.put l key val ret])
      { c.writing with storage := c.storage.overwrite c.shared.mem x val } := by
  refine ⟨h.overlay.overwrite hx val, fun hro => by simp [Ctx.writing] at hro,
    fun l' key' hno => ⟨fun n hn hr => ?_, ?_⟩⟩
  all_goals have hU := h.untouched l' key' fun r hr => hno r (by simp [hr])
  · obtain ⟨hd, hv⟩ := hU.kept n hn hr
    refine ⟨LocalStorage.overwrite_deletes.trans hd, ?_⟩
    have hnx : n ≠ x := by
      rintro rfl
      obtain rfl := h.overlay.list_eq hL hx hn
      exact hno (.put l' key val ret) (by simp) ⟨rfl, rfl, WithBot.coe_inj.1 (hk.symm.trans hr)⟩
    show (c.storage.overwrite c.shared.mem x val).valOf c.shared.mem n = _
    rw [LocalStorage.overwrite_valOf, if_neg hnx]
    exact hv
  · exact hU.added

theorem Viewed.unlink (hx : x ∈ c.storage.seen S l) (hk : c.shared.rank x = key)
    (hp : IsPrev c.shared.rank (c.storage.seen S l) (head l) key p) (ret : Option V) :
    Viewed S (cur ++ [.remove l key ret]) { c.writing with
      storage := c.storage.unlink c.shared.mem l p x (c.storage.nextOf c.shared.mem x) } := by
  have hne : p ≠ x := fun he => hp.2.1.ne (by rw [he, hk])
  refine ⟨(Taking.mk h.overlay hL hx (hk ▸ hp)).unlink, fun hro => by simp [Ctx.writing] at hro,
    fun l' key' hno => ⟨fun n hn hr => ?_, ?_⟩⟩
  all_goals have hU := h.untouched l' key' fun r hr => hno r (by simp [hr])
  · obtain ⟨hd, hv⟩ := hU.kept n hn hr
    have hnx : n ≠ x := by
      rintro rfl
      obtain rfl := h.overlay.list_eq hL hx hn
      exact hno (.remove l' key ret) (by simp) ⟨rfl, rfl, WithBot.coe_inj.1 (hk.symm.trans hr)⟩
    constructor
    · show (c.storage.unlink c.shared.mem l p x _).deletes n = false
      rw [LocalStorage.unlink_deletes hne (h.overlay.kept hp.1), hd]
      simp [hnx]
    · show (c.storage.unlink c.shared.mem l p x _).valOf c.shared.mem n = _
      rw [LocalStorage.unlink_valOf hne]
      exact hv
  · exact hU.added

theorem Viewed.insertAfter (hs : Sane c) {y : LNode K V}
    (hp : IsPrev c.shared.rank (c.storage.seen S l) (head l) key p)
    (habs : ∀ n ∈ c.storage.seen S l, c.shared.rank n ≠ key)
    (hy : y = { key := key, val := some val, next := c.storage.nextOf c.shared.mem p })
    (ret : Option V) :
    Viewed S (cur ++ [.put l key val ret]) { c.writing with
      shared := c.shared.alloc y
      storage := c.storage.insertAfter (c.shared.alloc y).mem l p c.shared.fresh } := by
  have hmem : ∀ n < c.shared.fresh, (c.shared.alloc y).mem n = c.shared.mem n := fun n hn => by
    simp [Function.update_of_ne (show n ≠ c.shared.fresh from hn.ne)]
  have hrank : ∀ n < c.shared.fresh, (c.shared.alloc y).rank n = c.shared.rank n := fun n hn => by
    simp only [Shared.rank, hmem n hn]
  have hnew : (c.shared.alloc y).rank c.shared.fresh = key := by
    rw [Shared.rank_of_le _ hs.heads]
    simp [hy]
  refine ⟨?_, fun hro => by simp [Ctx.writing] at hro, fun l' key' hno => ⟨fun n hn hr => ?_,
    fun x hx => ?_⟩⟩
  · rw [hy]
    exact (h.overlay.placing hL hs.heads (fun n hn => hs.readSet n (hs.write_read n hn)) hp
      habs).insertAfter
  all_goals have hU := h.untouched l' key' fun r hr => hno r (by simp [hr])
  · have hlt := hL.lt_fresh hs.heads (Finset.mem_insert_of_mem hn)
    simp only [hrank n hlt] at hr
    obtain ⟨hd, hv⟩ := hU.kept n hn hr
    refine ⟨(LocalStorage.insertAfter_deletes (h.overlay.kept hp.1)).trans hd, ?_⟩
    show (c.storage.insertAfter (c.shared.alloc y).mem l p _).valOf (c.shared.alloc y).mem n = _
    rw [LocalStorage.insertAfter_valOf, LocalStorage.valOf_congr fun _ => by rw [hmem n hlt], hv,
      hmem n hlt]
  · simp only [LocalStorage.insertAfter_indexAdd] at hx
    split_ifs at hx with hl
    · subst hl
      rcases List.mem_append.1 hx with hx | hx
      · simp only [hrank x (h.overlay.new l' x hx).2.1]
        exact hU.added x hx
      · rw [List.mem_singleton.1 hx]
        exact fun he => hno (.put l' key val ret) (by simp)
          ⟨rfl, rfl, WithBot.coe_inj.1 (hnew.symm.trans he)⟩
    · simp only [hrank x (h.overlay.new l' x hx).2.1]
      exact hU.added x hx

end Own

end View

/-! ## The guards -/

/-- A transaction starts with nothing in the thread's local storage. -/
def FreshStart : Conf.Guard K V m := fun C t op =>
  op = .txBegin → (C.sys.threads t).storage.IsEmpty

/-- A singleton `put` that inserts does so after no node a live transaction is to write to. -/
def GapSafe : Conf.Guard K V m := fun C t op =>
  ∀ l key val, op = .put l key val → C.inTX t = false → C.sys.shared.lookup l key = none →
    ∀ u, (C.sys.ctx u).Live → C.sys.shared.below l key ∉ (C.sys.threads u).storage.writeSet

/-- No `TXend` can clear a singleton's mark that another open transaction of the same read version
depends on. -/
def MarkSafe : Conf.Guard K V m := fun C t op =>
  op = .txEnd → C.inTX t = true → ∀ n ∈ (C.sys.threads t).storage.readSet,
    n ∈ (C.sys.threads t).storage.writeSet → (C.sys.shared.mem n).word.singleton = true →
    (C.sys.shared.mem n).word.version = (C.sys.threads t).transaction.readVersion →
    ∀ u, u ≠ t → C.inTX u = true → n ∈ (C.sys.threads u).storage.readSet →
      (C.sys.threads u).transaction.readVersion ≠ (C.sys.threads t).transaction.readVersion

def Safe : Conf.Guard K V m := fun C t op => FreshStart C t op ∧ GapSafe C t op ∧ MarkSafe C t op

/-! ## The invariant -/

structure Inv (C : Conf K V m) (S : ListId m → Finset NodeId) : Prop where
  sane : C.sys.Sane
  lists : Lists C.sys.shared S
  viewed : ∀ t, (C.sys.ctx t).Live → Viewed S (C.hist.current t) (C.sys.ctx t)
  apart : ∀ t u, t ≠ u → (C.sys.ctx t).Live → (C.sys.ctx u).Live → ∀ l l',
    ∀ x ∈ (C.sys.threads t).storage.indexAdd l, x ∉ (C.sys.threads u).storage.indexAdd l'

section Runs

variable {C C' : Conf K V m} {S : ListId m → Finset NodeId} {t u : ThreadId} {op : Op K V m}
  {ret : Ret V}

theorem Lists.below_isPrev {s : Shared K V m} (hL : Lists s S) (l : ListId m) (key : K) :
    IsPrev s.rank (S l) (head l) key (s.below l key) := by
  obtain ⟨-, hmem, hsort⟩ := hL.chain_spec l
  have hlow : ∀ n, n ∈ (s.chain l).filter (fun n => (s.mem n).key < key) ↔
      n ∈ S l ∧ s.rank n < key := by
    intro n
    rw [List.mem_filter, hmem]
    refine and_congr_right fun hn => ?_
    rw [hL.rank_mem hn, WithBot.coe_lt_coe]
    simp
  rw [Shared.below]
  rcases hlast : ((s.chain l).filter fun n => (s.mem n).key < key).getLast? with _ | p
  · rw [List.getLast?_eq_none_iff] at hlast
    refine ⟨Finset.mem_insert_self _ _, ?_, fun n hn hlt => ?_⟩
    · simp [s.rank_head l]
    · have := (hlow n).2 ⟨hn, hlt⟩
      simp [hlast] at this
  · obtain ⟨hp, hpk⟩ := (hlow p).1 (List.mem_of_getLast? hlast)
    refine ⟨Finset.mem_insert_of_mem hp, hpk, fun n hn hlt => ?_⟩
    have hn' := (hlow n).2 ⟨hn, hlt⟩
    obtain ⟨L, hL'⟩ := List.getLast?_eq_some_iff.1 hlast
    have hpw := hsort.filter (fun n => decide ((s.mem n).key < key))
    rw [hL'] at hn' hpw
    rcases List.mem_append.1 hn' with h | h
    · exact ((List.pairwise_append.1 hpw).2.2 n h p (by simp)).le
    · rw [List.mem_singleton.1 h]
      rfl

/-- The inversion of a step from a state with the invariant. -/
theorem Inv.step_act (h : Inv C S) (hst : C.Step t op ret C') : ∃ c', C'.sys = C.sys.put t c' ∧
    Act S (C.sys.ctx t) op ret c' ∧ StepFramed C.sys C'.sys t op ret ∧
    C'.hist = C.hist.step t (C.inTX t) op ret := by
  obtain ⟨ch, ho, hstep, hhist⟩ := hst
  have hacts := Lists.call_acts op (c := C.sys.ctx t) h.lists (h.sane t)
    (fun hlive => (h.viewed t hlive).overlay) ho
  obtain ⟨c', hc', hact⟩ := Sys.step_of_ends hacts hstep
  refine ⟨c', hc', ?_, Sys.step_framed h.sane ho hstep, hhist⟩
  rcases hact with hact | ⟨rfl, hact⟩
  · exact hact
  · exact hact

omit [LinearOrder K] in
/-- A transaction that is live after someone else's step was live before it. -/
theorem StepFramed.live_of_live {σ σ' : Sys K V m} (hf : StepFramed σ σ' t op ret) (hs : σ.Sane)
    (hu : u ≠ t) (hX : ∀ n ∈ (σ.threads u).storage.readSet, (σ.threads u).transaction.TX = true →
      Marked (σ.shared.mem n) (σ.threads u).transaction.readVersion →
      ¬ (ret = .aborted ∧ op = .txEnd ∧ Clears (σ.ctx t) n (σ.threads u).transaction.readVersion))
    (hl : (σ'.ctx u).Live) : (σ.ctx u).Live := by
  obtain ⟨hT, hv⟩ := hl
  simp only [Sys.ctx, hf.threads u hu] at hT hv
  refine ⟨hT, fun n hn hm => hv n hn ?_⟩
  exact hf.framed.grows.marked n ((hs u).readSet n hn) _ (hs u).readVersion (hX n hn hT hm) hm

omit [LinearOrder K] in
/-- A transaction that is live after a list operation of its own was live before it. -/
theorem StepFramed.own_live {σ σ' : Sys K V m} (hf : StepFramed σ σ' t op ret) (hs : σ.Sane)
    (hop : op.isAccess = true) (hl : (σ'.ctx t).Live) : (σ.ctx t).Live := by
  obtain ⟨hT, hv⟩ := hl
  obtain ⟨hr, hrv, hTX⟩ := hf.framed.access hop
  refine ⟨hTX hT, fun n hn hm => hv n (hr hn) ?_⟩
  rw [hrv]
  refine hf.framed.grows.marked n ((hs t).readSet n hn) _ (hs t).readVersion ?_ hm
  rintro ⟨-, rfl, -⟩
  simp [Op.isAccess] at hop

/-- A call on a list in an open transaction is recorded. -/
theorem Hist.step_current (H : Hist K V m) {r : Rec K V m} (hop : op.isAccess = true)
    (hr : Rec.of? op ret = some r) : (H.step t true op ret).current t = H.current t ++ [r] := by
  cases op <;> cases ret <;> simp_all [Op.isAccess, Hist.step, Rec.of?]

/-- The other threads' calls are not touched. -/
theorem Hist.step_current_ne (H : Hist K V m) {inTX : Bool} (hu : u ≠ t) :
    (H.step t inTX op ret).current u = H.current u := by
  simp only [Hist.step]
  split
  · rfl
  · simp [hu]
  · simp [hu]
  · simp [hu]
  · split
    · rfl
    · split_ifs
      · simp [hu]
      · rfl

/-- The nodes of the lists are determined by the memory. -/
theorem Lists.unique {s : Shared K V m} {S' : ListId m → Finset NodeId} (h : Lists s S)
    (h' : Lists s S') : S' = S := by
  funext l
  ext n
  rw [← (h.chain_spec l).2.1, (h'.chain_spec l).2.1]

/-- A transaction's own step. -/
theorem Act.viewed {c c' : Ctx K V m} {H : Hist K V m} (h : Act S c op ret c')
    (hL : Lists c.shared S) (hs : Sane c) (hlive : c'.Live) (hback : op.isAccess = true → c.Live)
    (hV : c.Live → Viewed S (H.current t) c) (hstart : op = .txBegin → c.storage.IsEmpty) :
    Lists c'.shared S ∧ Viewed S ((H.step t c.transaction.TX op ret).current t) c' ∧
      ∀ l, ∀ x ∈ c'.storage.indexAdd l, x = c.shared.fresh ∨
        x ∈ c.storage.indexAdd l ∧ c.Live := by
  have hclosed : c'.transaction.TX = false → False := fun hT => by
    rw [hlive.1] at hT
    simp at hT
  cases h with
  | opened =>
    have he := hstart rfl
    refine ⟨hL, ?_, fun l x hx => by simp [he.2.2.1] at hx⟩
    simp only [Hist.step, Function.update_self]
    exact Viewed.empty hL he
  | handled => exact (hclosed rfl).elim
  | rejected => exact (hclosed rfl).elim
  | cleared => exact (hclosed rfl).elim
  | finished => exact (hclosed rfl).elim
  | committed => exact (hclosed rfl).elim
  | thrown _ _ ht => exact (hclosed ht.closed).elim
  | strayed hop _ hno => exact (hno (hback hop)).elim
  | overwrote hl hx hk =>
    refine ⟨hL, ?_, fun l x hx => .inr ⟨hx, hl⟩⟩
    simp only [Hist.step, Rec.of?, hl.1, if_true, Function.update_self]
    exact (hV hl).overwrite hL hx hk _
  | @inserted l key val p y hl hp habs hy =>
    refine ⟨?_, ?_, fun l x hx => ?_⟩
    · have hq : Quiet c.shared (c.shared.alloc y) := .alloc c.shared (by rw [hy])
      simpa only [patched_empty] using (hL.mutates_of_quiet hs.heads hq).lists
    · simp only [Hist.step, Rec.of?, hl.1, if_true, Function.update_self]
      exact (hV hl).insertAfter hL hs hp habs hy _
    · simp only [LocalStorage.insertAfter_indexAdd] at hx
      split_ifs at hx with he
      · subst he
        rcases List.mem_append.1 hx with hx | hx
        · exact .inr ⟨hx, hl⟩
        · exact .inl (List.mem_singleton.1 hx)
      · exact .inr ⟨hx, hl⟩
  | unlinked hl hx hk hp =>
    refine ⟨hL, ?_, fun l x hx => .inr ⟨hx, hl⟩⟩
    simp only [Hist.step, Rec.of?, hl.1, if_true, Function.update_self]
    exact (hV hl).unlink hL hx hk hp _
  | @missed l key p hl hp habs =>
    refine ⟨hL, ?_, fun l x hx => .inr ⟨hx, hl⟩⟩
    simp only [Hist.step, Rec.of?, hl.1, if_true, Function.update_self]
    have hA := (hV hl).addToReadSet p (.remove l key none)
    exact ⟨hA.overlay, fun hro => by simp [Ctx.writing] at hro, hA.untouched⟩
  | read hl hp _ =>
    refine ⟨hL, ?_, fun l x hx => .inr ⟨hx, hl⟩⟩
    simp only [Hist.step, Rec.of?, hl.1, if_true, Function.update_self]
    exact (hV hl).addToReadSet _ _
  | contained hl hp _ =>
    refine ⟨hL, ?_, fun l x hx => .inr ⟨hx, hl⟩⟩
    simp only [Hist.step, Rec.of?, hl.1, if_true, Function.update_self]
    exact (hV hl).addToReadSet _ _
  | stamped hT => exact (hclosed hT).elim
  | linked hT => exact (hclosed hT).elim
  | cut hT => exact (hclosed hT).elim
  | absent hT => exact (hclosed hT).elim
  | gotten hT => exact (hclosed hT).elim
  | checked hT => exact (hclosed hT).elim

/-- Another thread's step under the guards: it writes to nothing that a transaction still live
after it is to write to. -/
theorem Change.writes_off {c' : Ctx K V m} {D F : ListId m → Finset NodeId} {W : Set NodeId}
    (hC : Change S (C.sys.ctx t) c' op D F W) (h : Inv C S) (hG : GapSafe C t op)
    (hlive : ({ C.sys.ctx u with shared := c'.shared } : Ctx K V m).Live)
    (hlive₀ : (C.sys.ctx u).Live) : ∀ n ∈ (C.sys.threads u).storage.writeSet, n ∉ W := by
  intro n hn hW
  rcases hC.marks n hW with ⟨l, key, val, hop, hT, habs, hp⟩ | hmark
  · have hnone : C.sys.shared.lookup l key = none := by
      rcases hl : C.sys.shared.lookup l key with _ | v
      · rfl
      · obtain ⟨x, hx, hk, -⟩ := h.lists.lookup_eq_some.1 hl
        exact absurd hk (habs x hx)
    refine hG l key val hop hT hnone u hlive₀ ?_
    rwa [← IsPrev.unique (h.lists.threads l).toRanked hp (h.lists.below_isPrev l key)]
  · exact hlive.2 n ((h.sane u).write_read n hn) (hmark _ (h.sane u).readVersion)

/-- Whatever joins a list in another thread's step is foreign to a transaction live before it. -/
theorem Change.joins_off {c' : Ctx K V m} {D F : ListId m → Finset NodeId} {W : Set NodeId}
    (hC : Change S (C.sys.ctx t) c' op D F W) (h : Inv C S) (hu : u ≠ t)
    (hlive : (C.sys.ctx u).Live) : ∀ l, ∀ f ∈ F l, f ∉ (C.sys.threads u).storage.writeSet ∧
      ∀ l', f ∉ (C.sys.threads u).storage.indexAdd l' := by
  intro l f hf
  rcases hC.joins l f hf with rfl | ⟨hlt, hft⟩
  · exact ⟨fun hw => ((h.sane u).readSet _ ((h.sane u).write_read _ hw)).ne rfl,
      fun l' hx => ((h.sane u).indexAdd l' _ hx).ne rfl⟩
  · have hO := (h.viewed t hlt).overlay
    have hap : ∀ l', f ∉ (C.sys.threads u).storage.indexAdd l' := fun l' =>
      h.apart t u hu.symm hlt hlive l l' f hft
    refine ⟨fun hw => ?_, hap⟩
    obtain ⟨l', hl' | hl'⟩ := (h.viewed u hlive).overlay.writes f hw
    · exact hO.indexAdd_off hft l' hl'
    · exact hap l' hl'

theorem Change.adds_off {c' : Ctx K V m} {D F : ListId m → Finset NodeId} {W : Set NodeId}
    (hC : Change S (C.sys.ctx t) c' op D F W) (h : Inv C S) (hu : u ≠ t)
    (hlive : (C.sys.ctx u).Live) :
    ∀ l, ∀ x ∈ (C.sys.threads u).storage.indexAdd l, x ∉ W := by
  intro l x hx hW
  rcases hC.within x hW with ⟨l', hl'⟩ | ⟨hlt, l', hl'⟩
  · exact (h.viewed u hlive).overlay.indexAdd_off hx l' hl'
  · exact h.apart t u hu.symm hlt hlive l' l x hl' hx

/-- What an act leaves of the invariant: what the lists are changed by, and who is live after. -/
theorem Inv.acted {c' : Ctx K V m} (h : Inv C S) (hG : Safe C t op) (hc' : C'.sys = C.sys.put t c')
    (hact : Act S (C.sys.ctx t) op ret c') (hframe : StepFramed C.sys C'.sys t op ret)
    (hhist : C'.hist = C.hist.step t (C.inTX t) op ret) :
    ∃ D F W, Change S (C.sys.ctx t) c' op D F W ∧ (∀ u, u ≠ t → (C'.sys.ctx u).Live → (C.sys.ctx u).Live) ∧
      Inv C' fun l => patched (S l) (D l) (F l) := by
  obtain ⟨hstart, hgap, hmark⟩ := hG
  obtain ⟨D, F, W, hC⟩ := hact.change h.lists (h.sane t) fun hl => (h.viewed t hl).overlay
  have hctx : C'.sys.ctx t = c' := by rw [hc', Sys.ctx_put_self]
  have hctxu : ∀ u, u ≠ t → C'.sys.ctx u = { C.sys.ctx u with shared := c'.shared } := fun u hu => by
    rw [hc', Sys.ctx_put_ne _ _ hu]
  have hshared : C'.sys.shared = c'.shared := by rw [hc']; rfl
  have hlists : Lists C'.sys.shared fun l => patched (S l) (D l) (F l) := by
    rw [hshared]
    exact hC.mutates.lists
  have hlive : ∀ u, u ≠ t → (C'.sys.ctx u).Live → (C.sys.ctx u).Live := fun u hu hl => by
    refine hframe.live_of_live h.sane hu (fun n hn hT hm => ?_) hl
    rintro ⟨-, rfl, hr, hw, hTt, hrv, hv⟩
    rcases hm with hm | ⟨-, hm⟩
    · exact hm.ne hv.symm
    · exact hmark rfl hTt n hr hw hm (hv.trans hrv) u hu hT hn hrv
  -- the thread that takes the step, if it is live after
  have hown : c'.Live → (∀ l, patched (S l) (D l) (F l) = S l) ∧ Viewed S (C'.hist.current t) c' ∧
      ∀ l, ∀ x ∈ c'.storage.indexAdd l, x = C.sys.shared.fresh ∨
        x ∈ (C.sys.threads t).storage.indexAdd l ∧ (C.sys.ctx t).Live := by
    intro hl
    obtain ⟨hL, hV, hA⟩ := hact.viewed (t := t) (H := C.hist) h.lists (h.sane t) hl
      (fun hop => hframe.own_live h.sane hop (by rwa [hctx])) (h.viewed t) (hstart ·)
    refine ⟨fun l => ?_, ?_, hA⟩
    · rw [hshared] at hlists
      exact congrFun (hL.unique hlists) l
    · rw [hhist]
      exact hV
  -- the others, with their own calls as they were
  have hother : ∀ u, u ≠ t → (C'.sys.ctx u).Live →
      Viewed (fun l => patched (S l) (D l) (F l)) (C'.hist.current u) (C'.sys.ctx u) := by
    intro u hu hl
    have hl₀ := hlive u hu hl
    rw [hctxu u hu] at hl ⊢
    have hcur : C'.hist.current u = C.hist.current u := by
      rw [hhist]
      exact Hist.step_current_ne _ hu
    rw [hcur]
    exact (h.viewed u hl₀).mutate h.lists (h.sane u) hC.mutates (hC.writes_off h hgap hl hl₀)
      (hC.joins_off h hu hl₀) (hC.adds_off h hu hl₀)
  refine ⟨D, F, W, hC, hlive, hframe.sane, hlists, fun u hl => ?_,
    fun u₁ u₂ hne hl₁ hl₂ l l' x hx₁ hx₂ => ?_⟩
  · by_cases hu : u = t
    · subst hu
      rw [hctx] at hl ⊢
      obtain ⟨hS, hV, -⟩ := hown hl
      simpa only [hS] using hV
    · exact hother u hu hl
  · have hstep : ∀ u₁ u₂, u₁ = t → u₂ ≠ t → (C'.sys.ctx u₁).Live → (C'.sys.ctx u₂).Live →
        ∀ l l', ∀ x ∈ (C'.sys.threads u₁).storage.indexAdd l,
          x ∉ (C'.sys.threads u₂).storage.indexAdd l' := by
      rintro u₁ u₂ rfl hu₂ hl₁ hl₂ l l' x hx₁ hx₂
      rw [hframe.threads u₂ hu₂] at hx₂
      have hst : (C'.sys.threads u₁).storage = c'.storage := by rw [hc', Sys.put_threads_self]
      rw [hst] at hx₁
      rw [hctx] at hl₁
      rcases (hown hl₁).2.2 l x hx₁ with rfl | ⟨hx, hl⟩
      · exact ((h.sane u₂).indexAdd l' _ hx₂).ne rfl
      · exact h.apart u₁ u₂ hu₂.symm hl (hlive u₂ hu₂ hl₂) l l' x hx hx₂
    by_cases hu₁ : u₁ = t
    · exact hstep u₁ u₂ hu₁ (fun he => hne (hu₁.trans he.symm)) hl₁ hl₂ l l' x hx₁ hx₂
    · by_cases hu₂ : u₂ = t
      · exact hstep u₂ u₁ hu₂ hu₁ hl₂ hl₁ l' l x hx₂ hx₁
      · rw [hframe.threads u₁ hu₁] at hx₁
        rw [hframe.threads u₂ hu₂] at hx₂
        exact h.apart u₁ u₂ hne (hlive u₁ hu₁ hl₁) (hlive u₂ hu₂ hl₂) l l' x hx₁ hx₂

/-- The step of the invariant. -/
theorem Inv.step (h : Inv C S) (hG : Safe C t op) (hst : C.Step t op ret C') :
    ∃ c' D F W, C'.sys = C.sys.put t c' ∧ Act S (C.sys.ctx t) op ret c' ∧
      Change S (C.sys.ctx t) c' op D F W ∧ (∀ u, u ≠ t → (C'.sys.ctx u).Live → (C.sys.ctx u).Live) ∧
      Inv C' fun l => patched (S l) (D l) (F l) := by
  obtain ⟨c', hc', hact, hframe, hhist⟩ := h.step_act hst
  obtain ⟨D, F, W, h'⟩ := h.acted hG hc' hact hframe hhist
  exact ⟨c', D, F, W, hc', hact, h'⟩

end Runs

end TxList
