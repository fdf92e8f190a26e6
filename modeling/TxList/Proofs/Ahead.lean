import TxList.Proofs.Behind
import TxList.Proofs.Pending

/-!
# Acts on the memory ahead

What transactions do on the memory ahead of the write-backs under way: the acts of whole calls, with a
transaction's read set cut down to the nodes it writes to. A commit takes effect there at once, and its
index is any that holds the nodes of the lists.
-/

namespace TxList

open Prog Chain

variable {K V : Type} {m : Nat}

/-! ## Read sets cut down -/

/-- Only the nodes it writes to count as read. -/
def LocalStorage.trimmed (ls : LocalStorage V m) : LocalStorage V m :=
  { ls with readSet := ls.writeSet.keys.toFinset }

namespace LocalStorage

variable {ls : LocalStorage V m} {mem : NodeId → LNode K V}

theorem mem_readSet_trimmed {n : NodeId} : n ∈ ls.trimmed.readSet ↔ n ∈ ls.writeSet := by
  rw [trimmed, List.mem_toFinset, AList.mem_keys]

theorem trimmed_eq {ls' : LocalStorage V m} (hw : ls'.writeSet = ls.writeSet)
    (hr : ∀ n, n ∈ ls'.readSet ↔ n ∈ ls.writeSet) (ha : ls'.indexAdd = ls.indexAdd)
    (hd : ls'.indexRemove = ls.indexRemove) : ls' = ls.trimmed := by
  obtain ⟨w, r, a, d⟩ := ls'
  simp only at hw ha hd
  subst hw ha hd
  congr 1
  ext n
  rw [hr n, List.mem_toFinset, AList.mem_keys]

theorem trimmed_overwrite (x : NodeId) (val : V) :
    ls.trimmed.overwrite mem x val = (ls.overwrite mem x val).trimmed := by
  refine trimmed_eq rfl (fun n => ?_) rfl rfl
  rw [mem_overwrite]
  exact Finset.mem_insert.trans (or_congr_right mem_readSet_trimmed)

theorem trimmed_insertAfter (l : ListId m) (p n : NodeId) :
    ls.trimmed.insertAfter mem l p n = (ls.insertAfter mem l p n).trimmed := by
  refine trimmed_eq rfl (fun k => ?_) rfl rfl
  rw [mem_insertAfter]
  exact Finset.mem_insert.trans (or_congr_right mem_readSet_trimmed)

theorem trimmed_unlink (l : ListId m) (p x : NodeId) (o : Option NodeId) :
    ls.trimmed.unlink mem l p x o = (ls.unlink mem l p x o).trimmed := by
  refine trimmed_eq rfl (fun k => ?_) rfl rfl
  rw [mem_unlink]
  refine Finset.mem_insert.trans (or_congr_right (Finset.mem_insert.trans (or_congr_right ?_)))
  exact mem_readSet_trimmed

theorem trimmed_isEmpty (h : ls.IsEmpty) : ls.trimmed.IsEmpty := by
  refine ⟨h.1, ?_, h.2.2⟩
  show ls.writeSet.keys.toFinset = ∅
  rw [h.1]
  rfl

end LocalStorage

/-! ## An index for the nodes of a list -/

namespace Index

variable [LinearOrder K] {v : NodeView K} {rank : NodeId → WithBot K} {hn : NodeId}

/-- Some index holds the nodes, if they are live and of different keys. -/
theorem exists_indexed (hbot : rank hn = ⊥) (hhn : v.live hn = true) (A : Finset NodeId) :
    (∀ a ∈ A, rank a = v.key a ∧ v.live a = true) → (∀ a ∈ A, ∀ b ∈ A, rank a = rank b → a = b) →
    ∃ ix, Indexed v rank hn ix A ∧ ∀ i, (ix.nodes i).node ∈ insert hn A := by
  induction A using Finset.induction_on with
  | empty => exact fun _ _ => ⟨Index.new hn, indexed_new, fun i => Finset.mem_insert_self _ _⟩
  | insert n A hn' ih =>
    intro hA hinj
    have hsub : A ⊆ insert n A := Finset.subset_insert _ _
    obtain ⟨ix, hix, hnodes⟩ := ih (fun a ha => hA a (hsub ha))
      fun a ha b hb => hinj a (hsub ha) b (hsub hb)
    obtain ⟨hspec, N, hN⟩ := add_spec (n := n) hix hbot hhn (hA n (Finset.mem_insert_self _ _)).1
      (fun a ha _ he => hn' (hinj a (hsub ha) n (Finset.mem_insert_self _ _) he ▸ ha)) 0
    obtain ⟨ix', hix'⟩ := Option.isSome_iff_exists.1 (hN N le_rfl)
    obtain ⟨A', hA', hdrop⟩ := hspec N ix' hix'
    rw [hdrop.eq fun a ha => (hA a (hsub ha)).2] at hA'
    refine ⟨ix', hA', fun i => ?_⟩
    rcases nodes_add hix' i with ⟨j, hj⟩ | hi
    · rw [hj]
      exact Finset.insert_subset_insert _ hsub (hnodes j)
    · rw [hi]
      exact Finset.mem_insert_of_mem (Finset.mem_insert_self _ _)

end Index

/-! ## Acts -/

variable [LinearOrder K]

section Acts

variable {C C' : Conf K V m} {S S' : ListId m → Finset NodeId} {t : ThreadId} {op : Op K V m} {ret : Ret V}
  {c' : Ctx K V m}

/-- The configuration after an act. -/
def Conf.act (C : Conf K V m) (t : ThreadId) (op : Op K V m) (ret : Ret V) (c' : Ctx K V m) : Conf K V m :=
  ⟨C.sys.put t c', C.hist.step t (C.inTX t) op ret⟩

/-- What an act of thread `t` leaves: sorted lists, marks only more and no singleton's, and the other
threads alone. -/
structure Acted (C : Conf K V m) (S : ListId m → Finset NodeId) (t : ThreadId) (C' : Conf K V m)
    (S' : ListId m → Finset NodeId) : Prop where
  serial : Serial C' S'
  unmarked : ∀ n, (C'.sys.shared.mem n).word.singleton = false
  grows : Grows (fun _ _ => False) C.sys.shared C'.sys.shared
  placed : ∀ {l n}, Placed C.sys.shared S l n → Placed C'.sys.shared S' l n
  threads : ∀ u, u ≠ t → C'.sys.threads u = C.sys.threads u
  current : ∀ u, u ≠ t → C'.hist.current u = C.hist.current u

theorem Acted.refl (h : Serial C S) (hu : ∀ n, (C.sys.shared.mem n).word.singleton = false) :
    Acted C S t C S :=
  ⟨h, hu, .refl _, id, fun _ _ => rfl, fun _ _ => rfl⟩

/-- What such an act leaves in an open transaction: it is live after a call on a list only if it was
before. -/
def Accessed (C : Conf K V m) (S : ListId m → Finset NodeId) (t : ThreadId) (op : Op K V m) (ret : Ret V)
    (c' : Ctx K V m) : Prop :=
  (∃ S', Acted C S t (C.act t op ret c') S') ∧ (c'.Live → (C.sys.ctx t).Live)

theorem Placed.mutate {s s' : Shared K V m} {D F : ListId m → Finset NodeId} {W : Set NodeId}
    {l : ListId m} {n : NodeId} (h : Placed s S l n) (hM : Mutates s s' S D F W) (hL : Lists s S) :
    Placed s' (fun l => patched (S l) (D l) (F l)) l n := by
  rcases h with h | ⟨hm, hd⟩
  · rcases Finset.mem_insert.1 h with rfl | h
    · exact .inl (Finset.mem_insert_self _ _)
    · by_cases hD : n ∈ D l
      · exact .inr ⟨(hL.bound l n h).1, (hL.bound l n h).2.trans_le hM.fresh, hM.dead l n hD⟩
      · exact .inl (Finset.mem_insert_of_mem (mem_patched.2 (.inl ⟨h, hD⟩)))
  · exact .inr ⟨hm, hM.dead_of_dead hd⟩

section Act

variable (h : Serial C S) (hu : ∀ n, (C.sys.shared.mem n).word.singleton = false)

include h hu

theorem Serial.act (hT : op.isAccess = true → C.inTX t = true)
    (hstart : op = .txBegin → (C.sys.threads t).storage.IsEmpty) (hact : Act S (C.sys.ctx t) op ret c')
    (hf : Framed op (fun _ _ => False) (C.sys.ctx t) c')
    (hv : op = .txEnd → ret ≠ .aborted → (C.sys.ctx t).Live) :
    ∃ S', Acted C S t (C.act t op ret c') S' := by
  have hsafe : Safe C t op := by
    refine ⟨hstart, ?_, ?_⟩
    · rintro l key val rfl hF
      simp [hT rfl] at hF
    · rintro rfl _ n _ _ hs
      rw [hu n] at hs
      simp at hs
  have hfr : Framed op (fun n rv => ret = .aborted ∧ op = .txEnd ∧ Clears (C.sys.ctx t) n rv)
      (C.sys.ctx t) c' := ⟨hf.sane, hf.grows.weaken, hf.access⟩
  obtain ⟨D, F, W, hC, hS⟩ := h.acted hsafe hT (rfl : (C.act t op ret c').sys = _) hact
    (hfr.step h.inv.sane hv) rfl
  exact ⟨_, hS, hact.unmarked hT hu, hf.grows, fun hp => hp.mutate hC.mutates h.inv.lists,
    fun u hne => Sys.put_threads_ne _ _ hne, fun u hne => Hist.step_current_ne _ hne⟩

/-- A call on a list in an open transaction. -/
theorem Serial.act_access (hop : op.isAccess = true) (hT : C.inTX t = true)
    (hact : Act S (C.sys.ctx t) op ret c') (hon : Onward (C.sys.ctx t) c') : Accessed C S t op ret c' := by
  refine ⟨h.act hu (fun _ => hT) (by rintro rfl; simp [Op.isAccess] at hop) hact hon.framed
    (by rintro rfl; simp [Op.isAccess] at hop), fun hl => ⟨hT, fun n hn hm => ?_⟩⟩
  have hs := h.inv.sane t
  refine hl.2 n (hon.readSet hn) ?_
  rw [hon.readVersion]
  exact hon.grows.marked n (hs.readSet n hn) _ hs.readVersion (fun h => h) hm

theorem Serial.act_begin (he : (C.sys.threads t).storage.IsEmpty) :
    ∃ S', Acted C S t (C.act t .txBegin .unit { C.sys.ctx t with transaction :=
      { (C.sys.ctx t).transaction with TX := true, readVersion := C.sys.shared.gvc } }) S' := by
  have hs := h.inv.sane t
  refine h.act hu (by simp [Op.isAccess]) (fun _ => he) .opened ?_ (by simp)
  exact ⟨⟨hs.heads, hs.next, hs.index, hs.version, hs.unlocked, le_rfl, hs.readSet, hs.write_read,
    hs.write_next, hs.indexAdd⟩, .refl _, by simp [Op.isAccess]⟩

theorem Serial.act_handle (r : List NodeId) : ∃ S', Acted C S t (C.act t .handleAbort .unit
    ({ C.sys.ctx t with shared := { C.sys.shared with retired := r } } : Ctx K V m).cleaned) S' := by
  have ho := (Onward.refl (h.inv.sane t)).retire r
  exact h.act hu (by simp [Op.isAccess]) (by simp) (.handled r) (.cleaned rfl ho.sane ho.grows) (by simp)

theorem Serial.act_reject :
    ∃ S', Acted C S t (C.act t .txEnd .aborted (C.sys.ctx t).cleaned) S' :=
  h.act hu (by simp [Op.isAccess]) (by simp) .rejected (.cleaned rfl (h.inv.sane t) (.refl _)) (by simp)

omit h hu in
/-- Some indexes hold the nodes that a commit leaves on the lists. -/
theorem Overlay.exists_index {c : Ctx K V m} (hO : Overlay c.shared S c.storage)
    (hL : Lists c.shared S) : ∃ ix : ListId m → Index,
      (∀ l, Index.Indexed c.written.shared.view c.written.shared.rank (head l) (ix l) (c.storage.seen S l)) ∧
        ∀ l i, ((ix l).nodes i).node ∈ insert (head l) (c.storage.seen S l) := by
  have hix : ∀ l, ∃ ix, Index.Indexed c.written.shared.view c.written.shared.rank (head l) ix
      (c.storage.seen S l) ∧ ∀ i, (ix.nodes i).node ∈ insert (head l) (c.storage.seen S l) := by
    intro l
    refine Index.exists_indexed (c.written.shared.rank_head l) (hO.written_head_live l) _ (fun a ha => ?_)
      fun a ha b hb he => ?_
    · obtain ⟨hor, hd⟩ := LocalStorage.mem_seen.1 ha
      refine ⟨Shared.rank_of_le _ (hO.le_of_seen hL ha), ?_⟩
      show (c.written.shared.mem a).val.isSome = true
      rw [hO.written_live hor, hd]
      rfl
    · refine (hO.threads l).inj a ha b hb ?_
      exact commit_rank.symm.trans (he.trans commit_rank)
  choose ix hix hnodes using hix
  exact ⟨ix, hix, hnodes⟩

omit h hu in
/-- A node that was to be added is on its list after the commit, or gone from it. -/
theorem Overlay.placed_added {c : Ctx K V m} (hO : Overlay c.shared S c.storage) (ix : ListId m → Index)
    {l : ListId m} {n : NodeId} (hn : n ∈ c.storage.indexAdd l) :
    Placed { c.written.shared with index := ix } (c.storage.seen S) l n := by
  rcases hd : c.storage.deletes n with _ | _
  · exact .inl (Finset.mem_insert_of_mem (LocalStorage.mem_seen.2 ⟨.inr hn, hd⟩))
  · obtain ⟨hm, hlt, -⟩ := hO.new l n hn
    refine .inr ⟨hm, hlt, ?_, ?_⟩
    · show (c.written.shared.mem n).isDeleted = true
      rw [Ctx.written, commit_isDeleted, hd]
      rfl
    · show (c.written.shared.mem n).val = none
      rw [Ctx.written, commit_val, hd]
      rfl

/-- A commit, and what is then on the lists of the nodes that were to be added. -/
theorem Serial.act_commit (hl : (C.sys.ctx t).Live)
    (hro : (C.sys.threads t).transaction.readOnly = false) :
    ∃ ix S', Acted C S t (C.act t .txEnd (.bool true) ({ (C.sys.ctx t).written with shared :=
        { (C.sys.ctx t).written.shared with index := ix } } : Ctx K V m).cleaned) S' ∧
      ∀ l, ∀ n ∈ (C.sys.threads t).storage.indexAdd l, Placed
        { (C.sys.ctx t).written.shared with index := ix } S' l n := by
  set c := C.sys.ctx t with hc
  have hL := h.inv.lists
  have hs := h.inv.sane t
  have hO : Overlay c.shared S c.storage := (h.inv.viewed t hl).overlay
  obtain ⟨ix, hix, hnodes⟩ := hO.exists_index hL
  set c' : Ctx K V m := { c.written with shared := { c.written.shared with index := ix } } with hc'
  have hup : c.written.Updated c' := ⟨rfl, rfl, rfl, rfl, rfl⟩
  have hheld : ∀ l, Held c' l (c.storage.seen S l) := fun l =>
    ⟨_, hix l, Finset.Subset.refl _, fun a ha _ => ha⟩
  have hM := hO.commit_mutates hL hup hheld
  have hon := commit_onward hs
  have hlt : ∀ l, ∀ n ∈ insert (head l) (c.storage.seen S l), n < c.shared.fresh := by
    intro l n hn
    rcases Finset.mem_insert.1 hn with rfl | hn
    · exact l.isLt.trans_le hs.heads
    · rcases (LocalStorage.mem_seen.1 hn).1 with hn | hn
      · exact (hL.bound l n hn).2
      · exact (hO.new l n hn).2.1
  have hsane : Sane c' := ⟨hon.sane.heads, hon.sane.next, fun l i => hlt l _ (hnodes l i),
    hon.sane.version, hon.sane.unlocked, hon.sane.readVersion, hon.sane.readSet, hon.sane.write_read,
    hon.sane.write_next, hon.sane.indexAdd⟩
  have hgrows : Grows (fun _ _ => False) c.shared c'.shared :=
    ⟨hon.grows.gvc, hon.grows.fresh, hon.grows.key, hon.grows.version, hon.grows.marked⟩
  have hact : Act S c .txEnd (.bool true) c'.cleaned := .committed hl hro hup hM
  obtain ⟨S', hA⟩ := h.act hu (by simp [Op.isAccess]) (by simp) hact (.cleaned rfl hsane hgrows)
    (fun _ _ => hl)
  refine ⟨ix, S', hA, fun l n hn => ?_⟩
  have hS : S' = c.storage.seen S := (hO.lists_written hL hup hheld).unique hA.serial.inv.lists
  rw [hS]
  exact hO.placed_added ix hn

section Access

variable (hT : C.inTX t = true) {l : ListId m} {key : K} {val : V} {p x : NodeId}

omit hu in
/-- What comes after a node as the transaction sees it. -/
theorem Serial.nextOf_lt {n y : NodeId}
    (hy : (C.sys.threads t).storage.nextOf C.sys.shared.mem n = some y) : y < C.sys.shared.fresh := by
  have hs := h.inv.sane t
  unfold LocalStorage.nextOf at hy
  split at hy
  · rename_i we hw
    exact hs.write_next n we y hw hy
  · exact hs.next n y hy

include hT

theorem Serial.act_overwrite (hx : x < C.sys.shared.fresh) (hfind : (C.sys.ctx t).Live →
      x ∈ (C.sys.threads t).storage.seen S l ∧ C.sys.shared.rank x = key) :
    Accessed C S t (.put l key val) (.val (C.sys.shared.mem x).val) { (C.sys.ctx t).writing with
      storage := (C.sys.threads t).storage.overwrite C.sys.shared.mem x val } := by
  refine h.act_access hu rfl hT ?_ ?_
  · by_cases hl : (C.sys.ctx t).Live
    · exact .overwrote hl (hfind hl).1 (hfind hl).2
    · exact .strayed rfl hT hl ⟨.refl _, rfl⟩
  · exact ((Onward.refl (h.inv.sane t)).readOnly false).write hx (fun y hy => h.nextOf_lt hy) (some val) _

theorem Serial.act_insert (hp : p < C.sys.shared.fresh) {y : LNode K V}
    (hy : y = { key := key, val := some val, next := (C.sys.threads t).storage.nextOf C.sys.shared.mem p })
    (hfind : (C.sys.ctx t).Live →
      IsPrev C.sys.shared.rank ((C.sys.threads t).storage.seen S l) (head l) key p ∧
        ∀ n ∈ (C.sys.threads t).storage.seen S l, C.sys.shared.rank n ≠ key) :
    Accessed C S t (.put l key val) (.val none) { (C.sys.ctx t).writing with
      shared := C.sys.shared.alloc y
      storage :=
        (C.sys.threads t).storage.insertAfter (C.sys.shared.alloc y).mem l p C.sys.shared.fresh } := by
  refine h.act_access hu rfl hT ?_ ?_
  · by_cases hl : (C.sys.ctx t).Live
    · exact .inserted hl (hfind hl).1 (hfind hl).2 hy
    · exact .strayed rfl hT hl ⟨.alloc _ (by rw [hy]), rfl⟩
  · subst hy
    have h₁ := ((Onward.refl (h.inv.sane t)).readOnly false).alloc
      (x := { key := key, val := some val, next := (C.sys.threads t).storage.nextOf C.sys.shared.mem p })
      (fun y hy => h.nextOf_lt hy) (Nat.zero_le _) rfl
    exact (h₁.addToIndexAdd (Nat.lt_succ_self _) l).write (n := p) (hp.trans (Nat.lt_succ_self _))
      (fun y hy => Option.some.inj hy ▸ Nat.lt_succ_self _) _ _

theorem Serial.act_unlink (hp : p < C.sys.shared.fresh) (hx : x < C.sys.shared.fresh)
    (hfind : (C.sys.ctx t).Live → x ∈ (C.sys.threads t).storage.seen S l ∧ C.sys.shared.rank x = key ∧
      IsPrev C.sys.shared.rank ((C.sys.threads t).storage.seen S l) (head l) key p) :
    Accessed C S t (.remove l key) (.val ((C.sys.threads t).storage.valOf C.sys.shared.mem x))
      { (C.sys.ctx t).writing with
        storage := (C.sys.threads t).storage.unlink C.sys.shared.mem l p x
          ((C.sys.threads t).storage.nextOf C.sys.shared.mem x) } := by
  refine h.act_access hu rfl hT ?_ ?_
  · by_cases hl : (C.sys.ctx t).Live
    · exact .unlinked hl (hfind hl).1 (hfind hl).2.1 (hfind hl).2.2
    · exact .strayed rfl hT hl ⟨.refl _, rfl⟩
  · have h₁ := ((Onward.refl (h.inv.sane t)).readOnly false).write hp
      (fun y (hy : (C.sys.threads t).storage.nextOf C.sys.shared.mem x = some y) => h.nextOf_lt hy)
      ((C.sys.threads t).storage.valOf C.sys.shared.mem p) false
    have h₂ := h₁.write hx (fun y (hy : none = some y) => by simp at hy)
      (((C.sys.threads t).storage.relink C.sys.shared.mem p
        ((C.sys.threads t).storage.nextOf C.sys.shared.mem x)).valOf C.sys.shared.mem x) true
    exact h₂.setStorage (fun _ h => h) h₂.sane.readSet h₂.sane.write_read h₂.sane.write_next
      h₂.sane.indexAdd

end Access

/-- A transaction becomes one that writes. -/
theorem Serial.act_writing : Acted C S t ⟨C.sys.put t (C.sys.ctx t).writing, C.hist⟩ S := by
  have hctx : ∀ u, (C.sys.put t (C.sys.ctx t).writing).ctx u = C.sys.ctx u ∨
      (C.sys.put t (C.sys.ctx t).writing).ctx u = (C.sys.ctx u).writing := by
    intro u
    by_cases hut : u = t
    · subst hut
      exact .inr (Sys.ctx_put_self _ _ _)
    · exact .inl (Sys.ctx_put_ne _ _ hut)
  have hlive : ∀ u, ((C.sys.put t (C.sys.ctx t).writing).ctx u).Live → (C.sys.ctx u).Live := by
    intro u hl
    rcases hctx u with hc | hc <;> rw [hc] at hl <;> exact hl
  refine ⟨⟨⟨fun u => ?_, h.inv.lists, fun u hl => ?_, fun u v hne hl hl' => ?_⟩, h.lookup, h.replayed,
    h.sound, fun u hl => ?_⟩, hu, .refl _, id, fun u hne => Sys.put_threads_ne _ _ hne, fun _ _ => rfl⟩
  · have hs := h.inv.sane u
    rcases hctx u with hc | hc <;> simp only [hc]
    · exact hs
    · exact ⟨hs.heads, hs.next, hs.index, hs.version, hs.unlocked, hs.readVersion, hs.readSet,
        hs.write_read, hs.write_next, hs.indexAdd⟩
  · have hV := h.inv.viewed u (hlive u hl)
    rcases hctx u with hc | hc <;> simp only [hc]
    · exact hV
    · exact ⟨hV.overlay, fun hr => by simp [Ctx.writing] at hr, hV.untouched⟩
  · have hA := h.inv.apart u v hne (hlive u hl) (hlive v hl')
    have hstore : ∀ u, ((C.sys.put t (C.sys.ctx t).writing).threads u).storage =
        (C.sys.threads u).storage := fun u =>
      (hctx u).elim (congrArg Ctx.storage ·) (congrArg Ctx.storage ·)
    rwa [hstore u, hstore v]
  · have hA := h.accounts u (hlive u hl)
    rcases hctx u with hc | hc <;> simp only [hc]
    · exact hA
    · exact ⟨hA.view, hA.guarded, hA.covered, hA.sound⟩

end Act

end Acts

end TxList
