import TxList.Proofs.Tracks

/-!
# Calls, ahead

A call in a transaction does the same ahead, since what it finds is what it would find there: that is
what `PutsUnlocked` is for, where `put` takes over the `m_next` of a node it has not looked at.
-/

namespace TxList

open Prog Chain

variable {K V : Type} {m : Nat}

/-- What a call does to the shared memory: it searches the indexes, and may allocate. -/
structure Shared.Allocates (s s' : Shared K V m) : Prop where
  gvc : s'.gvc = s.gvc
  fresh : s.fresh ≤ s'.fresh
  mem : ∀ n < s.fresh, s'.mem n = s.mem n
  version : ∀ n, (s'.mem n).word.version ≤ (s.mem n).word.version
  same : ∀ l, (s.index l).SameNodes (s'.index l)

theorem Shared.Searched.allocates {s s' : Shared K V m} (h : s.Searched s') : s.Allocates s' :=
  ⟨h.gvc, h.fresh.ge, fun n _ => by rw [h.mem], fun n => by rw [h.mem], h.same⟩

theorem Shared.Allocates.alloc {s s' : Shared K V m} (h : s.Searched s') {x : LNode K V}
    (hx : x.word.version = 0) : s.Allocates (s'.alloc x) := by
  refine ⟨h.gvc, h.fresh.ge.trans (Nat.le_succ _), fun n hn => ?_, fun n => ?_, h.same⟩
  · rw [Shared.alloc_mem, h.fresh, Function.update_of_ne hn.ne, h.mem]
  · rw [Shared.alloc_mem]
    by_cases hn : n = s'.fresh
    · rw [hn, Function.update_self, hx]
      exact Nat.zero_le _
    · rw [Function.update_of_ne hn, h.mem]

namespace LocalStorage

variable {ls : LocalStorage V m} {mem mem' : NodeId → LNode K V} {l : ListId m} {n p x : NodeId}

theorem overwrite_congr (val : V) (h : x ∉ ls.writeSet → mem x = mem' x) :
    ls.overwrite mem x val = ls.overwrite mem' x val := by
  rw [overwrite, overwrite, nextOf_congr fun hx => by rw [h hx]]

theorem insertAfter_congr (h : p ∉ ls.writeSet → mem p = mem' p) :
    ls.insertAfter mem l p n = ls.insertAfter mem' l p n := by
  rw [insertAfter, insertAfter, valOf_congr fun hp => by rw [h hp]]

theorem unlink_congr (o : Option NodeId) (hp : p ∉ ls.writeSet → mem p = mem' p)
    (hx : x ∉ ls.writeSet → mem x = mem' x) : ls.unlink mem l p x o = ls.unlink mem' l p x o := by
  have hrelink : ls.relink mem p o = ls.relink mem' p o := by
    rw [relink, relink, valOf_congr fun h => by rw [hp h]]
  have hval : (ls.relink mem' p o).valOf mem x = (ls.relink mem' p o).valOf mem' x := by
    refine valOf_congr fun hno => ?_
    rw [hx fun h => hno ((AList.mem_insert _).2 (.inr h))]
  rw [unlink, unlink, hrelink, hval]

theorem write_read_overwrite {val : V} (h : ∀ k ∈ ls.writeSet, k ∈ ls.readSet) :
    ∀ k ∈ (ls.overwrite mem x val).writeSet, k ∈ (ls.overwrite mem x val).readSet := fun k hk =>
  Finset.mem_insert.2 ((mem_overwrite.1 hk).imp_right (h k))

theorem write_read_insertAfter (h : ∀ k ∈ ls.writeSet, k ∈ ls.readSet) :
    ∀ k ∈ (ls.insertAfter mem l p n).writeSet, k ∈ (ls.insertAfter mem l p n).readSet := fun k hk =>
  Finset.mem_insert.2 ((mem_insertAfter.1 hk).imp_right (h k))

theorem write_read_unlink {o : Option NodeId} (h : ∀ k ∈ ls.writeSet, k ∈ ls.readSet) :
    ∀ k ∈ (ls.unlink mem l p x o).writeSet, k ∈ (ls.unlink mem l p x o).readSet := fun k hk =>
  Finset.mem_insert.2 ((mem_unlink.1 hk).imp_right fun hk => Finset.mem_insert.2 (hk.imp_right (h k)))

end LocalStorage

variable [LinearOrder K]

/-- A transaction sees as much through its write set whatever it has read. -/
theorem Overlay.of_trimmed {w : Shared K V m} {S : ListId m → Finset NodeId} {ls : LocalStorage V m}
    (h : Overlay w S ls.trimmed) : Overlay w S ls :=
  ⟨h.patch, h.threads, h.val, h.head_kept, h.remove, h.order, h.dead, h.new, h.apart, h.writes⟩

section Calls

variable {P : Watched K V m} {C C' : Conf K V m} {S S' : ListId m → Finset NodeId} {t : ThreadId}
  {op : Op K V m} {ret : Ret V} {c' : Ctx K V m}

/-- The updates of the open transaction after a call. -/
def Watched.updatesAfter (P : Watched K V m) (t : ThreadId) (op : Op K V m) (ret : Ret V) :
    List (Update K V m) :=
  (P.called t op ret P.sys).updates t

/-- A thread ahead after a call of its own. -/
theorem Twin.called (hrest : (P.ending t).resting = true)
    (hlike : ret.isAborted = false →
      (⟨c'.storage.trimmed, c'.transaction⟩ : Local V m).Like (C'.sys.threads t))
    (hup : (C'.sys.ctx t).Live →
      ∀ M : Maps K V m, M.replay (C'.hist.current t) = M.update (P.updatesAfter t op ret))
    (htidy : ret.isAborted = false → c'.transaction.TX = false → c'.storage.IsEmpty)
    (hreads : ret.isAborted = false → ∀ n ∈ c'.storage.writeSet, n ∈ c'.storage.readSet) :
    Twin (P.called t op ret (P.sys.put t c')) C' S' t := by
  obtain ⟨b, hb⟩ := Ending.eq_done_of_resting hrest
  have hend : (P.called t op ret (P.sys.put t c')).ending t = .done b := hb
  have hth : (P.called t op ret (P.sys.put t c')).sys.threads t = ⟨c'.storage, c'.transaction⟩ :=
    Function.update_self ..
  have hthr : (P.called t op ret (P.sys.put t c')).thrown t = ret.isAborted := Function.update_self ..
  refine ⟨fun hf => ?_, hup, fun n hn => ?_, fun hf hT => ?_, fun hf => ?_, ?_, fun l n hn => ?_,
    fun _ => hrest⟩
  · rw [hth, hend]
    exact hlike (hthr ▸ hf)
  · rw [hend] at hn
    exact absurd hn List.not_mem_nil
  · rw [hth] at hT ⊢
    exact htidy (hthr ▸ hf) hT
  · rw [hth]
    exact hreads (hthr ▸ hf)
  · rw [hend]
    trivial
  · rw [hend] at hn
    exact absurd hn List.not_mem_nil

theorem Tracks.called (h : Tracks P C S) (hA : Acted C S t C' S') (hs : P.sys.shared.Allocates c'.shared)
    (hc : Completes c'.shared P.ending C'.sys.shared) (hcom : C'.hist.committed = C.hist.committed)
    (ht : Twin (P.called t op ret (P.sys.put t c')) C' S' t) :
    Tracks (P.called t op ret (P.sys.put t c')) C' S' := by
  have hheld : ∀ u, ∀ n ∈ (P.ending u).held, c'.shared.mem n = P.sys.shared.mem n := fun u n hn =>
    hs.mem n ((h.twin u).held n hn)
  refine h.move hA (fun u hu => ?_) hs.fresh (fun u _ n hn => ?_) hc ?_ (fun l => ?_) (fun l i => ?_) ?_ ht
  · simp [Watched.called, Sys.put, hu]
  · show (c'.shared.mem n).word.version = _
    rw [hheld u n hn]
  · exact h.orderly.congr hs.gvc.ge (fun u n hn => by rw [← hheld u n hn]; rfl) hs.version
  · exact (h.rooted l).of_same (hs.same l)
  · have hp := hA.placed (h.placed l i)
    rwa [← (hs.same l).node] at hp
  · rw [hcom]
    exact h.committed

/-! ### Calls that throw, and calls on the lists -/

omit [LinearOrder K] in
theorem Watched.updatesAfter_access (hop : op.isAccess = true) :
    P.updatesAfter t op ret = P.updates t ++ op.updates ret := by
  cases op <;> simp [Op.isAccess, Watched.updatesAfter, Watched.called] at hop ⊢

omit [LinearOrder K] in
theorem Op.updates_aborted : op.updates (.aborted : Ret V) = [] := by
  cases op <;> rfl

/-- A call on a list that throws changes nothing ahead. -/
theorem Tracks.threw (h : Tracks P C S) (hrest : (P.ending t).resting = true) (hop : op.isAccess = true)
    (hs : P.sys.shared.Searched c'.shared) :
    Tracks (P.called t op .aborted (P.sys.put t c')) C S := by
  refine h.called (.refl h.serial h.unmarked) hs.allocates ?_ rfl (.called hrest ?_ ?_ ?_ ?_)
  · exact h.completes.congr (fun _ => rfl) hs.gvc hs.fresh fun n => by rw [hs.mem]
  · simp [Ret.isAborted]
  · rw [Watched.updatesAfter_access hop, Op.updates_aborted, List.append_nil]
    exact (h.twin t).updates
  · simp [Ret.isAborted]
  · simp [Ret.isAborted]

/-- A call on a list in the open transaction that does the same ahead. -/
theorem Tracks.accessed {ret₁ : Ret V} {c₁ : Ctx K V m} {r : Rec K V m} (h : Tracks P C S)
    (hrest : (P.ending t).resting = true) (hop : op.isAccess = true) (hT : C.inTX t = true)
    (hA : Accessed C S t op ret₁ c₁) (hr : Rec.of? op ret₁ = some r)
    (hus : (C.sys.ctx t).Live → ∀ M : Maps K V m, M.apply r = M.update (op.updates ret))
    (hs : P.sys.shared.Allocates c'.shared) (hc : Completes c'.shared P.ending c₁.shared)
    (hlike : (⟨c'.storage.trimmed, c'.transaction⟩ : Local V m).Like ⟨c₁.storage, c₁.transaction⟩)
    (hTX : c'.transaction.TX = true) (hreads : ∀ n ∈ c'.storage.writeSet, n ∈ c'.storage.readSet) :
    ∃ C' S', Tracks (P.called t op ret (P.sys.put t c')) C' S' := by
  obtain ⟨⟨S', hA⟩, hback⟩ := hA
  refine ⟨_, S', h.called hA hs hc ?_ (.called hrest (fun _ => ?_) (fun hl M => ?_) ?_ fun _ => hreads)⟩
  · exact Hist.step_committed _ (by rintro rfl; simp [Op.isAccess] at hop)
  · rwa [Conf.act, Sys.put_threads_self]
  · have hl : (C.sys.ctx t).Live := hback (by rwa [Conf.act, Sys.ctx_put_self] at hl)
    rw [Conf.act, hT, Hist.step_current _ hop hr, Maps.replay_append, (h.twin t).updates hl,
      Watched.updatesAfter_access hop, Maps.update_append]
    exact hus hl _
  · simp [hTX]

/-! ### In a transaction -/

/-- The thread's state after the call, ahead. -/
def Watched.Follows (P : Watched K V m) (t : ThreadId) (op : Op K V m) (ret : Ret V) (c' : Ctx K V m) :
    Prop :=
  ∃ C' S', Tracks (P.called t op ret (P.sys.put t c')) C' S'

section InTransaction

variable {fuel : Nat} {l : ListId m} {key : K} {val : V}
  (h : Tracks P C S) (hrest : (P.ending t).resting = true) (hthr : P.thrown t = false)

theorem Watched.putFinds_of_found {c c' : Ctx K V m} {pred x : NodeId}
    (hok : find_node fuel l key c.writing = .ok (true, pred, some x) c') :
    putFinds c fuel l key = some x := by
  unfold putFinds
  rw [show find_node fuel l key { c with transaction := _ } = _ from hok]

include h hrest hthr

/-- A thread at rest is the same ahead, but for what it has read. -/
theorem Tracks.like_of_resting :
    (⟨(P.sys.threads t).storage.trimmed, (P.sys.threads t).transaction⟩ : Local V m).Like
      (C.sys.threads t) := by
  obtain ⟨b, hb⟩ := Ending.eq_done_of_resting hrest
  have hl := (h.twin t).like hthr
  rwa [hb] at hl

theorem Tracks.next_lt {n y : NodeId}
    (hy : (P.sys.threads t).storage.nextOf C.sys.shared.mem n = some y) : y < C.sys.shared.fresh := by
  refine h.serial.nextOf_lt (t := t) (n := n) ?_
  rwa [(h.like_of_resting hrest hthr).storage]

theorem Tracks.overlay (hl : (C.sys.ctx t).Live) : Overlay C.sys.shared S (P.sys.threads t).storage := by
  have hO : Overlay C.sys.shared S (C.sys.threads t).storage := (h.serial.inv.viewed t hl).overlay
  rw [(h.like_of_resting hrest hthr).storage] at hO
  exact hO.of_trimmed

omit hthr in
theorem Tracks.thrower (hop : op.isAccess = true) {c : Ctx K V m} (hc : c.shared = P.sys.shared) :
    Behind.Thrower (P.Follows t op .aborted) c := fun _ hs => ⟨C, S, h.threw hrest hop (hc ▸ hs)⟩

/-- What is searched, ahead. -/
def Watched.Found (P : Watched K V m) (t : ThreadId) (w : Shared K V m) (S : ListId m → Finset NodeId)
    (l : ListId m) (key : K) (tx : LocalTransaction) (r : Bool × NodeId × Option NodeId)
    (c' : Ctx K V m) : Prop :=
  ∃ s', P.sys.shared.Searched s' ∧ c' = { P.sys.ctx t with shared := s', transaction := tx } ∧
    Behind.Finds w S (P.sys.ctx t) l key r

omit hrest hthr in
theorem Tracks.same_of_open {n : NodeId} (hn : Behind.Open (P.sys.ctx t) n)
    (hno : n ∉ (P.sys.threads t).storage.writeSet) : P.sys.shared.mem n = C.sys.shared.mem n :=
  h.completes.same h.orderly (hn.resolve_left hno)

theorem Tracks.find_node_found {tx : LocalTransaction} (hop : op.isAccess = true) :
    Ends (find_node fuel l key) { P.sys.ctx t with transaction := tx }
      (P.Found t C.sys.shared S l key tx) (OnAbort (P.Follows t op .aborted)) :=
  h.behind.find_node_ends (c := { P.sys.ctx t with transaction := tx }) (h.thrower hrest hop rfl)
    (fun _ _ hy => h.next_lt hrest hthr hy)
    fun _ s' hs hr => ⟨s', hs, rfl, ⟨hr.next, hr.opened, hr.bound, fun hO => ⟨rfl, (hr.view hO).2⟩⟩⟩

variable (hT : (P.sys.threads t).transaction.TX = true)

include hT

omit hthr hrest hT in
theorem Tracks.completes_searched {s' : Shared K V m} (hs : P.sys.shared.Searched s') :
    Completes s' P.ending C.sys.shared :=
  h.completes.congr (fun _ => rfl) hs.gvc hs.fresh fun n => by rw [hs.mem]

theorem Tracks.overwrite {x : NodeId} {s' : Shared K V m} (hs : P.sys.shared.Searched s')
    (hx : x ∉ (P.sys.threads t).storage.writeSet → P.sys.shared.mem x = C.sys.shared.mem x)
    (hlt : x < C.sys.shared.fresh) (hfind : (C.sys.ctx t).Live →
      x ∈ (P.sys.threads t).storage.seen S l ∧ C.sys.shared.rank x = key) :
    P.Follows t (.put l key val) (.val (s'.mem x).val) { (P.sys.ctx t).writing with
      shared := s', storage := (P.sys.threads t).storage.overwrite s'.mem x val } := by
  have hl := h.like_of_resting hrest hthr
  have hCT : C.inTX t = true := hl.TX.trans hT
  have hst := hl.storage
  refine h.accessed hrest rfl hCT
    (h.serial.act_overwrite h.unmarked hCT hlt fun hlive => ?_) rfl (fun _ _ => rfl)
    hs.allocates (h.completes_searched hs) ⟨?_, hl.TX, rfl, fun _ => hl.readVersion hT⟩ hT ?_
  · rw [hst]
    exact hfind hlive
  · show (C.sys.threads t).storage.overwrite C.sys.shared.mem x val = _
    rw [hst, LocalStorage.trimmed_overwrite, hs.mem, LocalStorage.overwrite_congr val hx]
  · exact LocalStorage.write_read_overwrite ((h.twin t).reads hthr)

theorem Tracks.insertAfter {p : NodeId} {s' : Shared K V m} (hs : P.sys.shared.Searched s')
    (hp : Behind.Open (P.sys.ctx t) p) (hlt : p < C.sys.shared.fresh) {y : LNode K V}
    (hy : y = { key := key, val := some val, next := (P.sys.threads t).storage.nextOf C.sys.shared.mem p })
    (hfind : (C.sys.ctx t).Live →
      IsPrev C.sys.shared.rank ((P.sys.threads t).storage.seen S l) (head l) key p ∧
        ∀ n ∈ (P.sys.threads t).storage.seen S l, C.sys.shared.rank n ≠ key) :
    P.Follows t (.put l key val) (.val none) { (P.sys.ctx t).writing with
      shared := s'.alloc y
      storage := (P.sys.threads t).storage.insertAfter (s'.alloc y).mem l p s'.fresh } := by
  have hl := h.like_of_resting hrest hthr
  have hCT : C.inTX t = true := hl.TX.trans hT
  have hst := hl.storage
  have hfresh : C.sys.shared.fresh = s'.fresh := h.completes.fresh.trans hs.fresh.symm
  refine h.accessed hrest rfl hCT
    (h.serial.act_insert h.unmarked hCT hlt (y := y) (by rw [hy, hst]; rfl) fun hlive => ?_) rfl
    (fun _ _ => rfl) (.alloc hs (by rw [hy])) ?_ ⟨?_, hl.TX, rfl, fun _ => hl.readVersion hT⟩ hT ?_
  · rw [hst]
    exact hfind hlive
  · refine (h.completes_searched hs).alloc _ (by rw [hy]; rfl) (fun u n hn => ?_) h.orderly.proper
    rw [hs.fresh]
    exact (h.twin u).held n hn
  · show (C.sys.threads t).storage.insertAfter _ l p C.sys.shared.fresh = _
    rw [hst, LocalStorage.trimmed_insertAfter, ← hfresh]
    refine congrArg _ (LocalStorage.insertAfter_congr fun hno => ?_)
    rw [Shared.alloc_mem, Shared.alloc_mem, ← hfresh, Function.update_of_ne hlt.ne,
      Function.update_of_ne hlt.ne, hs.mem, h.same_of_open hp hno]
  · exact LocalStorage.write_read_insertAfter ((h.twin t).reads hthr)

/-- `put` in a transaction. -/
theorem Tracks.putTX (hg : ∀ n ∈ Watched.putFinds (P.sys.ctx t) fuel l key,
      n ∉ (P.sys.threads t).storage.writeSet → (P.sys.shared.mem n).isLocked = false) :
    Ends (TxList.putTX fuel l key val) (P.sys.ctx t) (fun v => P.Follows t (.put l key val) (.val v))
      (OnAbort (P.Follows t (.put l key val) .aborted)) := by
  have hL := h.serial.inv.lists
  refine putTX_ends (R := fun r c' => find_node fuel l key (P.sys.ctx t).writing = .ok r c' ∧
      P.Found t C.sys.shared S l key (P.sys.ctx t).writing.transaction r c')
    ((Ends.result.and (h.find_node_found hrest hthr rfl)).mono (fun _ _ h => h) fun _ _ h => h.2)
    (fun pred x c' hr => ?_) fun found pred next c' hr hno => ?_
  · obtain ⟨hok, s', hs, rfl, hF⟩ := hr
    have hfinds : Watched.putFinds (P.sys.ctx t) fuel l key = some x := Watched.putFinds_of_found hok
    refine h.overwrite hrest hthr hT hs (fun hno => h.completes.same h.orderly (hg x hfinds hno))
      (h.next_lt hrest hthr hF.next.symm) fun hlive => ?_
    have hO := h.overlay hrest hthr hlive
    exact ((hF.view hO).found hL hO).2.2
  · obtain ⟨-, s', hs, rfl, hF⟩ := hr
    refine h.insertAfter hrest hthr hT hs hF.opened hF.bound (by rw [show next = _ from hF.next]; rfl)
      fun hlive => ?_
    have hO := h.overlay hrest hthr hlive
    obtain ⟨-, hp, habs, -⟩ := (hF.view hO).missing hL hO hno
    exact ⟨hp, habs⟩

theorem Tracks.unlink {p x : NodeId} {s' : Shared K V m} (hs : P.sys.shared.Searched s')
    (hp : Behind.Open (P.sys.ctx t) p) (hltp : p < C.sys.shared.fresh) (hx : Behind.Open (P.sys.ctx t) x)
    (hltx : x < C.sys.shared.fresh) (hfind : (C.sys.ctx t).Live →
      x ∈ (P.sys.threads t).storage.seen S l ∧ C.sys.shared.rank x = key ∧
        IsPrev C.sys.shared.rank ((P.sys.threads t).storage.seen S l) (head l) key p)
    {v : Option V} (hv : (C.sys.ctx t).Live → v.isSome = true) :
    P.Follows t (.remove l key) (.val v) { (P.sys.ctx t).writing with
      shared := s'
      storage := (P.sys.threads t).storage.unlink s'.mem l p x
        ((P.sys.threads t).storage.nextOf C.sys.shared.mem x) } := by
  have hl := h.like_of_resting hrest hthr
  have hCT : C.inTX t = true := hl.TX.trans hT
  have hst := hl.storage
  refine h.accessed hrest rfl hCT (h.serial.act_unlink h.unmarked hCT hltp hltx fun hlive => ?_) rfl
    (fun hlive M => ?_) hs.allocates (h.completes_searched hs)
    ⟨?_, hl.TX, rfl, fun _ => hl.readVersion hT⟩ hT ?_
  · rw [hst]
    exact hfind hlive
  · obtain ⟨v, rfl⟩ := Option.isSome_iff_exists.1 (hv hlive)
    rfl
  · show (C.sys.threads t).storage.unlink C.sys.shared.mem l p x _ = _
    rw [hst, LocalStorage.trimmed_unlink, hs.mem]
    refine congrArg _ (LocalStorage.unlink_congr _ (fun hno => ?_) fun hno => ?_).symm
    · exact h.same_of_open hp hno
    · exact h.same_of_open hx hno
  · exact LocalStorage.write_read_unlink ((h.twin t).reads hthr)

theorem Tracks.missed {p : NodeId} {s' : Shared K V m} (hs : P.sys.shared.Searched s') :
    P.Follows t (.remove l key) (.val none) { (P.sys.ctx t).writing with
      shared := s', storage := (P.sys.threads t).storage.addToReadSet p } := by
  have hl := h.like_of_resting hrest hthr
  have hst : (C.sys.threads t).storage = (P.sys.threads t).storage.trimmed := hl.storage
  refine ⟨_, S, h.called (h.serial.act_writing h.unmarked (t := t)) hs.allocates
    (h.completes_searched hs) rfl (.called hrest (fun _ => ?_) (fun hlive => ?_) ?_ fun _ k hk => ?_)⟩
  · rw [Sys.put_threads_self]
    exact ⟨hst, hl.TX, rfl, fun _ => hl.readVersion hT⟩
  · rw [Watched.updatesAfter_access rfl]
    rw [Sys.ctx_put_self] at hlive
    simpa [Op.updates] using (h.twin t).updates hlive
  · intro _ hF
    exact absurd (hT.symm.trans hF) (by simp)
  · exact Finset.mem_insert_of_mem ((h.twin t).reads hthr k hk)

/-- `remove` in a transaction. -/
theorem Tracks.removeTX :
    Ends (TxList.removeTX fuel l key) (P.sys.ctx t) (fun v => P.Follows t (.remove l key) (.val v))
      (OnAbort (P.Follows t (.remove l key) .aborted)) := by
  have hL := h.serial.inv.lists
  refine removeTX_ends (R := P.Found t C.sys.shared S l key (P.sys.ctx t).writing.transaction)
    (N := fun _ x o _ => o = (P.sys.threads t).storage.nextOf C.sys.shared.mem x ∧
      Behind.Open (P.sys.ctx t) x) (h.find_node_found hrest hthr rfl)
    (fun pred x c' hr => ?_) (fun pred x o c' hr ho => ?_) fun found pred next c' hr hno => ?_
  · obtain ⟨s', hs, rfl, hF⟩ := hr
    exact h.behind.getNext_ends (c := { (P.sys.ctx t).writing with
      storage := (P.sys.threads t).storage.addToReadSet pred }) (h.thrower hrest rfl rfl) hs
      fun hx => ⟨rfl, rfl, hx⟩
  · obtain ⟨s', hs, rfl, hF⟩ := hr
    obtain ⟨rfl, hx⟩ := ho
    refine h.unlink hrest hthr hT hs hF.opened hF.bound hx (h.next_lt hrest hthr hF.next.symm)
      (fun hlive => ?_) fun hlive => ?_
    all_goals have hO := h.overlay hrest hthr hlive
    all_goals obtain ⟨-, hp, hxS, hk⟩ := (hF.view hO).found hL hO
    · exact ⟨hxS, hk, hp⟩
    · have hne : pred ≠ x := fun he => hp.2.1.ne (by rw [he, ← hk])
      rw [LocalStorage.relink_valOf _ _ hne, LocalStorage.valOf_congr fun hno => by
        rw [show _ = s'.mem x from rfl, hs.mem, h.same_of_open hx hno]]
      exact hO.val l x (Finset.mem_insert_of_mem hxS)
  · obtain ⟨s', hs, rfl, -⟩ := hr
    exact h.missed hrest hthr hT hs

omit hT in
/-- A call that changes nothing ahead. -/
theorem Tracks.looked {s' : Shared K V m} {ls : LocalStorage V m} (hs : P.sys.shared.Searched s')
    (hop : op.isAccess = true) (hus : op.updates ret = [])
    (htrim : ls.trimmed = (P.sys.threads t).storage.trimmed)
    (htidy : (P.sys.threads t).transaction.TX = false → ls.IsEmpty)
    (hreads : ∀ n ∈ ls.writeSet, n ∈ ls.readSet) :
    P.Follows t op ret { P.sys.ctx t with shared := s', storage := ls } := by
  refine ⟨C, S, h.called (.refl h.serial h.unmarked) hs.allocates (h.completes_searched hs) rfl
    (.called hrest (fun _ => ?_) ?_ (fun _ => htidy) fun _ => hreads)⟩
  · show (⟨ls.trimmed, (P.sys.threads t).transaction⟩ : Local V m).Like _
    rw [htrim]
    exact h.like_of_resting hrest hthr
  · rw [Watched.updatesAfter_access hop, hus, List.append_nil]
    exact (h.twin t).updates

/-- `get` in a transaction. -/
theorem Tracks.getTX {f : Option V → Ret V} (hop : op.isAccess = true)
    (hus : ∀ v, op.updates (f v) = []) :
    Ends (TxList.getTX fuel l key) (P.sys.ctx t) (fun v => P.Follows t op (f v))
      (OnAbort (P.Follows t op .aborted)) := by
  have hread : ∀ {pred : NodeId} {v : Option V} {s' : Shared K V m}, P.sys.shared.Searched s' →
      P.Follows t op (f v) { P.sys.ctx t with
        shared := s', storage := (P.sys.threads t).storage.addToReadSet pred } := fun hs =>
    h.looked hrest hthr hs hop (hus _) rfl (fun hF => absurd (hT.symm.trans hF) (by simp))
      fun k hk => Finset.mem_insert_of_mem ((h.twin t).reads hthr k hk)
  refine getTX_ends (R := P.Found t C.sys.shared S l key (P.sys.ctx t).transaction)
    (h.find_node_found hrest hthr hop) (fun pred x c' hr => ?_) fun found pred next c' hr _ => ?_
  · obtain ⟨s', hs, rfl, -⟩ := hr
    exact hread hs
  · obtain ⟨s', hs, rfl, -⟩ := hr
    exact hread hs

end InTransaction

/-! ### Outside of transactions -/

section Outside

variable {fuel : Nat} {l : ListId m} {key : K} (h : Tracks P C S) (hrest : (P.ending t).resting = true)

include h hrest

theorem Tracks.getSingleton {f : Option V → Ret V} (hthr : P.thrown t = false) (hop : op.isAccess = true)
    (hus : ∀ v, op.updates (f v) = []) :
    Ends (TxList.getSingleton fuel l key) (P.sys.ctx t) (fun v => P.Follows t op (f v))
      (OnAbort (P.Follows t op .aborted)) :=
  h.behind.getSingleton_ends (c := P.sys.ctx t) fun _ hs =>
    h.looked hrest hthr hs hop (hus _) rfl ((h.twin t).tidy hthr) ((h.twin t).reads hthr)

theorem Tracks.txBegin (hthr : P.thrown t = false) (hT : (P.sys.threads t).transaction.TX = false) :
    P.Follows t .txBegin .unit { P.sys.ctx t with transaction :=
      { (P.sys.ctx t).transaction with TX := true, readVersion := P.sys.shared.gvc } } := by
  have hl := h.like_of_resting hrest hthr
  have hst : (C.sys.threads t).storage = (P.sys.threads t).storage.trimmed := hl.storage
  have he := (h.twin t).tidy hthr hT
  obtain ⟨S', hA⟩ := h.serial.act_begin h.unmarked (t := t) (by
    rw [hst]
    exact LocalStorage.trimmed_isEmpty he)
  refine ⟨_, S', h.called hA (Shared.Searched.refl _).allocates h.completes rfl
    (.called hrest (fun _ => ?_) (fun _ M => ?_) (fun _ hF => by simp at hF) fun _ =>
      (h.twin t).reads hthr)⟩
  · rw [Conf.act, Sys.put_threads_self]
    exact ⟨hst, rfl, hl.readOnly, fun _ => h.completes.gvc⟩
  · simp [Conf.act, Hist.step, Watched.updatesAfter, Watched.called, Maps.replay, Maps.update]

theorem Tracks.handleAbort (r : List NodeId) : P.Follows t .handleAbort .unit
    ({ P.sys.ctx t with shared := { P.sys.shared with retired := r } } : Ctx K V m).cleaned := by
  obtain ⟨S', hA⟩ := h.serial.act_handle h.unmarked (t := t) C.sys.shared.retired
  refine ⟨_, S', h.called hA ⟨rfl, le_rfl, fun _ _ => rfl, fun _ => le_rfl, fun _ => .refl _⟩
    (h.completes.congr (fun _ => rfl) rfl rfl fun _ => rfl) rfl
    (.called hrest (fun _ => ?_) (fun _ M => ?_) (fun _ _ => ?_) fun _ n hn => ?_)⟩
  · rw [Conf.act, Sys.put_threads_self]
    exact ⟨rfl, rfl, rfl, fun hF => by simp [Ctx.cleaned] at hF⟩
  · simp [Conf.act, Hist.step, Watched.updatesAfter, Watched.called, Maps.replay, Maps.update]
  · exact ⟨rfl, rfl, fun _ => rfl, fun _ => rfl⟩
  · exact absurd hn (AList.notMem_empty n)

end Outside

/-- Every call is followed ahead. -/
theorem Tracks.call {ch : Choice} {σ : Sys K V m} (h : Tracks P C S) (ha : P.Allows t op)
    (hg : Watched.PutsUnlocked P t (.call op ch)) (hs : P.sys.step t op ch = some (σ, ret)) :
    ∃ C' S', Tracks (P.called t op ret σ) C' S' := by
  obtain ⟨hrest, ha⟩ := ha
  have hno : ∀ {α : Type} {x : Call K V m α} {Q E}, (P.sys.threads t).transaction.TX = true →
      (P.sys.ctx t).transaction.TX = false → Ends x (P.sys.ctx t) Q E := fun hT hF =>
    absurd (hT.symm.trans hF) (by simp)
  have hends : Ends (TxList.call ch op) (P.sys.ctx t) (P.Follows t op)
      (OnAbort (P.Follows t op .aborted)) := by
    cases op with
    | txBegin =>
      simp only [TxList.call, TXbegin, Ends_bind, Ends_getVersion, Ends_modifyTransaction, Ends_pure]
      exact h.txBegin hrest ha.1 ha.2
    | put l key val =>
      simp only [TxList.call, Ends_bind, Ends_pure]
      exact access_ends (fun _ => h.putTX hrest ha.1 ha.2 hg) (hno ha.2)
    | remove l key =>
      simp only [TxList.call, Ends_bind, Ends_pure]
      exact access_ends (fun _ => h.removeTX hrest ha.1 ha.2) (hno ha.2)
    | get l key =>
      simp only [TxList.call, Ends_bind, Ends_pure]
      exact access_ends (fun hT => h.getTX hrest ha hT rfl fun _ => rfl) fun _ =>
        h.getSingleton hrest ha rfl fun _ => rfl
    | containsKey l key =>
      simp only [TxList.call, containsKey, Ends_bind, Ends_pure]
      exact access_ends (fun hT => h.getTX hrest ha hT rfl fun _ => rfl) fun _ =>
        h.getSingleton hrest ha rfl fun _ => rfl
    | txEnd => exact ha.elim
    | handleAbort =>
      simp only [TxList.call, Ends_bind, Ends_pure]
      exact handle_abort_ends fun r => h.handleAbort hrest r
  obtain ⟨c', rfl, hc | ⟨rfl, hc⟩⟩ := Sys.step_of_ends hends hs
  · exact hc
  · exact hc

end Calls

end TxList
