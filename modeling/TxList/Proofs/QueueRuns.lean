import TxList.Proofs.QueueLinks
import TxList.QueueSystem

/-!
# Every run keeps the queues in order

What holds in every state that the threads' steps lead to, in any order and whatever calls the clients
make (`Ctx.Safe`): each queue and each local queue is a linked list with the right ends and size, no
node is on two of them, and a thread that changes a queue or that has its `isLockedByMe` set holds its
lock. So no assertion fails and no loop runs on: a thread stops only where it waits for a lock that
another thread holds.
-/

namespace TxQueue

open Chain
open Fifo (Op Ans)

variable {Q V : Type} [DecidableEq Q]

namespace LocalStorage

variable (s : LocalStorage Q) (q q' : Q) (lq : LocalQueue)

@[simp] theorem putQueue_TX : (s.putQueue q lq).TX = s.TX := rfl
@[simp] theorem putQueue_readVersion : (s.putQueue q lq).readVersion = s.readVersion := rfl
@[simp] theorem putQueue_readOnly : (s.putQueue q lq).readOnly = s.readOnly := rfl

@[simp] theorem lQueue_putQueue_self : (s.putQueue q lq).lQueue q = lq := by
  simp [lQueue, putQueue]

theorem lQueue_putQueue_of_ne {q q' : Q} (h : q' ≠ q) : (s.putQueue q lq).lQueue q' = s.lQueue q' := by
  simp [lQueue, putQueue, AList.lookup_insert_ne h]

theorem keys_putQueue {q : Q} (h : q ∈ s.queueMap) :
    (s.putQueue q lq).queueMap.keys.Perm s.queueMap.keys := by
  rw [putQueue, AList.keys_insert]
  exact (List.perm_cons_erase (AList.mem_keys.1 h)).symm

theorem lQueue_of_not_mem {q : Q} (h : q ∉ s.queueMap) : s.lQueue q = {} := by
  rw [lQueue, AList.lookup_eq_none.2 h]
  rfl

end LocalStorage

/-- None of the thread's local queues has `isLockedByMe` set. -/
def LocalStorage.NoFlags (s : LocalStorage Q) : Prop := ∀ q, (s.lQueue q).isLockedByMe = false

/-- `order` is an order of the entries of `queueMap`, and these have `isLockedByMe` set and are
locked. -/
def LocalStorage.LocksAll (s : LocalStorage Q) (own : Q → Prop) (order : List Q) : Prop :=
  order.Perm s.queueMap.keys ∧ ∀ q ∈ order, (s.lQueue q).isLockedByMe = true ∧ own q

/-- What holds at each place in the code, for a thread that owns the locks of the queues `own`. -/
def Ready (s : LocalStorage Q) (own : Q → Prop) : Pc Q V → Prop
  | .idle => s.NoFlags
  | .tryLock _ _ => s.NoFlags ∧ s.TX = true
  | .lock _ _ _ => s.NoFlags ∧ s.TX = false
  | .locked q _ _ | .stamp q _ | .unlock q _ => s.NoFlags ∧ s.TX = false ∧ own q
  | .lockQueues order rest => s.TX = true ∧ order.Perm s.queueMap.keys ∧ ∃ done,
      order = done ++ rest ∧ (∀ q, (s.lQueue q).isLockedByMe = true → q ∈ done) ∧
      ∀ q ∈ done, (s.lQueue q).isLockedByMe = true ∧ own q
  | .validateReadSet order | .increment order => s.TX = true ∧ s.LocksAll own order
  | .validateQueues order rest | .publish _ _ order rest =>
    s.TX = true ∧ s.LocksAll own order ∧ rest <:+ order
  | .unlockQueues _ rest => rest.Nodup ∧
      ∀ q, (s.lQueue q).isLockedByMe = true → q ∈ rest ∧ own q

theorem LocalStorage.mem_of_flag {s : LocalStorage Q} {q : Q}
    (h : (s.lQueue q).isLockedByMe = true) : q ∈ s.queueMap := by
  by_contra hq
  rw [s.lQueue_of_not_mem hq] at h
  simp at h

theorem LocalStorage.LocksAll.unlocks {s : LocalStorage Q} {own : Q → Prop} {order : List Q}
    (h : s.LocksAll own order) : order.Nodup ∧
      ∀ q, (s.lQueue q).isLockedByMe = true → q ∈ order ∧ own q := by
  refine ⟨h.1.nodup_iff.2 s.queueMap.keys_nodup, fun q hq => ?_⟩
  have hmem : q ∈ order := h.1.mem_iff.2 (AList.mem_keys.1 (mem_of_flag hq))
  exact ⟨hmem, (h.2 q hmem).2⟩

theorem Ready.mono {s : LocalStorage Q} {own own' : Q → Prop} (h : ∀ q, own q → own' q) :
    ∀ {pc : Pc Q V}, Ready s own pc → Ready s own' pc
  | .idle, hr => hr
  | .tryLock _ _, hr => hr
  | .lock _ _ _, hr => hr
  | .locked q _ _, hr => ⟨hr.1, hr.2.1, h q hr.2.2⟩
  | .stamp q _, hr => ⟨hr.1, hr.2.1, h q hr.2.2⟩
  | .unlock q _, hr => ⟨hr.1, hr.2.1, h q hr.2.2⟩
  | .lockQueues _ _, ⟨hT, hp, done, hd, hf, hl⟩ =>
    ⟨hT, hp, done, hd, hf, fun q hq => ⟨(hl q hq).1, h q (hl q hq).2⟩⟩
  | .validateReadSet _, hr => ⟨hr.1, hr.2.1, fun q hq => ⟨(hr.2.2 q hq).1, h q (hr.2.2 q hq).2⟩⟩
  | .increment _, hr => ⟨hr.1, hr.2.1, fun q hq => ⟨(hr.2.2 q hq).1, h q (hr.2.2 q hq).2⟩⟩
  | .validateQueues _ _, hr =>
    ⟨hr.1, ⟨hr.2.1.1, fun q hq => ⟨(hr.2.1.2 q hq).1, h q (hr.2.1.2 q hq).2⟩⟩, hr.2.2⟩
  | .publish _ _ _ _, hr =>
    ⟨hr.1, ⟨hr.2.1.1, fun q hq => ⟨(hr.2.1.2 q hq).1, h q (hr.2.1.2 q hq).2⟩⟩, hr.2.2⟩
  | .unlockQueues _ _, hr => ⟨hr.1, fun q hq => ⟨(hr.2 q hq).1, h q (hr.2 q hq).2⟩⟩

/-- The next piece changes the list of `q`. -/
def Pc.Writes (q : Q) : Pc Q V → Prop
  | .locked q' .dequeue _ | .locked q' (.enqueue _) _ | .publish _ _ _ (q' :: _) => q' = q
  | _ => False

namespace Ctx

/-- The lists that thread `t` sees: the queues' and its own local queues'; `o` has those of the others. -/
def links (c : Ctx Q V) (t : ThreadId) (o : ThreadId × Q → Links) : Q ⊕ (ThreadId × Q) → Links :=
  Sum.elim (fun q => (c.queues q).toLinks)
    fun p => if p.1 = t then (c.storage.lQueue p.2).toLinks else o p

/-- The nodes of these lists. -/
def nodes (c : Ctx Q V) (t : ThreadId) (o : ThreadId × Q → Links) (i : Q ⊕ (ThreadId × Q)) :
    List NodeId :=
  walk c.heap.next c.heap.fresh (c.links t o i).head

def Owns (c : Ctx Q V) (t : ThreadId) (q : Q) : Prop := (c.queues q).owner = some t

/-- What holds of what a thread sees. -/
structure Safe (c : Ctx Q V) (t : ThreadId) (o : ThreadId × Q → Links) : Prop where
  laid : Laid c.heap (c.links t o) (c.nodes t o)
  ready : Ready c.storage (c.Owns t) c.pc
  readVersion : c.storage.readVersion ≤ c.gvc

/-- What a step of thread `t` leaves as it was. -/
structure Framed (c c' : Ctx Q V) (t : ThreadId) (o : ThreadId × Q → Links) : Prop where
  gvc : c.gvc ≤ c'.gvc
  grows : c.heap.Grows c'.heap
  owner : ∀ q u, u ≠ t → ((c'.queues q).owner = some u ↔ (c.queues q).owner = some u)
  queue : ∀ q u, u ≠ t → (c.queues q).owner = some u → c'.queues q = c.queues q
  nodes : ∀ q, ¬ (c.Owns t q ∧ c.pc.Writes q) → c'.nodes t o (.inl q) = c.nodes t o (.inl q)
  others : ∀ p, p.1 ≠ t → c'.nodes t o (.inr p) = c.nodes t o (.inr p)

section Links

variable (c : Ctx Q V) (t : ThreadId) (o : ThreadId × Q → Links) (q : Q)

theorem links_setQueue (x : Queue) :
    (c.setQueue q x).links t o = Function.update (c.links t o) (.inl q) x.toLinks := by
  funext i
  rcases i with q' | p
  · by_cases hq : q' = q
    · subst hq
      simp [links, setQueue]
    · simp [links, setQueue, hq]
  · simp [links, setQueue]

theorem links_putQueue (lq : LocalQueue) :
    (c.putQueue q lq).links t o = Function.update (c.links t o) (.inr (t, q)) lq.toLinks := by
  funext i
  rcases i with q' | ⟨u, q'⟩
  · simp [links, putQueue]
  · by_cases hu : u = t
    · subst hu
      by_cases hq : q' = q
      · subst hq
        simp [links, putQueue]
      · simp [links, putQueue, hq, LocalStorage.lQueue_putQueue_of_ne]
    · simp [links, hu]

@[simp] theorem links_inl : c.links t o (.inl q) = (c.queues q).toLinks := rfl

@[simp] theorem links_inr : c.links t o (.inr (t, q)) = (c.storage.lQueue q).toLinks := if_pos rfl

theorem links_setQueue_self {x : Queue} (hx : x.toLinks = (c.queues q).toLinks) :
    (c.setQueue q x).links t o = c.links t o := by
  rw [links_setQueue, hx]
  exact Function.update_eq_self (Sum.inl q) (c.links t o)

theorem links_setOwner (w : Option ThreadId) :
    (c.setQueue q ((c.queues q).setOwner w)).links t o = c.links t o :=
  links_setQueue_self c t o q rfl

theorem links_putQueue_self {lq : LocalQueue} (hlq : lq.toLinks = (c.storage.lQueue q).toLinks) :
    (c.putQueue q lq).links t o = c.links t o := by
  rw [links_putQueue, hlq, ← links_inr c t o q]
  exact Function.update_eq_self (Sum.inr (t, q)) (c.links t o)

end Links

variable {c c' : Ctx Q V} {t : ThreadId} {o : ThreadId × Q → Links}

theorem nodes_eq {ids : Q ⊕ (ThreadId × Q) → List NodeId} (h : Laid c.heap (c.links t o) ids) :
    c.nodes t o = ids := by
  funext i
  unfold nodes
  rw [(h.holds i).head_eq]
  exact (h.holds i).path.walk_eq (h.length_le i)

/-- The queues that a step of `t` may change are its own and the free ones; it may take and give back
locks. -/
def Locked (c c' : Ctx Q V) (t : ThreadId) : Prop := ∀ q, c'.queues q = c.queues q ∨
  (c.Owns t q ∨ (c.queues q).owner = none) ∧ (c'.Owns t q ∨ (c'.queues q).owner = none)

theorem safe_next {ids : Q ⊕ (ThreadId × Q) → List NodeId}
    (hL : Laid c'.heap (c'.links t o) ids)
    (hids : ∀ i, ids i = c.nodes t o i ∨ (∃ q, i = .inl q ∧ c.Owns t q ∧ c.pc.Writes q) ∨
      ∃ q, i = .inr (t, q))
    (hh : c.heap.Grows c'.heap) (hg : c.gvc ≤ c'.gvc) (hq : Locked c c' t)
    (hr : Ready c'.storage (c'.Owns t) c'.pc) (hv : c'.storage.readVersion ≤ c'.gvc) :
    c'.Safe t o ∧ Framed c c' t o := by
  have hn := nodes_eq hL
  refine ⟨⟨hn ▸ hL, hr, hv⟩, hg, hh, fun q u hu => ?_, fun q u hu ho => ?_, fun q hno => ?_,
    fun p hp => ?_⟩
  · rcases hq q with he | ⟨h₁, h₂⟩
    · rw [he]
    · unfold Owns at h₁ h₂
      constructor
      · intro ho
        rw [ho] at h₂
        exact absurd (by simpa using h₂) hu
      · intro ho
        rw [ho] at h₁
        exact absurd (by simpa using h₁) hu
  · rcases hq q with he | ⟨h₁, -⟩
    · exact he
    · unfold Owns at h₁
      rw [ho] at h₁
      exact absurd (by simpa using h₁) hu
  · rw [hn]
    rcases hids (.inl q) with he | ⟨q', he, ho⟩ | ⟨q', he⟩
    · exact he
    · obtain rfl := Sum.inl.inj he
      exact absurd ho hno
    · simp at he
  · rw [hn]
    rcases hids (.inr p) with he | ⟨q', he, -⟩ | ⟨q', he⟩
    · exact he
    · simp at he
    · exact absurd (congrArg Prod.fst (Sum.inr.inj he)) hp

/-- A step that changes none of the lists. -/
theorem Safe.quiet (h : c.Safe t o) (hheap : c'.heap = c.heap)
    (hlinks : c'.links t o = c.links t o) (hg : c.gvc ≤ c'.gvc) (hq : Locked c c' t)
    (hr : Ready c'.storage (c'.Owns t) c'.pc) (hv : c'.storage.readVersion ≤ c'.gvc) :
    c'.Safe t o ∧ Framed c c' t o :=
  have hlaid : Laid c'.heap (c'.links t o) (c.nodes t o) := by
    rw [hheap, hlinks]
    exact h.laid
  safe_next hlaid (fun _ => .inl rfl) (hheap ▸ .refl _) hg hq hr hv

omit [DecidableEq Q] in
theorem Locked.refl (c : Ctx Q V) (t : ThreadId) : Locked c c t := fun _ => .inl rfl

theorem Locked.setQueue {q : Q} {x : Queue} (hc : c'.queues = Function.update c.queues q x)
    (ho : c.Owns t q ∨ (c.queues q).owner = none) (hx : x.owner = some t ∨ x.owner = none) :
    Locked c c' t := fun q' => by
  unfold Owns
  rw [hc]
  by_cases hq : q' = q
  · subst hq
    rw [Function.update_self]
    exact .inr ⟨ho, hx⟩
  · rw [Function.update_of_ne hq]
    exact .inl rfl

theorem Owns.setQueue {q q' : Q} {x : Queue} (h : c.Owns t q')
    (hc : c'.queues = Function.update c.queues q x) (hx : x.owner = (c.queues q).owner) :
    c'.Owns t q' := by
  unfold Owns at h ⊢
  rw [hc]
  by_cases hq : q' = q
  · subst hq
    rwa [Function.update_self, hx]
  · rwa [Function.update_of_ne hq]

end Ctx

section Locks

variable {q x : Queue} {t : ThreadId}

theorem Queue.tryLock_some (h : q.tryLock t = some x) :
    (q.owner = some t ∨ q.owner = none) ∧ x = q.setOwner (some t) := by
  unfold Queue.tryLock at h
  split_ifs at h with ho
  exact ⟨ho, (Option.some.inj h).symm⟩

theorem Queue.tryLock_none (h : q.tryLock t = none) : ∃ u, u ≠ t ∧ q.owner = some u := by
  unfold Queue.tryLock at h
  split_ifs at h with ho
  rw [not_or] at ho
  obtain ⟨u, hu⟩ := Option.ne_none_iff_exists'.1 ho.2
  exact ⟨u, fun he => ho.1 (he ▸ hu), hu⟩

theorem Queue.unlock_some (h : q.unlock t = some x) :
    q.owner = some t ∧ x = q.setOwner none := by
  unfold Queue.unlock at h
  split_ifs at h with ho
  exact ⟨ho, (Option.some.inj h).symm⟩

end Locks

@[simp] theorem LocalQueue.advance_toLinks (lq : LocalQueue) (h : Heap V) (head : Option NodeId) :
    (lq.advance h head).toLinks = lq.toLinks := by
  unfold LocalQueue.advance
  split_ifs
  · rfl
  · split <;> rfl

@[simp] theorem LocalQueue.advance_isLockedByMe (lq : LocalQueue) (h : Heap V)
    (head : Option NodeId) : (lq.advance h head).isLockedByMe = lq.isLockedByMe := by
  unfold LocalQueue.advance
  split_ifs
  · rfl
  · split <;> rfl

theorem LocalStorage.NoFlags.put {s : LocalStorage Q} (h : s.NoFlags) {q : Q} {lq : LocalQueue}
    (hlq : lq.isLockedByMe = false) : (s.putQueue q lq).NoFlags := fun q' => by
  by_cases hq : q' = q
  · subst hq
    rw [lQueue_putQueue_self, hlq]
  · rw [lQueue_putQueue_of_ne _ _ hq]
    exact h q'

namespace Ctx

variable {c c' : Ctx Q V} {t : ThreadId} {o : ThreadId × Q → Links}
  {ids : Q ⊕ (ThreadId × Q) → List NodeId} {q : Q}

theorem enqueue_laid (hL : Laid c.heap (c.links t o) ids) (v : V) :
    Laid (c.enqueue q v).heap ((c.enqueue q v).links t o)
      (Function.update ids (.inr (t, q)) (ids (.inr (t, q)) ++ [c.heap.fresh])) := by
  have := hL.enqueue (.inr (t, q)) v
  rw [links_inr] at this
  dsimp only [enqueue]
  rw [links_putQueue]
  exact this

/-- A transaction's `dequeue` takes the next node of the queue's, or else the first of its own. -/
theorem dequeue_cases (hL : Laid c.heap (c.links t o) ids) (q : Q) :
    let lq := (c.lQueue q).advance c.heap (c.queues q).head
    (∃ n, lq.nodeToDeq = some n ∧ c.dequeue q = (c.putQueue q lq, .val (c.heap.val n))) ∨
    (lq.nodeToDeq = none ∧ ids (.inr (t, q)) = [] ∧ c.dequeue q = (c.putQueue q lq, .empty)) ∨
    lq.nodeToDeq = none ∧ ∃ a B l, ids (.inr (t, q)) = a :: B ∧
      c.dequeue q = (c.putQueue q (lq.setLinks l), .val (c.heap.val a)) ∧
      Laid c.heap ((c.putQueue q (lq.setLinks l)).links t o)
        (Function.update ids (.inr (t, q)) B) := by
  intro lq
  have hlinks : c.links t o (.inr (t, q)) = lq.toLinks := by
    rw [links_inr]
    exact (LocalQueue.advance_toLinks _ _ _).symm
  rcases hn : lq.nodeToDeq with _ | n
  · refine .inr ?_
    rcases hd : lq.dequeue c.heap with _ | ⟨ret, l⟩
    · refine .inl ⟨rfl, hL.dequeue_none (hlinks ▸ hd), ?_⟩
      simp only [dequeue, ← show lq = (c.lQueue q).advance c.heap (c.queues q).head from rfl, hn, hd]
    · obtain ⟨a, B, hB, rfl, hL'⟩ := hL.dequeue_some (hlinks ▸ hd)
      refine .inr ⟨rfl, a, B, l, hB, ?_, ?_⟩
      · simp only [dequeue, ← show lq = (c.lQueue q).advance c.heap (c.queues q).head from rfl, hn,
          hd]
      · rw [links_putQueue]
        exact hL'
  · refine .inl ⟨n, rfl, ?_⟩
    simp only [dequeue, ← show lq = (c.lQueue q).advance c.heap (c.queues q).head from rfl, hn]

/-- The end of `TXend` drops the local queues. -/
theorem cleanup_laid (hL : Laid c.heap (c.links t o) ids) :
    Laid c.cleanup.heap (c.cleanup.links t o)
      (Sum.elim (fun q => ids (.inl q)) fun p => if p.1 = t then [] else ids (.inr p)) := by
  have hsub : ∀ (i : Q ⊕ (ThreadId × Q)) (x : NodeId), x ∈ Sum.elim (fun q => ids (.inl q))
      (fun p => if p.1 = t then [] else ids (.inr p)) i → x ∈ ids i := by
    rintro (q | p) x hx
    · exact hx
    · simp only [Sum.elim_inr] at hx
      split_ifs at hx with hp
      · simp at hx
      · exact hx
  refine ⟨?_, fun i j x hi hj => hL.apart i j x (hsub i x hi) (hsub j x hj),
    fun i x hx => hL.lt_fresh i x (hsub i x hx)⟩
  rintro (q | ⟨u, q⟩)
  · exact hL.holds (.inl q)
  · by_cases hu : u = t
    · subst hu
      simp only [Sum.elim_inr, if_true, links_inr]
      exact .empty _
    · have := hL.holds (.inr (u, q))
      simpa [links, hu, cleanup] using this

theorem single_enqueue_laid (hL : Laid c.heap (c.links t o) ids) (q : Q) (size : Int) (v : V) :
    Laid (c.single q size (.enqueue v)).heap ((c.single q size (.enqueue v)).links t o)
      (Function.update ids (.inl q) (ids (.inl q) ++ [c.heap.fresh])) := by
  have := hL.enqueue (.inl q) v
  dsimp only [single]
  rw [links_setQueue]
  exact this

/-- A `dequeue` outside of a transaction takes the first node. -/
theorem single_dequeue_cases (hL : Laid c.heap (c.links t o) ids) (q : Q) (size : Int) :
    (ids (.inl q) = [] ∧ c.single q size .dequeue = { c with pc := .unlock q .empty }) ∨
    ∃ a B l, ids (.inl q) = a :: B ∧ c.single q size .dequeue =
        { c with pc := .stamp q (.val (c.heap.val a)) }.setQueue q ((c.queues q).setLinks l) ∧
      Laid c.heap ((c.setQueue q ((c.queues q).setLinks l)).links t o)
        (Function.update ids (.inl q) B) := by
  rcases hd : (c.queues q).dequeue c.heap with _ | ⟨ret, l⟩
  · exact .inl ⟨hL.dequeue_none hd, by simp only [single, hd]⟩
  · obtain ⟨a, B, hB, rfl, hL'⟩ := hL.dequeue_some (i := .inl q) hd
    refine .inr ⟨a, B, l, hB, by simp only [single, hd], ?_⟩
    rw [links_setQueue]
    exact hL'

/-- `dequeueNodes` takes off what the transaction took, if its place is still in the queue. -/
theorem publish_dequeueNodes (hL : Laid c.heap (c.links t o) ids) (q : Q) (wv : Nat) :
    ∃ l k, c.publish q wv .dequeueNodes = some (c.setQueue q ((c.queues q).setLinks l)) ∧
      Laid c.heap ((c.setQueue q ((c.queues q).setLinks l)).links t o)
        (Function.update ids (.inl q) ((ids (.inl q)).drop k)) ∧
      ((c.lQueue q).nodeToDeq = none → k = 0) ∧
      ∀ (j : Nat) (hj : j < (ids (.inl q)).length),
        (c.lQueue q).nodeToDeq = some (ids (.inl q))[j] → k = j + 1 := by
  obtain ⟨l, k, hd, hL', h₀, hk⟩ := hL.dequeueNodes (.inl q) (c.lQueue q).nodeToDeq
  refine ⟨l, k, ?_, ?_, h₀, hk⟩
  · rw [links_inl] at hd
    simp only [publish, hd]
    rfl
  · rw [links_setQueue]
    exact hL'

/-- `enqueueNodes` appends what the transaction put. -/
theorem publish_enqueueNodes (hL : Laid c.heap (c.links t o) ids) (q : Q) (wv : Nat) :
    ∃ h' l l' new, c.publish q wv .enqueueNodes =
        some (({ c with heap := h' }.setQueue q ((c.queues q).setLinks l)).putQueue q
          ((c.lQueue q).setLinks l')) ∧ c.heap.Grows h' ∧
      Laid h' ((({ c with heap := h' }.setQueue q ((c.queues q).setLinks l)).putQueue q
          ((c.lQueue q).setLinks l')).links t o)
        (Function.update (Function.update ids (.inl q) (ids (.inl q) ++ new)) (.inr (t, q)) []) ∧
      new.map h'.val = (ids (.inr (t, q))).map c.heap.val := by
  obtain ⟨h', l, l', new, hd, hg, hL', hnew⟩ :=
    hL.enqueueNodes (i := .inl q) (j := .inr (t, q)) (by simp)
  refine ⟨h', l, l', new, ?_, hg, ?_, hnew⟩
  · rw [links_inl, links_inr] at hd
    simp only [publish, lQueue, hd]
    rfl
  · rw [links_putQueue, links_setQueue]
    exact hL'

section Step

theorem Safe.abort (h : c.Safe t o) (pc : Pc Q V) (hf : c.storage.NoFlags) {g : Nat}
    (hg : c.gvc ≤ g) : ({ c with gvc := g, pc := pc }.abort).Safe t o ∧
      Framed c ({ c with gvc := g, pc := pc }.abort) t o :=
  h.quiet rfl rfl hg (.refl c t) hf (h.readVersion.trans hg)

/-- A call's first piece. -/
theorem Safe.start (h : c.Safe t o) (hpc : c.pc = .idle) {e : Ev Q V} {r : Option (Ret V)}
    (hs : c.start e = some (c', r)) : c'.Safe t o ∧ Framed c c' t o := by
  have hf : c.storage.NoFlags := by simpa [hpc, Ready] using h.ready
  cases e with
  | txBegin =>
    obtain ⟨rfl, -⟩ := Prod.mk.inj (Option.some.inj hs)
    exact h.quiet rfl rfl le_rfl (.refl c t) (by rw [hpc]; exact hf) le_rfl
  | listWrite =>
    simp only [Ctx.start] at hs
    split_ifs at hs
    obtain ⟨rfl, -⟩ := Prod.mk.inj (Option.some.inj hs)
    exact h.quiet rfl rfl le_rfl (.refl c t) (by rw [hpc]; exact hf) h.readVersion
  | listAbort increment =>
    simp only [Ctx.start] at hs
    split_ifs at hs with hT hi
    · obtain ⟨rfl, -⟩ := Prod.mk.inj (Option.some.inj hs)
      exact h.abort c.pc hf (Nat.le_succ _)
    · obtain ⟨rfl, -⟩ := Prod.mk.inj (Option.some.inj hs)
      exact h.abort c.pc hf le_rfl
  | call q op =>
    simp only [Ctx.start] at hs
    split_ifs at hs with hT
    · unfold checkVersion at hs
      split_ifs at hs with h₁ h₂
      · obtain ⟨rfl, -⟩ := Prod.mk.inj (Option.some.inj hs)
        exact h.abort c.pc hf le_rfl
      · obtain ⟨rfl, -⟩ := Prod.mk.inj (Option.some.inj hs)
        exact h.abort c.pc hf (Nat.le_succ _)
      · cases op with
        | enqueue v =>
          obtain ⟨rfl, -⟩ := Prod.mk.inj (Option.some.inj hs)
          refine safe_next (enqueue_laid h.laid v) (fun i => ?_) (Links.enqueue_grows _ _ _) le_rfl
            (.refl c t) ?_ h.readVersion
          · by_cases hi : i = .inr (t, q)
            · exact .inr (.inr ⟨q, hi⟩)
            · exact .inl (Function.update_of_ne hi _ _)
          · show Ready _ _ c.pc
            rw [hpc]
            exact hf.put (hf q)
        | dequeue =>
          obtain ⟨rfl, -⟩ := Prod.mk.inj (Option.some.inj hs)
          exact h.quiet rfl rfl le_rfl (.refl c t) ⟨hf, hT⟩ h.readVersion
        | isEmpty =>
          obtain ⟨rfl, -⟩ := Prod.mk.inj (Option.some.inj hs)
          exact h.quiet rfl rfl le_rfl (.refl c t) ⟨hf, hT⟩ h.readVersion
    · obtain ⟨rfl, -⟩ := Prod.mk.inj (Option.some.inj hs)
      exact h.quiet rfl rfl le_rfl (.refl c t) ⟨hf, by simpa using hT⟩ h.readVersion
  | txEnd order locks =>
    simp only [Ctx.start] at hs
    split_ifs at hs with hp hT
    · obtain ⟨rfl, -⟩ := Prod.mk.inj (Option.some.inj hs)
      rw [Bool.and_eq_true] at hT
      refine h.quiet rfl rfl le_rfl (.refl c t) ?_ h.readVersion
      exact ⟨hT.1, hp, [], rfl, fun q hq => by simp [hf q] at hq, fun q hq => by simp at hq⟩
    · obtain ⟨rfl, -⟩ := Prod.mk.inj (Option.some.inj hs)
      refine h.quiet rfl rfl le_rfl (.refl c t) ?_ h.readVersion
      exact ⟨hp.nodup_iff.2 c.storage.queueMap.keys_nodup, fun q hq => by simp [hf q] at hq⟩
  | go rs => simp [Ctx.start] at hs

theorem access_queues (c : Ctx Q V) (q : Q) (op : Op V) : (c.access q op).1.queues = c.queues := by
  cases op with
  | enqueue v => rfl
  | dequeue =>
    simp only [access, dequeue]
    split
    · rfl
    · split <;> rfl
  | isEmpty =>
    simp only [access, isEmpty]
    split_ifs <;> rfl

/-- A transaction's access to a queue whose lock it has. -/
theorem access_safe (hL : Laid c.heap (c.links t o) ids) (hf : c.storage.NoFlags) (q : Q)
    (op : Op V) : ∃ ids', Laid (c.access q op).1.heap ((c.access q op).1.links t o) ids' ∧
      (∀ i, ids' i = ids i ∨ i = .inr (t, q)) ∧ c.heap.Grows (c.access q op).1.heap ∧
      (c.access q op).1.storage.NoFlags ∧
      (c.access q op).1.queues = c.queues ∧ (c.access q op).1.gvc = c.gvc ∧
      (c.access q op).1.storage.readVersion = c.storage.readVersion := by
  have hupd : ∀ (l : List NodeId) (i : Q ⊕ (ThreadId × Q)),
      Function.update ids (.inr (t, q)) l i = ids i ∨ i = .inr (t, q) := fun l i => by
    by_cases hi : i = .inr (t, q)
    · exact .inr hi
    · exact .inl (Function.update_of_ne hi _ _)
  have hadv : ((c.lQueue q).advance c.heap (c.queues q).head).isLockedByMe = false := by
    rw [LocalQueue.advance_isLockedByMe]
    exact hf q
  cases op with
  | enqueue v => exact ⟨_, enqueue_laid hL v, hupd _, Links.enqueue_grows _ _ _, hf.put (hf q),
      rfl, rfl, rfl⟩
  | dequeue =>
    simp only [access]
    rcases dequeue_cases hL q with ⟨n, -, he⟩ | ⟨-, -, he⟩ | ⟨-, a, B, l, -, he, hL'⟩ <;> rw [he]
    · refine ⟨ids, ?_, fun _ => .inl rfl, .refl _, hf.put hadv, rfl, rfl, rfl⟩
      rw [links_putQueue_self _ _ _ _ (by simp [lQueue])]
      exact hL
    · refine ⟨ids, ?_, fun _ => .inl rfl, .refl _, hf.put hadv, rfl, rfl, rfl⟩
      rw [links_putQueue_self _ _ _ _ (by simp [lQueue])]
      exact hL
    · exact ⟨_, hL', hupd _, .refl _, hf.put hadv, rfl, rfl, rfl⟩
  | isEmpty =>
    simp only [access, isEmpty]
    split_ifs
    · exact ⟨ids, hL, fun _ => .inl rfl, .refl _, hf, rfl, rfl, rfl⟩
    · refine ⟨ids, ?_, fun _ => .inl rfl, .refl _, hf.put (hf q), rfl, rfl, rfl⟩
      rw [links_putQueue_self _ _ _ _ (by rfl)]
      exact hL

/-- What a piece of the publication keeps of the thread's place. -/
theorem Ready.publish_next {s s' : LocalStorage Q} {own own' : Q → Prop} {part : Part} {wv : Nat}
    {order rest : List Q} (hr : Ready s own (.publish part wv order (q :: rest) : Pc Q V))
    (hT : s'.TX = s.TX) (hk : s'.queueMap.keys.Perm s.queueMap.keys)
    (hf : ∀ q ∈ order, (s'.lQueue q).isLockedByMe = (s.lQueue q).isLockedByMe)
    (ho : ∀ q, own q → own' q) :
    Ready s' own' (part.next wv order q rest : Pc Q V) := by
  obtain ⟨hT', ⟨hp, hl⟩, hsuf⟩ := hr
  have hl' : s'.LocksAll own' order := ⟨hp.trans hk.symm, fun q' hq' =>
    ⟨(hf q' hq').trans (hl q' hq').1, ho q' (hl q' hq').2⟩⟩
  cases part with
  | dequeueNodes => exact ⟨hT.trans hT', hl', hsuf⟩
  | enqueueNodes => exact ⟨hT.trans hT', hl', hsuf⟩
  | setVersion => exact ⟨hT.trans hT', hl', (List.suffix_cons q rest).trans hsuf⟩

theorem Safe.ready_at (h : c.Safe t o) {p : Pc Q V} (hpc : c.pc = p) :
    Ready c.storage (c.Owns t) p :=
  hpc ▸ h.ready

/-- A piece of the publication of a queue. -/
theorem Safe.publish (h : c.Safe t o) {part : Part} {wv : Nat} {order rest : List Q}
    {r : Option (Ret V)} (hpc : c.pc = .publish part wv order (q :: rest))
    (hs : (do
      let c' ← c.publish q wv part
      return ({ c' with pc := part.next wv order q rest }, none)) = some (c', r)) :
    c'.Safe t o ∧ Framed c c' t o := by
  have hr := h.ready_at hpc
  have hown : c.Owns t q := (hr.2.1.2 q (hr.2.2.subset List.mem_cons_self)).2
  have hmem : q ∈ c.storage.queueMap :=
    AList.mem_keys.2 (hr.2.1.1.subset (hr.2.2.subset List.mem_cons_self))
  have hw : c.pc.Writes q := by rw [hpc]; rfl
  cases part with
  | dequeueNodes =>
    obtain ⟨l, k, he, hL, -, -⟩ := publish_dequeueNodes h.laid q wv
    rw [he] at hs
    obtain ⟨rfl, -⟩ := Prod.mk.inj (Option.some.inj hs)
    refine safe_next hL (fun i => ?_) (.refl _) le_rfl (.setQueue rfl (.inl hown) (.inl hown))
      (Ready.publish_next hr rfl (.refl _) (fun _ _ => rfl) fun q' hq' => ?_) h.readVersion
    · by_cases hi : i = .inl q
      · exact .inr (.inl ⟨q, hi, hown, hw⟩)
      · exact .inl (Function.update_of_ne hi _ _)
    · exact hq'.setQueue rfl rfl
  | enqueueNodes =>
    obtain ⟨h', l, l', new, he, hg, hL, -⟩ := publish_enqueueNodes h.laid q wv
    rw [he] at hs
    obtain ⟨rfl, -⟩ := Prod.mk.inj (Option.some.inj hs)
    refine safe_next hL (fun i => ?_) hg le_rfl (.setQueue rfl (.inl hown) (.inl hown))
      (Ready.publish_next hr rfl (LocalStorage.keys_putQueue _ _ hmem) (fun q' _ => ?_)
        fun q' hq' => ?_) h.readVersion
    · by_cases hi : i = .inl q
      · exact .inr (.inl ⟨q, hi, hown, hw⟩)
      · by_cases hj : i = .inr (t, q)
        · exact .inr (.inr ⟨q, hj⟩)
        · exact .inl ((Function.update_of_ne hj _ _).trans (Function.update_of_ne hi _ _))
    · by_cases hq : q' = q
      · subst hq
        have := LocalStorage.lQueue_putQueue_self c.storage q' ((c.lQueue q').setLinks l')
        exact (congrArg LocalQueue.isLockedByMe this :)
      · exact congrArg _ (LocalStorage.lQueue_putQueue_of_ne _ _ hq)
    · exact hq'.setQueue rfl rfl
  | setVersion =>
    obtain ⟨rfl, -⟩ := Prod.mk.inj (Option.some.inj hs)
    refine h.quiet rfl ?_ le_rfl (.setQueue rfl (.inl hown) (.inl hown))
      (Ready.publish_next hr rfl (.refl _) (fun _ _ => rfl) fun q' hq' => ?_) h.readVersion
    · exact links_setQueue_self c t o q rfl
    · exact hq'.setQueue rfl rfl

variable {rs : ReadSet} {r : Option (Ret V)}

/-- A transaction takes the lock of a queue for its access, or aborts. -/
theorem Safe.tryLock (h : c.Safe t o) {q : Q} {op : Op V}
    (hpc : c.pc = .tryLock q op) (hs : c.go t rs = some (c', r)) :
    c'.Safe t o ∧ Framed c c' t o := by
  have hr := h.ready_at hpc
  simp only [Ctx.go, hpc] at hs
  rcases hx : (c.queues q).tryLock t with _ | x <;> rw [hx] at hs <;> dsimp only at hs
  · obtain ⟨rfl, -⟩ := Prod.mk.inj (Option.some.inj hs)
    exact h.abort c.pc hr.1 le_rfl
  · obtain ⟨ho, rfl⟩ := Queue.tryLock_some hx
    obtain ⟨rfl, -⟩ := Prod.mk.inj (Option.some.inj hs)
    have hL : Laid c.heap ((c.setQueue q ((c.queues q).setOwner (some t))).links t o)
        (c.nodes t o) := by
      rw [links_setOwner]
      exact h.laid
    obtain ⟨ids', hL', hi, hg, hf, hq, hgv, hv⟩ := access_safe (c := c.setQueue q _) hL hr.1 q op
    exact safe_next hL' (fun i => (hi i).imp_right fun hi => .inr ⟨q, hi⟩) hg hgv.ge
      (.setQueue hq ho (.inl rfl)) hf (hv.le.trans (h.readVersion.trans hgv.ge))

theorem Safe.lock (h : c.Safe t o) {q : Q} {op : Op V} {size : Int}
    (hpc : c.pc = .lock q op size) (hs : c.go t rs = some (c', r)) :
    c'.Safe t o ∧ Framed c c' t o := by
  have hr := h.ready_at hpc
  simp only [Ctx.go, hpc] at hs
  rcases hx : (c.queues q).tryLock t with _ | x <;> rw [hx] at hs
  · simp at hs
  · obtain ⟨ho, rfl⟩ := Queue.tryLock_some hx
    obtain ⟨rfl, -⟩ := Prod.mk.inj (Option.some.inj hs)
    exact h.quiet rfl (links_setOwner _ _ _ _ _) le_rfl (.setQueue rfl ho (.inl rfl))
      ⟨hr.1, hr.2, by simp [Owns, setQueue, Queue.setOwner]⟩ h.readVersion

/-- What a call outside of a transaction does under the lock. -/
theorem Safe.single (h : c.Safe t o) {q : Q} {op : Op V} {size : Int}
    (hpc : c.pc = .locked q op size) (hs : c.go t rs = some (c', r)) :
    c'.Safe t o ∧ Framed c c' t o := by
  have hr := h.ready_at hpc
  simp only [Ctx.go, hpc] at hs
  obtain ⟨rfl, -⟩ := Prod.mk.inj (Option.some.inj hs)
  have hupd : c.pc.Writes q → ∀ (l : List NodeId) (i : Q ⊕ (ThreadId × Q)),
      Function.update (c.nodes t o) (.inl q) l i = c.nodes t o i ∨
      (∃ q', i = .inl q' ∧ c.Owns t q' ∧ c.pc.Writes q') ∨ ∃ q', i = .inr (t, q') := fun hw l i => by
    by_cases hi : i = .inl q
    · exact .inr (.inl ⟨q, hi, hr.2.2, hw⟩)
    · exact .inl (Function.update_of_ne hi _ _)
  have hlock : ∀ (c₁ : Ctx Q V) (l : Links),
      c₁.queues = Function.update c.queues q ((c.queues q).setLinks l) →
      Locked c c₁ t ∧ c₁.Owns t q := fun c₁ l he =>
    ⟨.setQueue he (.inl hr.2.2) (.inl hr.2.2), by
      unfold Owns
      rw [he, Function.update_self]
      exact hr.2.2⟩
  cases op with
  | enqueue v =>
    obtain ⟨hl, ho⟩ := hlock (c.single q size (.enqueue v)) _ rfl
    exact safe_next (single_enqueue_laid h.laid q size v) (hupd (by rw [hpc]; rfl) _) (Links.enqueue_grows _ _ _)
      le_rfl hl ⟨hr.1, hr.2.1, ho⟩ h.readVersion
  | dequeue =>
    rcases single_dequeue_cases h.laid q size with ⟨-, he⟩ | ⟨a, B, l, -, he, hL'⟩ <;> rw [he]
    · exact h.quiet rfl rfl le_rfl (.refl c t) hr h.readVersion
    · obtain ⟨hl, ho⟩ := hlock ({ c with pc := .stamp q (.val (c.heap.val a)) }.setQueue q
        ((c.queues q).setLinks l)) _ rfl
      exact safe_next hL' (hupd (by rw [hpc]; rfl) _) (.refl _) le_rfl hl ⟨hr.1, hr.2.1, ho⟩ h.readVersion
  | isEmpty => exact h.quiet rfl rfl le_rfl (.refl c t) hr h.readVersion

theorem Safe.stamp (h : c.Safe t o) {q : Q} {a : Ans V}
    (hpc : c.pc = .stamp q a) (hs : c.go t rs = some (c', r)) :
    c'.Safe t o ∧ Framed c c' t o := by
  have hr := h.ready_at hpc
  simp only [Ctx.go, hpc] at hs
  obtain ⟨rfl, -⟩ := Prod.mk.inj (Option.some.inj hs)
  refine h.quiet rfl (links_setQueue_self _ _ _ _ rfl) le_rfl
    (.setQueue rfl (.inl hr.2.2) (.inl hr.2.2)) ⟨hr.1, hr.2.1, ?_⟩ h.readVersion
  simpa [Owns, setQueue, Queue.stamp] using hr.2.2

theorem Safe.unlock (h : c.Safe t o) {q : Q} {a : Ans V}
    (hpc : c.pc = .unlock q a) (hs : c.go t rs = some (c', r)) :
    c'.Safe t o ∧ Framed c c' t o := by
  have hr := h.ready_at hpc
  simp only [Ctx.go, hpc] at hs
  rcases hx : (c.queues q).unlock t with _ | x <;> rw [hx] at hs
  · simp at hs
  · obtain ⟨ho, rfl⟩ := Queue.unlock_some hx
    obtain ⟨rfl, -⟩ := Prod.mk.inj (Option.some.inj hs)
    exact h.quiet rfl (links_setQueue_self _ _ _ _ rfl) le_rfl
      (.setQueue rfl (.inl ho) (.inr rfl)) hr.1 h.readVersion

/-- `TXend` locks one more queue, or gives up. -/
theorem Safe.lockQueue (h : c.Safe t o) {order rest : List Q} {q : Q}
    (hpc : c.pc = .lockQueues order (q :: rest)) (hs : c.go t rs = some (c', r)) :
    c'.Safe t o ∧ Framed c c' t o := by
  have hr := h.ready_at hpc
  simp only [Ctx.go, hpc] at hs
  obtain ⟨hT, hp, done, rfl, hf, hl⟩ := hr
  rcases hx : (c.queues q).tryLock t with _ | x <;> rw [hx] at hs <;> dsimp only at hs
  · obtain ⟨rfl, -⟩ := Prod.mk.inj (Option.some.inj hs)
    refine h.quiet rfl rfl le_rfl (.refl c t) ⟨?_, fun q' hq' => ?_⟩ h.readVersion
    · exact hp.nodup_iff.2 c.storage.queueMap.keys_nodup
    · exact ⟨List.mem_append_left _ (hf q' hq'), (hl q' (hf q' hq')).2⟩
  · obtain ⟨ho, rfl⟩ := Queue.tryLock_some hx
    obtain ⟨rfl, -⟩ := Prod.mk.inj (Option.some.inj hs)
    have hmem : q ∈ c.storage.queueMap := AList.mem_keys.2 (hp.subset (by simp))
    refine h.quiet rfl ?_ le_rfl (.setQueue rfl ho (.inl rfl)) ?_ h.readVersion
    · refine (links_putQueue_self _ _ _ _ ?_).trans (links_setOwner c t o q _)
      rfl
    · refine ⟨hT, hp.trans (LocalStorage.keys_putQueue _ _ hmem).symm, done ++ [q], by simp,
        fun q' hq' => ?_, fun q' hq' => ?_⟩
      · by_cases hq : q' = q
        · simp [hq]
        · have : (c.storage.lQueue q').isLockedByMe = true := by
            rwa [← LocalStorage.lQueue_putQueue_of_ne _ _ hq]
          exact List.mem_append_left _ (hf q' this)
      · by_cases hq : q' = q
        · subst hq
          simp [putQueue, Owns, setQueue, LocalQueue.setLocked, Queue.setOwner]
        · have hd : q' ∈ done := by simpa [hq] using hq'
          simpa [putQueue, Owns, setQueue, hq, LocalStorage.lQueue_putQueue_of_ne] using hl q' hd

theorem Safe.validateReadSet (h : c.Safe t o) {order : List Q}
    (hpc : c.pc = .validateReadSet order) (hs : c.go t rs = some (c', r)) :
    c'.Safe t o ∧ Framed c c' t o := by
  have hr := h.ready_at hpc
  simp only [Ctx.go, hpc] at hs
  cases rs with
  | valid =>
    obtain ⟨rfl, -⟩ := Prod.mk.inj (Option.some.inj hs)
    exact h.quiet rfl rfl le_rfl (.refl c t) ⟨hr.1, hr.2, List.suffix_rfl⟩ h.readVersion
  | changed =>
    obtain ⟨rfl, -⟩ := Prod.mk.inj (Option.some.inj hs)
    exact h.quiet rfl rfl le_rfl (.refl c t) hr.2.unlocks h.readVersion
  | marked =>
    obtain ⟨rfl, -⟩ := Prod.mk.inj (Option.some.inj hs)
    exact h.quiet rfl rfl (Nat.le_succ _) (.refl c t) hr.2.unlocks
      (h.readVersion.trans (Nat.le_succ _))

theorem Safe.validateQueue (h : c.Safe t o) {order rest : List Q} {q : Q}
    (hpc : c.pc = .validateQueues order (q :: rest)) (hs : c.go t rs = some (c', r)) :
    c'.Safe t o ∧ Framed c c' t o := by
  have hr := h.ready_at hpc
  simp only [Ctx.go, hpc] at hs
  split_ifs at hs
  · obtain ⟨rfl, -⟩ := Prod.mk.inj (Option.some.inj hs)
    exact h.quiet rfl rfl le_rfl (.refl c t) hr.2.1.unlocks h.readVersion
  · obtain ⟨rfl, -⟩ := Prod.mk.inj (Option.some.inj hs)
    exact h.quiet rfl rfl (Nat.le_succ _) (.refl c t) hr.2.1.unlocks
      (h.readVersion.trans (Nat.le_succ _))
  · obtain ⟨rfl, -⟩ := Prod.mk.inj (Option.some.inj hs)
    exact h.quiet rfl rfl le_rfl (.refl c t)
      ⟨hr.1, hr.2.1, (List.suffix_cons q rest).trans hr.2.2⟩ h.readVersion

theorem Safe.increment (h : c.Safe t o) {order : List Q}
    (hpc : c.pc = .increment order) (hs : c.go t rs = some (c', r)) :
    c'.Safe t o ∧ Framed c c' t o := by
  have hr := h.ready_at hpc
  simp only [Ctx.go, hpc] at hs
  split_ifs at hs
  · obtain ⟨rfl, -⟩ := Prod.mk.inj (Option.some.inj hs)
    exact h.quiet rfl rfl le_rfl (.refl c t) ⟨hr.1, hr.2, List.suffix_rfl⟩ h.readVersion
  · obtain ⟨rfl, -⟩ := Prod.mk.inj (Option.some.inj hs)
    exact h.quiet rfl rfl (Nat.le_succ _) (.refl c t) ⟨hr.1, hr.2, List.suffix_rfl⟩
      (h.readVersion.trans (Nat.le_succ _))

/-- `TXend` unlocks one more queue that it has locked. -/
theorem Safe.unlockQueue (h : c.Safe t o) {abort : Bool} {rest : List Q} {q : Q}
    (hpc : c.pc = .unlockQueues abort (q :: rest)) (hs : c.go t rs = some (c', r)) :
    c'.Safe t o ∧ Framed c c' t o := by
  have hr := h.ready_at hpc
  simp only [Ctx.go, hpc] at hs
  have hmem : ∀ q', q' ≠ q → q' ∈ q :: rest → q' ∈ rest := fun q' hq hm =>
    (List.mem_cons.1 hm).resolve_left hq
  split_ifs at hs with hf
  · rcases hx : (c.queues q).unlock t with _ | x <;> rw [hx] at hs
    · simp at hs
    · obtain ⟨ho, rfl⟩ := Queue.unlock_some hx
      obtain ⟨rfl, -⟩ := Prod.mk.inj (Option.some.inj hs)
      refine h.quiet rfl ?_ le_rfl (.setQueue rfl (.inl ho) (.inr rfl))
        ⟨(List.nodup_cons.1 hr.1).2, fun q' hq' => ?_⟩ h.readVersion
      · refine (links_putQueue_self _ _ _ _ ?_).trans (links_setOwner c t o q _)
        rfl
      · by_cases hq : q' = q
        · subst hq
          simp [putQueue, LocalQueue.setLocked] at hq'
        · have hfl : (c.storage.lQueue q').isLockedByMe = true := by
            rwa [← LocalStorage.lQueue_putQueue_of_ne _ _ hq]
          obtain ⟨hm, hown⟩ := hr.2 q' hfl
          exact ⟨hmem q' hq hm, by simpa [Owns, setQueue, putQueue, hq] using hown⟩
  · obtain ⟨rfl, -⟩ := Prod.mk.inj (Option.some.inj hs)
    refine h.quiet rfl rfl le_rfl (.refl c t)
      ⟨(List.nodup_cons.1 hr.1).2, fun q' hq' => ?_⟩ h.readVersion
    obtain ⟨hm, hown⟩ := hr.2 q' hq'
    exact ⟨hmem q' (by rintro rfl; exact hf hq') hm, hown⟩

/-- After the last queue the thread's own part is cleared. -/
theorem Safe.cleanup (h : c.Safe t o) {abort : Bool}
    (hpc : c.pc = .unlockQueues abort []) (hs : c.go t rs = some (c', r)) :
    c'.Safe t o ∧ Framed c c' t o := by
  have hr := h.ready_at hpc
  simp only [Ctx.go, hpc] at hs
  obtain ⟨rfl, -⟩ := Prod.mk.inj (Option.some.inj hs)
  refine safe_next (cleanup_laid h.laid) (fun i => ?_) (.refl _) le_rfl (.refl c t)
    (fun _ => rfl) h.readVersion
  rcases i with q | ⟨u, q⟩
  · exact .inl rfl
  · by_cases hu : u = t
    · exact .inr (.inr ⟨q, by rw [hu]⟩)
    · exact .inl (by simp [hu])

/-- A piece in which the thread's call ends or goes on. -/
theorem Safe.go (h : c.Safe t o) (hs : c.go t rs = some (c', r)) :
    c'.Safe t o ∧ Framed c c' t o := by
  rcases hpc : c.pc with _ | ⟨q, op⟩ | ⟨q, op, size⟩ | ⟨q, op, size⟩ | ⟨q, a⟩ | ⟨q, a⟩ |
    ⟨order, _ | ⟨q, rest⟩⟩ | order | ⟨order, _ | ⟨q, rest⟩⟩ | order |
    ⟨part, wv, order, _ | ⟨q, rest⟩⟩ | ⟨abort, _ | ⟨q, rest⟩⟩
  case idle => simp [Ctx.go, hpc] at hs
  case tryLock => exact h.tryLock hpc hs
  case lock => exact h.lock hpc hs
  case locked => exact h.single hpc hs
  case stamp => exact h.stamp hpc hs
  case unlock => exact h.unlock hpc hs
  case lockQueues.nil =>
    have hr := h.ready_at hpc
    simp only [Ctx.go, hpc] at hs
    obtain ⟨rfl, -⟩ := Prod.mk.inj (Option.some.inj hs)
    obtain ⟨hT, hp, done, rfl, -, hl⟩ := hr
    rw [List.append_nil] at hp ⊢
    exact h.quiet rfl rfl le_rfl (.refl c t) ⟨hT, hp, hl⟩ h.readVersion
  case lockQueues.cons => exact h.lockQueue hpc hs
  case validateReadSet => exact h.validateReadSet hpc hs
  case validateQueues.nil =>
    have hr := h.ready_at hpc
    simp only [Ctx.go, hpc] at hs
    obtain ⟨rfl, -⟩ := Prod.mk.inj (Option.some.inj hs)
    exact h.quiet rfl rfl le_rfl (.refl c t) ⟨hr.1, hr.2.1⟩ h.readVersion
  case validateQueues.cons => exact h.validateQueue hpc hs
  case increment => exact h.increment hpc hs
  case publish.nil =>
    have hr := h.ready_at hpc
    simp only [Ctx.go, hpc] at hs
    obtain ⟨rfl, -⟩ := Prod.mk.inj (Option.some.inj hs)
    exact h.quiet rfl rfl le_rfl (.refl c t) hr.2.1.unlocks h.readVersion
  case publish.cons =>
    simp only [Ctx.go, hpc] at hs
    exact h.publish hpc hs
  case unlockQueues.nil => exact h.cleanup hpc hs
  case unlockQueues.cons => exact h.unlockQueue hpc hs

/-- A thread in a call goes on with it. -/
theorem step_go (hpc : c.pc ≠ .idle) {e : Ev Q V} {r : Option (Ret V)}
    (hs : c.step t e = some (c', r)) : ∃ rs, e = .go rs ∧ c.go t rs = some (c', r) := by
  unfold Ctx.step at hs
  split at hs
  · exact ⟨_, rfl, hs⟩
  · rename_i hidle
    exact absurd hidle hpc
  · simp at hs

theorem Safe.step (h : c.Safe t o) {e : Ev Q V} {r : Option (Ret V)}
    (hs : c.step t e = some (c', r)) : c'.Safe t o ∧ Framed c c' t o := by
  unfold Ctx.step at hs
  split at hs
  · exact h.go hs
  · rename_i hpc
    exact h.start hpc hs
  · simp at hs

theorem start_isSome (hpc : c.pc = .idle) {e : Ev Q V} (he : c.Fits e) :
    (c.start e).isSome := by
  unfold Fits at he
  rw [hpc] at he
  cases e with
  | txBegin => rfl
  | listWrite | listAbort =>
    simp only at he
    simp [Ctx.start, he]
  | call q op =>
    simp only [Ctx.start]
    split_ifs
    · split
      · rfl
      · cases op <;> rfl
    · rfl
  | txEnd order locks =>
    simp only at he
    simp only [Ctx.start, if_pos he]
    split_ifs <;> rfl
  | go rs => exact he.elim

theorem Safe.go_some (h : c.Safe t o) (hpc : c.pc ≠ .idle) (hw : ¬ c.Waits t) (rs : ReadSet) :
    (c.go t rs).isSome := by
  have hr := h.ready
  unfold Ctx.go
  rcases hc : c.pc with _ | ⟨q, op⟩ | ⟨q, op, size⟩ | ⟨q, op, size⟩ | ⟨q, a⟩ | ⟨q, a⟩ |
    ⟨order, _ | ⟨q, rest⟩⟩ | order | ⟨order, _ | ⟨q, rest⟩⟩ | order |
    ⟨part, wv, order, _ | ⟨q, rest⟩⟩ | ⟨abort, _ | ⟨q, rest⟩⟩ <;>
    rw [hc] at hr <;> dsimp only
  case idle => exact absurd hc hpc
  case tryLock => split <;> rfl
  case lock =>
    rcases hx : (c.queues q).tryLock t with _ | x
    · obtain ⟨u, hu, ho⟩ := Queue.tryLock_none hx
      exact absurd ⟨q, op, size, u, hc, ho, hu⟩ hw
    · rfl
  case locked => rfl
  case stamp => rfl
  case unlock =>
    have ho : (c.queues q).owner = some t := hr.2.2
    simp [Queue.unlock, ho]
  case lockQueues.nil => rfl
  case lockQueues.cons => split <;> rfl
  case validateReadSet => cases rs <;> rfl
  case validateQueues.nil => rfl
  case validateQueues.cons => split_ifs <;> rfl
  case increment =>
    rw [if_pos (Nat.lt_succ_of_le h.readVersion)]
    split_ifs <;> rfl
  case publish.nil => rfl
  case publish.cons =>
    cases part with
    | dequeueNodes =>
      obtain ⟨l, k, he, -⟩ := publish_dequeueNodes h.laid q wv
      rw [he]
      rfl
    | enqueueNodes =>
      obtain ⟨h', l, l', new, he, -⟩ := publish_enqueueNodes h.laid q wv
      rw [he]
      rfl
    | setVersion => rfl
  case unlockQueues.nil => rfl
  case unlockQueues.cons =>
    split_ifs with hf
    · have ho : (c.queues q).owner = some t := (hr.2 q hf).2
      simp [Queue.unlock, ho]
    · rfl

/-- A thread stops only where it waits for a lock. -/
theorem Safe.step_isSome (h : c.Safe t o) {e : Ev Q V} (he : c.Fits e) :
    (c.step t e).isSome ↔ ¬ c.Waits t := by
  constructor
  · rintro hs ⟨q, op, size, u, hpc, ho, hu⟩
    unfold Ctx.step at hs
    split at hs
    · unfold Ctx.go at hs
      rw [hpc] at hs
      have hx : (c.queues q).tryLock t = none := by
        simp [Queue.tryLock, ho, hu]
      simp [hx] at hs
    · rename_i hidle
      rw [hpc] at hidle
      simp at hidle
    · simp at hs
  · intro hw
    by_cases hpc : c.pc = .idle
    · have hstart := start_isSome hpc he
      unfold Ctx.step
      rw [hpc]
      cases e with
      | go rs => simp [Fits, hpc] at he
      | txBegin | listWrite | listAbort | call | txEnd => exact hstart
    · cases e with
      | go rs => exact h.go_some hpc hw rs
      | txBegin | listWrite | listAbort | call | txEnd =>
        unfold Fits at he
        split at he <;> simp_all

end Step

end Ctx

/-!
The whole system.
-/

namespace Sys

variable {s : Sys Q V} {t : ThreadId}

/-- The local queues' lists. -/
def locals (s : Sys Q V) (p : ThreadId × Q) : Links := ((s.threads p.1).storage.lQueue p.2).toLinks

structure Safe (s : Sys Q V) : Prop where
  laid : Laid s.heap s.links s.nodes
  ready : ∀ t, Ready (s.threads t).storage (fun q => (s.queues q).owner = some t) (s.threads t).pc
  readVersion : ∀ t, (s.threads t).storage.readVersion ≤ s.gvc

theorem links_ctx (s : Sys Q V) (t : ThreadId) : (s.ctx t).links t s.locals = s.links := by
  funext i
  rcases i with q | ⟨u, q⟩
  · rfl
  · by_cases hu : u = t
    · subst hu
      exact if_pos rfl
    · exact if_neg hu

theorem nodes_ctx (s : Sys Q V) (t : ThreadId) : (s.ctx t).nodes t s.locals = s.nodes := by
  funext i
  unfold Ctx.nodes Sys.nodes
  rw [links_ctx]
  rfl

omit [DecidableEq Q] in
theorem threads_put_self (c : Ctx Q V) : (s.put t c).threads t = ⟨c.storage, c.pc⟩ :=
  Function.update_self _ _ _

omit [DecidableEq Q] in
theorem threads_put_of_ne {u : ThreadId} (hu : u ≠ t) (c : Ctx Q V) :
    (s.put t c).threads u = s.threads u :=
  Function.update_of_ne hu _ _

theorem links_put (c : Ctx Q V) : (s.put t c).links = c.links t s.locals := by
  funext i
  rcases i with q | ⟨u, q⟩
  · rfl
  · by_cases hu : u = t
    · subst hu
      rw [Ctx.links_inr]
      simp only [Sys.links, Sum.elim_inr, threads_put_self]
    · simp [Sys.links, Ctx.links, Sys.locals, threads_put_of_ne hu, hu]

theorem nodes_put (c : Ctx Q V) : (s.put t c).nodes = c.nodes t s.locals := by
  funext i
  unfold Ctx.nodes Sys.nodes
  rw [links_put]
  rfl

theorem Safe.ctx (h : s.Safe) (t : ThreadId) : (s.ctx t).Safe t s.locals where
  laid := by
    rw [links_ctx, nodes_ctx]
    exact h.laid
  ready := h.ready t
  readVersion := h.readVersion t

/-- A step of one thread keeps what holds of all. -/
theorem Safe.step (h : s.Safe) {e : Ev Q V} {c : Ctx Q V} {r : Option (Ret V)}
    (hs : (s.ctx t).step t e = some (c, r)) :
    (s.put t c).Safe ∧ Ctx.Framed (s.ctx t) c t s.locals := by
  obtain ⟨hc, hf⟩ := (h.ctx t).step hs
  refine ⟨⟨?_, fun u => ?_, fun u => ?_⟩, hf⟩
  · rw [links_put, nodes_put]
    exact hc.laid
  · by_cases hu : u = t
    · subst hu
      rw [threads_put_self]
      exact hc.ready
    · rw [threads_put_of_ne hu]
      exact (h.ready u).mono fun q ho => (hf.owner q u hu).2 ho
  · by_cases hu : u = t
    · subst hu
      rw [threads_put_self]
      exact hc.readVersion
    · rw [threads_put_of_ne hu]
      exact (h.readVersion u).trans hf.gvc

/-- A step changes no queue but one that its thread has locked. -/
theorem Safe.contents_put (h : s.Safe) {e : Ev Q V} {q : Q} {c : Ctx Q V} {r : Option (Ret V)}
    (hs : (s.ctx t).step t e = some (c, r))
    (hq : ¬ ((s.ctx t).Owns t q ∧ (s.ctx t).pc.Writes q)) :
    (s.put t c).contents q = s.contents q := by
  obtain ⟨-, hf⟩ := h.step hs
  have hn : (s.put t c).nodes (.inl q) = s.nodes (.inl q) := by
    rw [nodes_put, hf.nodes q hq, nodes_ctx]
  unfold contents
  rw [hn]
  exact h.laid.vals_of_grows hf.grows (.inl q)

theorem Safe.init [Inhabited V] : (Sys.init : Sys Q V).Safe := by
  have hlinks : (Sys.init : Sys Q V).links = fun _ => {} := by
    funext i
    rcases i with q | ⟨u, q⟩ <;> rfl
  have hnodes : (Sys.init : Sys Q V).nodes = fun _ => [] := by
    funext i
    unfold Sys.nodes
    rw [hlinks]
    rfl
  refine ⟨?_, fun t q => rfl, fun t => le_rfl⟩
  rw [hlinks, hnodes]
  exact .init

end Sys

namespace Conf

variable {G : Conf Q V → ThreadId → Ev Q V → Prop} {C C' : Conf Q V}

theorem Run.head {t : ThreadId} {e : Ev Q V} {c : Ctx Q V} {r : Option (Ret V)} (hG : G C t e)
    (hs : (C.sys.ctx t).step t e = some (c, r)) (h : Run G (C.next t e c r) C') : Run G C C' := by
  induction h with
  | refl => exact .step .refl hG hs
  | step _ hG' hs' ih => exact ih.step hG' hs'

theorem Run.of_run [∀ (C : Conf Q V) t e, Decidable (G C t e)] :
    ∀ {es : List (ThreadId × Ev Q V)} {C : Conf Q V}, C.run G es = some C' → Run G C C'
  | [], C, h => Option.some.inj h ▸ .refl
  | (t, e) :: es, C, h => by
    unfold run at h
    split_ifs at h with hG
    split at h
    · rename_i c r hs
      exact .head hG hs (of_run h)
    · simp at h

/-- A script that can be run leads to a configuration. -/
theorem exists_run [∀ (C : Conf Q V) t e, Decidable (G C t e)] {es : List (ThreadId × Ev Q V)}
    {p : Conf Q V → Bool} (h : (C.run G es).any p = true) : ∃ C', Run G C C' ∧ p C' = true := by
  obtain ⟨C', hC', hp⟩ := (Option.any_eq_true _ _).1 h
  exact ⟨C', .of_run hC', hp⟩

theorem Run.safe (h : Run G C C') (hs : C.sys.Safe) : C'.sys.Safe := by
  induction h with
  | refl => exact hs
  | step _ _ hstep ih => exact (ih.step hstep).1

/-- In every run each queue and each local queue is a linked list of the right size, no node is on two
of them, and every thread can take its next step unless it waits for a lock that another holds. -/
theorem Reach.lists_and_steps [Inhabited V] (h : Reach G C) :
    Laid C.sys.heap C.sys.links C.sys.nodes ∧ ∀ (t : ThreadId) (e : Ev Q V),
      (C.sys.ctx t).Fits e → (((C.sys.ctx t).step t e).isSome ↔ ¬ (C.sys.ctx t).Waits t) := by
  have hs := Run.safe h .init
  exact ⟨hs.laid, fun t e he => (hs.ctx t).step_isSome he⟩

/-- Thread 0 waits for the lock that thread 1 took for its transaction. -/
theorem Reach.lists_and_steps_wait : ∃ C : Conf Nat Nat, Reach (fun _ _ _ => True) C ∧
    C.sys.contents 0 = [5] ∧ ((C.sys.ctx 0).step 0 (.go .valid)).isSome = false := by
  have hrun : ((Conf.init : Conf Nat Nat).run (fun _ _ _ => True)
      [(0, .call 0 (.enqueue 5)), (0, .go .valid), (0, .go .valid), (0, .go .valid),
        (0, .go .valid), (1, .txBegin), (1, .call 0 .dequeue), (1, .txEnd [] true),
        (1, .go .valid), (1, .txBegin), (1, .call 0 .dequeue), (1, .go .valid),
        (0, .call 0 .dequeue)]).any
      (fun C => decide (C.sys.contents 0 = [5] ∧ (C.sys.threads 0).pc = .lock 0 .dequeue 1 ∧
        (C.sys.queues 0).owner = some 1)) = true := by decide
  obtain ⟨C, hC, hp⟩ := exists_run hrun
  obtain ⟨hc, hpc, ho⟩ := of_decide_eq_true hp
  refine ⟨C, hC, hc, Bool.eq_false_iff.2 fun hs => ?_⟩
  have hfits : (C.sys.ctx 0).Fits (.go .valid) := by
    unfold Ctx.Fits
    rw [show (C.sys.ctx 0).pc = _ from hpc]
    trivial
  exact ((Reach.lists_and_steps hC).2 0 _ hfits).1 hs ⟨0, .dequeue, 1, 1, hpc, ho, by decide⟩

end Conf

end TxQueue
