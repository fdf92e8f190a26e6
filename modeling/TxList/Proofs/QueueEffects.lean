import TxList.Proofs.QueueRuns
import TxList.QueueView

/-!
# What takes effect, and when

Each committed transaction takes effect at one step, the one after `TXend` has locked and validated
all its queues, and each call outside of a transaction takes effect while it has the lock: whenever a
queue is not being published, it holds what the blocks in this order leave (`Inv`). A transaction that
has looked at a queue has its lock, so the queue stays as it was until the transaction takes effect;
one that has only enqueued does not depend on the queue.
-/

namespace TxQueue

open Chain
open Fifo (Op Ans)

variable {Q V : Type} [DecidableEq Q]

/-- The thread's transaction is running: it neither was aborted nor took effect. -/
def Local.Live (x : Local Q V) : Prop :=
  x.storage.TX = true ∧ match x.pc with
    | .publish _ _ _ _ | .unlockQueues _ _ => False
    | _ => True

section Views

variable (h : Heap V) (nodes : Q ⊕ (ThreadId × Q) → List NodeId) (st : LocalStorage Q) (t : ThreadId)

/-- The thread's local queue, and its place in the queue, are those of the view. -/
structure Sees (q : Q) (w : View V) : Prop where
  mine : w.mine = (nodes (.inr (t, q))).map h.val
  first : (st.lQueue q).firstDeq = true ↔ w.taken = 0
  place : (st.lQueue q).nodeToDeq = if w.taken = 0 then none else (nodes (.inl q))[w.taken - 1]?

/-- Nothing of the publication of `q` has been done, and it will leave `L`. -/
def Pending (L : List V) (q : Q) : Prop :=
  ∃ k, ((st.lQueue q).nodeToDeq = none ∧ k = 0 ∨ ∃ (j : Nat) (hj : j < (nodes (.inl q)).length),
      (st.lQueue q).nodeToDeq = some (nodes (.inl q))[j] ∧ k = j + 1) ∧
    ((nodes (.inl q)).map h.val).drop k ++ (nodes (.inr (t, q))).map h.val = L

/-- What the rest of the publication leaves of the queues is `now`. -/
def Due (now : Q → List V) : Pc Q V → Prop
  | .publish part _ _ (q :: rest) => (∀ q' ∈ rest, Pending h nodes st t (now q') q') ∧
    match part with
    | .dequeueNodes => Pending h nodes st t (now q) q
    | .enqueueNodes => (nodes (.inl q)).map h.val ++ (nodes (.inr (t, q))).map h.val = now q
    | .setVersion => (nodes (.inl q)).map h.val = now q
  | _ => True

variable {h nodes st t}

/-- What a view leaves is what its publication will leave. -/
theorem Sees.pending {q : Q} {w : View V} (hw : Sees h nodes st t q w)
    (hall : w.all = (nodes (.inl q)).map h.val) : Pending h nodes st t w.leaves q := by
  have hlen : w.all.length = (nodes (.inl q)).length := by rw [hall, List.length_map]
  have hplace := hw.place
  unfold View.leaves
  rcases Nat.eq_zero_or_pos w.taken with h₀ | hpos
  · rw [if_pos h₀] at hplace
    refine ⟨0, .inl ⟨hplace, rfl⟩, ?_⟩
    rw [if_pos (by omega), h₀, hall, hw.mine]
  · rw [if_neg hpos.ne'] at hplace
    split_ifs with hle
    · refine ⟨w.taken, .inr ⟨w.taken - 1, by omega, ?_, by omega⟩, ?_⟩
      · rw [hplace, List.getElem?_eq_getElem (by omega)]
      · rw [hall, hw.mine]
    · refine ⟨0, .inl ⟨?_, rfl⟩, ?_⟩
      · rw [hplace, List.getElem?_eq_none (by omega)]
      · rw [List.drop_zero, hall, hw.mine]

end Views

/-- The thread's calls on `q` are those of a view of what is in it, and the thread has the lock of `q`
unless it has only enqueued. `P`: the answers are those of a first-in first-out queue. -/
def Viewed (P : Prop) (s : Sys Q V) (rs : List (Rec Q V)) (now : Q → List V) (t : ThreadId)
    (q : Q) : Prop :=
  ∃ w, Plays View.run (on q rs) ⟨now q, 0, []⟩ w ∧
    Sees s.heap s.nodes (s.threads t).storage t q w ∧
    ((s.queues q).owner = some t ∨ ∀ r ∈ on q rs, ∃ v, r.1 = .enqueue v) ∧
    (P → w.Straight ∧ Plays Fifo.run (on q rs) (now q) w.contents)

/-- `now` is what is in the queues when what has taken effect is published. -/
structure Inv (P : Prop) (C : Conf Q V) (now : Q → List V) : Prop where
  safe : C.sys.Safe
  leaves : ∀ q, Follows (Block.Leaves q) C.hist.log [] (now q)
  settled : ∀ q, (∀ t, ¬ C.sys.Publishes t q) → C.sys.contents q = now q
  due : ∀ t, Due C.sys.heap C.sys.nodes (C.sys.threads t).storage t now (C.sys.threads t).pc
  views : ∀ t, (C.sys.threads t).Live → ∀ q, Viewed P C.sys (C.hist.recs t) now t q
  fifo : P → ∀ q, Follows (Block.Fifo q) C.hist.log [] (now q)

section Others

variable {s : Sys Q V} {u t : ThreadId} {c : Ctx Q V} {now now' : Q → List V} {q : Q}

/-- A thread that publishes `q` has its lock. -/
theorem Sys.Safe.owner_of_publishes (h : s.Safe) (hp : s.Publishes t q) :
    (s.queues q).owner = some t := by
  obtain ⟨part, wv, order, rest, hpc, hq⟩ := hp
  have hr := h.ready t
  rw [hpc] at hr
  exact (hr.2.1.2 q (hr.2.2.subset hq)).2

theorem Sys.Safe.vals_inr (h : s.Safe) (hf : Ctx.Framed (s.ctx u) c u s.locals) (ht : t ≠ u)
    (q : Q) : (s.put u c).nodes (.inr (t, q)) = s.nodes (.inr (t, q)) ∧
      (s.nodes (.inr (t, q))).map c.heap.val = (s.nodes (.inr (t, q))).map s.heap.val := by
  refine ⟨?_, h.laid.vals_of_grows hf.grows _⟩
  rw [Sys.nodes_put, hf.others (t, q) ht, Sys.nodes_ctx]

theorem Sys.Safe.vals_inl (h : s.Safe) (hf : Ctx.Framed (s.ctx u) c u s.locals)
    (hq : ¬ ((s.queues q).owner = some u ∧ (s.threads u).pc.Writes q)) :
    (s.put u c).nodes (.inl q) = s.nodes (.inl q) ∧
      (s.nodes (.inl q)).map c.heap.val = (s.nodes (.inl q)).map s.heap.val := by
  refine ⟨?_, h.laid.vals_of_grows hf.grows _⟩
  rw [Sys.nodes_put, hf.nodes q hq, Sys.nodes_ctx]

/-- What another thread's transaction sees is kept. -/
theorem Viewed.other {P : Prop} {rs : List (Rec Q V)} (hv : Viewed P s rs now t q) (hs : s.Safe)
    (hf : Ctx.Framed (s.ctx u) c u s.locals) (ht : t ≠ u)
    (hnow : (s.queues q).owner ≠ some u → now' q = now q) :
    Viewed P (s.put u c) rs now' t q := by
  obtain ⟨w, hw, hsees, hown, hP⟩ := hv
  obtain ⟨hn, hval⟩ := hs.vals_inr hf ht q
  have hst : ((s.put u c).threads t).storage = (s.threads t).storage := by
    rw [Sys.threads_put_of_ne ht]
  have hmine : w.mine = ((s.put u c).nodes (.inr (t, q))).map (s.put u c).heap.val := by
    rw [hn]
    exact hsees.mine.trans hval.symm
  rcases hown with ho | henq
  · have hne : (s.queues q).owner ≠ some u := by
      rw [ho]
      exact fun h => ht (Option.some.inj h)
    refine ⟨w, hnow hne ▸ hw, ⟨hmine, hst ▸ hsees.first, ?_⟩, .inl ((hf.owner q t ht).2 ho), ?_⟩
    · rw [hst, (hs.vals_inl hf fun h => hne h.1).1]
      exact hsees.place
    · rw [hnow hne]
      exact hP
  · obtain ⟨htaken, hplays⟩ := View.plays_enqueues henq hw
    refine ⟨⟨now' q, 0, w.mine⟩, hplays _, ⟨hmine, ?_, ?_⟩, .inr henq, fun _ => ⟨.inr (Nat.zero_le _), ?_⟩⟩
    · rw [hst, hsees.first, htaken]
    · rw [hst, hsees.place, htaken]
      rfl
    · have := (hplays (now' q)).map Fifo.run View.contents fun rs₁ r rs₂ w' he _ =>
        w'.run_contents fun hop => by
          obtain ⟨v, hv⟩ := henq r (by rw [he]; simp)
          rw [hop] at hv
          simp at hv
      simpa [View.contents] using this

theorem Pending.congr {h h' : Heap V} {nodes nodes' : Q ⊕ (ThreadId × Q) → List NodeId}
    {st st' : LocalStorage Q} {L : List V} (hp : Pending h nodes st t L q)
    (hst : (st'.lQueue q).nodeToDeq = (st.lQueue q).nodeToDeq)
    (hl : nodes' (.inl q) = nodes (.inl q)) (hr : nodes' (.inr (t, q)) = nodes (.inr (t, q)))
    (hvl : (nodes (.inl q)).map h'.val = (nodes (.inl q)).map h.val)
    (hvr : (nodes (.inr (t, q))).map h'.val = (nodes (.inr (t, q))).map h.val) :
    Pending h' nodes' st' t L q := by
  unfold Pending
  rw [hst, hl, hr, hvl, hvr]
  exact hp

/-- What another thread has to publish is kept. -/
theorem Due.other (hd : Due s.heap s.nodes (s.threads t).storage t now (s.threads t).pc)
    (hs : s.Safe) (hf : Ctx.Framed (s.ctx u) c u s.locals) (ht : t ≠ u)
    (hnow : ∀ q, (s.queues q).owner ≠ some u → now' q = now q) :
    Due c.heap (s.put u c).nodes ((s.put u c).threads t).storage t now'
      ((s.put u c).threads t).pc := by
  rw [Sys.threads_put_of_ne ht]
  have hr := hs.ready t
  have hother : ∀ q', (s.queues q').owner = some t → now' q' = now q' ∧
      (s.put u c).nodes (.inl q') = s.nodes (.inl q') ∧
      (s.nodes (.inl q')).map c.heap.val = (s.nodes (.inl q')).map s.heap.val := fun q' ho => by
    have hne : (s.queues q').owner ≠ some u := by
      rw [ho]
      exact fun h => ht (Option.some.inj h)
    exact ⟨hnow q' hne, hs.vals_inl hf fun h => hne h.1⟩
  have hpend : ∀ q', (s.queues q').owner = some t →
      Pending s.heap s.nodes (s.threads t).storage t (now q') q' →
      Pending c.heap (s.put u c).nodes (s.threads t).storage t (now' q') q' := fun q' ho hp => by
    obtain ⟨hn, hl, hvl⟩ := hother q' ho
    obtain ⟨hr, hvr⟩ := hs.vals_inr hf ht q'
    rw [hn]
    exact hp.congr rfl hl hr hvl hvr
  revert hd hr
  rcases (s.threads t).pc with _ | _ | _ | _ | _ | _ | _ | _ | _ | _ | ⟨part, wv, order, _ | ⟨q', rest⟩⟩ | _ <;>
    intro hd hr <;> try trivial
  have hown : ∀ q'' ∈ q' :: rest, (s.queues q'').owner = some t := fun q'' hq'' =>
    (hr.2.1.2 q'' (hr.2.2.subset hq'')).2
  obtain ⟨hn, hl, hvl⟩ := hother q' (hown q' List.mem_cons_self)
  obtain ⟨hr', hvr⟩ := hs.vals_inr hf ht q'
  refine ⟨fun q'' hq'' => hpend q'' (hown q'' (List.mem_cons_of_mem _ hq'')) (hd.1 q'' hq''), ?_⟩
  cases part with
  | dequeueNodes => exact hpend q' (hown q' List.mem_cons_self) hd.2
  | enqueueNodes =>
    show _ ++ _ = _
    rw [hl, hr', hvl, hvr, hn]
    exact hd.2
  | setVersion =>
    show _ = _
    rw [hl, hvl, hn]
    exact hd.2

end Others

omit [DecidableEq Q] in
theorem Hist.step_recs_of_ne (h : Hist Q V) {t u : ThreadId} (hu : u ≠ t) (e : Ev Q V)
    (c c' : Ctx Q V) (r : Option (Ret V)) : (h.step t e c c' r).recs u = h.recs u := by
  unfold Hist.step
  split
  · exact Function.update_of_ne hu _ _
  · exact Function.update_of_ne hu _ _
  · split_ifs <;> rfl
  · exact Function.update_of_ne hu _ _
  · split <;> rfl
  · rfl
  · rfl

omit [DecidableEq Q] in
theorem Pc.not_publishes_of_not_writes {s : Sys Q V} {t : ThreadId}
    (hw : ∀ q, ¬ (s.threads t).pc.Writes q) (q : Q) : ¬ s.Publishes t q := by
  rintro ⟨part, wv, order, rest, hpc, hq⟩
  cases rest with
  | nil => simp at hq
  | cons q' rest =>
    refine hw q' ?_
    rw [hpc]
    rfl

namespace Inv

variable {P : Prop} {C : Conf Q V} {now now' : Q → List V} {t : ThreadId} {e : Ev Q V} {c : Ctx Q V}
  {r : Option (Ret V)}

/-- A step of `t`: what is to be shown of `t` and of the queues that it has locked. -/
theorem next (h : Inv P C now) (hs : (C.sys.ctx t).step t e = some (c, r))
    (hnow : ∀ q, (C.sys.queues q).owner ≠ some t → now' q = now q)
    (hleaves : ∀ q, Follows (Block.Leaves q) (C.next t e c r).hist.log [] (now' q))
    (hfifo : P → ∀ q, Follows (Block.Fifo q) (C.next t e c r).hist.log [] (now' q))
    (hsettled : ∀ q, (C.sys.queues q).owner = some t → ¬ (C.next t e c r).sys.Publishes t q →
      (C.next t e c r).sys.contents q = now' q)
    (hdue : Due c.heap (C.sys.put t c).nodes c.storage t now' c.pc)
    (hview : (⟨c.storage, c.pc⟩ : Local Q V).Live →
      ∀ q, Viewed P (C.sys.put t c) ((C.next t e c r).hist.recs t) now' t q) :
    Inv P (C.next t e c r) now' := by
  obtain ⟨hsafe, hf⟩ := h.safe.step hs
  refine ⟨hsafe, hleaves, fun q hq => ?_, fun u => ?_, fun u hu q => ?_, hfifo⟩
  · by_cases ho : (C.sys.queues q).owner = some t
    · exact hsettled q ho (hq t)
    · rw [hnow q ho, ← h.settled q fun u hp => ?_]
      · exact h.safe.contents_put hs fun hw => ho hw.1
      · have hut : u ≠ t := by
          rintro rfl
          exact ho (h.safe.owner_of_publishes hp)
        refine hq u ?_
        unfold Sys.Publishes at hp ⊢
        rwa [show (C.next t e c r).sys.threads u = _ from Sys.threads_put_of_ne hut c]
  · by_cases hu : u = t
    · subst hu
      rw [show (C.next u e c r).sys.threads u = _ from Sys.threads_put_self c]
      exact hdue
    · exact (h.due u).other h.safe hf hu hnow
  · by_cases hut : u = t
    · subst hut
      rw [show (C.next u e c r).sys.threads u = _ from Sys.threads_put_self c] at hu
      exact hview hu q
    · rw [show (C.next t e c r).sys.threads u = _ from Sys.threads_put_of_ne hut c] at hu
      have hv := (h.views u hu q).other h.safe hf hut (hnow q)
      rwa [show (C.next t e c r).hist.recs u = _ from Hist.step_recs_of_ne _ hut _ _ _ _]

/-- The thread's local queues and locks are as they were. -/
structure Still (c c' : Ctx Q V) (t : ThreadId) : Prop where
  live : (⟨c.storage, c.pc⟩ : Local Q V).Live
  first : ∀ q, (c'.storage.lQueue q).firstDeq = (c.storage.lQueue q).firstDeq
  place : ∀ q, (c'.storage.lQueue q).nodeToDeq = (c.storage.lQueue q).nodeToDeq
  owner : ∀ q, c.Owns t q → c'.Owns t q
  heap : c'.heap = c.heap
  links : ∀ o, c'.links t o = c.links t o

/-- A step in which nothing takes effect and no list of a queue changes. -/
theorem quiet (h : Inv P C now) (hs : (C.sys.ctx t).step t e = some (c, r))
    (hhist : C.hist.step t e (C.sys.ctx t) c r = C.hist)
    (hw : ∀ q, ¬ (C.sys.threads t).pc.Writes q)
    (hpc : ∀ part wv order rest, c.pc ≠ .publish part wv order rest)
    (hlive : (⟨c.storage, c.pc⟩ : Local Q V).Live → Still (C.sys.ctx t) c t) :
    Inv P (C.next t e c r) now := by
  have hlog : (C.next t e c r).hist = C.hist := hhist
  refine h.next hs (fun _ _ => rfl) ?_ ?_ (fun q ho _ => ?_) ?_ fun hl q => ?_
  · rw [hlog]
    exact h.leaves
  · rw [hlog]
    exact h.fifo
  · rw [← h.settled q fun u hp => ?_]
    · exact h.safe.contents_put hs fun hw' => hw q hw'.2
    · have hu := h.safe.owner_of_publishes hp
      rw [ho] at hu
      obtain rfl := Option.some.inj hu
      exact Pc.not_publishes_of_not_writes hw q hp
  · revert hpc
    rcases c.pc with _ | _ | _ | _ | _ | _ | _ | _ | _ | _ | ⟨part, wv, order, rest⟩ | _ <;>
      intro hpc <;> try trivial
    exact absurd rfl (hpc part wv order rest)
  · have hst := hlive hl
    rw [hlog]
    obtain ⟨w, hplays, hsees, hown, hP⟩ := h.views t hst.live q
    have hnodes : (C.sys.put t c).nodes = C.sys.nodes := by
      rw [Sys.nodes_put, ← Sys.nodes_ctx C.sys t]
      funext i
      unfold Ctx.nodes
      rw [hst.heap, hst.links]
    have hheap : (C.sys.put t c).heap = C.sys.heap := hst.heap
    have hstor : ((C.sys.put t c).threads t).storage = c.storage := by
      rw [Sys.threads_put_self]
    refine ⟨w, hplays, ⟨?_, ?_, ?_⟩, hown.imp_left (hst.owner q), hP⟩
    · rw [hnodes, hheap]
      exact hsees.mine
    · rw [hstor, hst.first]
      exact hsees.first
    · rw [hnodes, hstor, hst.place]
      exact hsees.place

omit [DecidableEq Q] in
theorem not_live_of_TX {st : LocalStorage Q} {pc : Pc Q V} (hT : st.TX = false) :
    ¬ (⟨st, pc⟩ : Local Q V).Live := fun hl => by
  rw [show st.TX = true from hl.1] at hT
  simp at hT

end Inv

section Access

variable {c : Ctx Q V} {t : ThreadId} {o : ThreadId × Q → Links}
  {ids : Q ⊕ (ThreadId × Q) → List NodeId} {q : Q} {w : View V}

theorem LocalQueue.advance_firstDeq (lq : LocalQueue) (h : Heap V) (head : Option NodeId) :
    (lq.advance h head).firstDeq = false := by
  unfold LocalQueue.advance
  split_ifs with hf
  · rfl
  · split <;> simpa using hf

/-- The place after the next `dequeue`. -/
theorem Sees.advance (hw : Sees c.heap ids c.storage t q w) (hL : Laid c.heap (c.links t o) ids) :
    ((c.lQueue q).advance c.heap (c.queues q).head).nodeToDeq = (ids (.inl q))[w.taken]? := by
  have hl := hL.holds (.inl q)
  have hhead : (c.queues q).head = (ids (.inl q)).head? := hl.head_eq
  have hplace := hw.place
  unfold LocalQueue.advance Ctx.lQueue
  by_cases h₀ : w.taken = 0
  · rw [if_pos (hw.first.2 h₀), hhead, h₀, List.head?_eq_getElem?]
  · rw [if_neg (fun hf => h₀ (hw.first.1 hf)), hplace, if_neg h₀]
    rcases Nat.lt_or_ge (w.taken - 1) (ids (.inl q)).length with hlt | hge
    · rw [List.getElem?_eq_getElem hlt]
      show c.heap.next _ = _
      rw [hl.getElem_next hlt, Nat.sub_add_cancel (Nat.pos_of_ne_zero h₀)]
    · rw [List.getElem?_eq_none hge, List.getElem?_eq_none (by omega)]
      show ((c.storage.lQueue q)).nodeToDeq = _
      rw [hplace, if_neg h₀, List.getElem?_eq_none hge]

/-- A transaction's access is the view's. -/
theorem Sees.access (hw : Sees c.heap ids c.storage t q w) (hL : Laid c.heap (c.links t o) ids)
    (op : Op V) (hall : (∀ v, op ≠ .enqueue v) → w.all = (ids (.inl q)).map c.heap.val) :
    ∃ ids', Laid (c.access q op).1.heap ((c.access q op).1.links t o) ids' ∧
      (∀ i, i ≠ .inr (t, q) → ids' i = ids i) ∧ c.heap.Grows (c.access q op).1.heap ∧
      (c.access q op).2 = (View.run op w).1 ∧
      Sees (c.access q op).1.heap ids' (c.access q op).1.storage t q (View.run op w).2 ∧
      ∀ q', q' ≠ q → (c.access q op).1.storage.lQueue q' = c.storage.lQueue q' := by
  have hput : ∀ (lq : LocalQueue) (q' : Q), q' ≠ q →
      (c.putQueue q lq).storage.lQueue q' = c.storage.lQueue q' := fun lq q' hq' =>
    LocalStorage.lQueue_putQueue_of_ne _ _ hq'
  have hself : ∀ lq : LocalQueue, (c.putQueue q lq).storage.lQueue q = lq := fun lq =>
    LocalStorage.lQueue_putQueue_self _ _ _
  cases op with
  | enqueue v =>
    refine ⟨_, Ctx.enqueue_laid hL v, fun i hi => Function.update_of_ne hi _ _,
      Links.enqueue_grows _ _ _, rfl, ⟨?_, ?_, ?_⟩, hput _⟩
    · have := hL.enqueue_vals (.inr (t, q)) v
      rw [Ctx.links_inr] at this
      show w.mine ++ [v] = _
      rw [hw.mine, Function.update_self]
      exact this.symm
    · show ((c.putQueue q _).storage.lQueue q).firstDeq = true ↔ w.taken = 0
      rw [hself]
      exact hw.first
    · show ((c.putQueue q _).storage.lQueue q).nodeToDeq = if w.taken = 0 then none else _
      rw [hself, Function.update_of_ne (by simp)]
      exact hw.place
  | dequeue =>
    have hall := hall (by simp)
    have hadv := hw.advance hL
    have hseen : ∀ (lq : LocalQueue) (ids' : Q ⊕ (ThreadId × Q) → List NodeId) (w' : View V),
        ids' (.inl q) = ids (.inl q) → w'.mine = (ids' (.inr (t, q))).map c.heap.val →
        w'.taken = w.taken + 1 → lq.firstDeq = false →
        lq.nodeToDeq = (ids (.inl q))[w.taken]? →
        Sees c.heap ids' (c.putQueue q lq).storage t q w' := fun lq ids' w' hi hm ht hf hn => by
      refine ⟨hm, ?_, ?_⟩
      · rw [hself, hf, ht]
        simp
      · rw [hself, hn, ht, hi, if_neg (Nat.succ_ne_zero _), Nat.add_sub_cancel]
    rcases Ctx.dequeue_cases hL q with ⟨n, hn, he⟩ | ⟨hn, hm, he⟩ | ⟨hn, a, B, l, hB, he, hL'⟩ <;>
      simp only [Ctx.access] <;> rw [he] <;> rw [hadv] at hn
    · have hget : w.all[w.taken]? = some (c.heap.val n) := by
        rw [hall, List.getElem?_map, hn]
        rfl
      refine ⟨ids, ?_, fun _ _ => rfl, .refl _, by simp [View.run, hget], ?_, hput _⟩
      · rw [Ctx.links_putQueue_self _ _ _ _ (by simp [Ctx.lQueue])]
        exact hL
      · exact hseen _ _ _ rfl (by simp [View.run, hget, hw.mine]) (by simp [View.run, hget])
          (LocalQueue.advance_firstDeq _ _ _) hadv
    · have hget : w.all[w.taken]? = none := by
        rw [hall, List.getElem?_map, hn]
        rfl
      have hmine : w.mine = [] := by rw [hw.mine, hm, List.map_nil]
      refine ⟨ids, ?_, fun _ _ => rfl, .refl _, by simp [View.run, hget, hmine], ?_, hput _⟩
      · rw [Ctx.links_putQueue_self _ _ _ _ (by simp [Ctx.lQueue])]
        exact hL
      · exact hseen _ _ _ rfl (by simp [View.run, hget, hmine, hm])
          (by simp [View.run, hget, hmine]) (LocalQueue.advance_firstDeq _ _ _) hadv
    · have hget : w.all[w.taken]? = none := by
        rw [hall, List.getElem?_map, hn]
        rfl
      have hmine : w.mine = c.heap.val a :: B.map c.heap.val := by rw [hw.mine, hB, List.map_cons]
      refine ⟨_, hL', fun i hi => Function.update_of_ne hi _ _, .refl _,
        by simp [View.run, hget, hmine], ?_, hput _⟩
      exact hseen _ _ _ (Function.update_of_ne (by simp) _ _) (by simp [View.run, hget, hmine])
        (by simp [View.run, hget, hmine]) (LocalQueue.advance_firstDeq _ _ _) hadv
  | isEmpty =>
    have hall := hall (by simp)
    have hsize : 0 < (c.queues q).size ↔ w.all ≠ [] := by
      have : (c.queues q).size = (ids (.inl q)).length := (hL.holds (.inl q)).size_eq
      rw [this, hall, ne_eq, List.map_eq_nil_iff, ← List.length_eq_zero_iff]
      omega
    have hmine : (c.lQueue q).isEmpty = w.mine.isEmpty := by
      have h := (hL.holds (.inr (t, q))).isEmpty_iff
      rw [Ctx.links_inr] at h
      rw [Bool.eq_iff_iff, List.isEmpty_iff, hw.mine, List.map_eq_nil_iff]
      exact h
    simp only [Ctx.access, Ctx.isEmpty]
    split_ifs with hs
    · refine ⟨ids, hL, fun _ _ => rfl, .refl _, ?_, hw, fun _ _ => rfl⟩
      simp [View.run, hsize.1 hs]
    · have hall' : w.all = [] := by_contra fun ha => hs (hsize.2 ha)
      refine ⟨ids, ?_, fun _ _ => rfl, .refl _, ?_, ⟨hw.mine, ?_, ?_⟩, hput _⟩
      · show Laid c.heap ((c.putQueue q (c.lQueue q)).links t o) ids
        rw [Ctx.links_putQueue_self _ _ _ _ (by rfl)]
        exact hL
      · simp [View.run, hall', hmine]
      · rw [hself]
        exact hw.first
      · rw [hself]
        exact hw.place

end Access

section Single

variable {c : Ctx Q V} {t : ThreadId} {o : ThreadId × Q → Links}
  {ids : Q ⊕ (ThreadId × Q) → List NodeId}

/-- A call outside of a transaction is that of a first-in first-out queue. -/
theorem Ctx.single_fifo (hL : Laid c.heap (c.links t o) ids) (q : Q) (size : Int) {op : Op V}
    (hop : op ≠ .isEmpty) : ∃ ids', Laid (c.single q size op).heap
        ((c.single q size op).links t o) ids' ∧
      (c.single q size op).pc.ans? = some (Fifo.run op ((ids (.inl q)).map c.heap.val)).1 ∧
      (ids' (.inl q)).map (c.single q size op).heap.val =
        (Fifo.run op ((ids (.inl q)).map c.heap.val)).2 ∧
      (c.single q size op).storage = c.storage := by
  cases op with
  | enqueue v =>
    refine ⟨_, single_enqueue_laid hL q size v, rfl, ?_, rfl⟩
    rw [Function.update_self]
    exact hL.enqueue_vals (.inl q) v
  | dequeue =>
    rcases single_dequeue_cases hL q size with ⟨hn, he⟩ | ⟨a, B, l, hB, he, hL'⟩ <;> rw [he]
    · exact ⟨ids, hL, by rw [hn]; rfl, by rw [hn]; rfl, rfl⟩
    · refine ⟨_, hL', ?_, ?_, rfl⟩
      · rw [hB]
        rfl
      · rw [Function.update_self, hB]
        rfl
  | isEmpty => exact absurd rfl hop

end Single

namespace Inv

variable {P : Prop} {C : Conf Q V} {now now' : Q → List V} {t : ThreadId} {e : Ev Q V} {c : Ctx Q V}
  {r : Option (Ret V)} {q : Q}

/-- Nobody publishes a queue that is free or locked by a thread that does not. -/
theorem contents_eq (h : Inv P C now)
    (ho : (C.sys.queues q).owner = some t ∨ (C.sys.queues q).owner = none)
    (hp : ¬ C.sys.Publishes t q) : C.sys.contents q = now q := by
  refine h.settled q fun u hu => ?_
  have hown := h.safe.owner_of_publishes hu
  rcases ho with ho | ho <;> rw [ho] at hown
  · exact hp (Option.some.inj hown ▸ hu)
  · simp at hown

omit [DecidableEq Q] in
theorem not_publishes {pc : Pc Q V} (hpc : (C.sys.threads t).pc = pc)
    (hno : ∀ part wv order rest, pc ≠ .publish part wv order rest) : ¬ C.sys.Publishes t q := by
  rintro ⟨part, wv, order, rest, h, -⟩
  exact hno part wv order rest (hpc.symm.trans h)

/-- What the thread's local queue holds where `queueMap` has none. -/
theorem local_empty (h : Inv P C now) (hq : q ∉ (C.sys.threads t).storage.queueMap) :
    C.sys.nodes (.inr (t, q)) = [] := by
  have hl := (h.safe.laid.holds (.inr (t, q))).toLinked
  have hlinks : C.sys.links (.inr (t, q)) = {} := by
    simp only [Sys.links, Sum.elim_inr, LocalStorage.lQueue_of_not_mem _ hq]
  rw [hlinks] at hl
  exact hl.eq_nil_of_head

/-- `TXbegin` with an empty `queueMap`. -/
theorem txBegin (h : Inv P C now) (hpc : (C.sys.threads t).pc = .idle)
    (hend : (C.sys.threads t).storage.queueMap.keys = [])
    (hs : (C.sys.ctx t).step t .txBegin = some (c, r)) : Inv P (C.next t .txBegin c r) now := by
  have hc : c = { C.sys.ctx t with storage :=
      { (C.sys.threads t).storage with TX := true, readVersion := C.sys.gvc } } := by
    simp only [Ctx.step, show (C.sys.ctx t).pc = _ from hpc] at hs
    exact (Prod.mk.inj (Option.some.inj hs)).1.symm
  have hhist : (C.next t .txBegin c r).hist =
      { C.hist with recs := Function.update C.hist.recs t [] } := by
    simp [Conf.next, Hist.step, show (C.sys.ctx t).pc = _ from hpc]
  have hno : ∀ q, ¬ C.sys.Publishes t q := fun q => not_publishes hpc (by simp)
  have hw : ∀ q, ¬ (C.sys.threads t).pc.Writes q := by
    rw [hpc]
    exact fun _ => id
  have hnodes : (C.sys.put t c).nodes = C.sys.nodes := by
    rw [Sys.nodes_put, ← Sys.nodes_ctx C.sys t, hc]
    rfl
  refine h.next hs (fun _ _ => rfl) ?_ ?_ (fun q ho _ => ?_) ?_ fun _ q => ?_
  · rw [hhist]
    exact h.leaves
  · rw [hhist]
    exact h.fifo
  · rw [← h.contents_eq (.inl ho) (hno q)]
    exact h.safe.contents_put hs fun hw' => hw q hw'.2
  · rw [show c.pc = .idle by rw [hc]; exact hpc]
    trivial
  · have hq : q ∉ (C.sys.threads t).storage.queueMap := fun hq => by
      rw [AList.mem_keys, hend] at hq
      simp at hq
    have hlq : ((C.sys.put t c).threads t).storage.lQueue q = {} := by
      rw [Sys.threads_put_self, hc]
      exact LocalStorage.lQueue_of_not_mem _ hq
    rw [hhist]
    simp only [Function.update_self]
    refine ⟨⟨now q, 0, []⟩, rfl, ⟨?_, by simp [hlq], by simp [hlq]⟩, .inr fun r hr => ?_,
      fun _ => ⟨.inr (Nat.zero_le _), ?_⟩⟩
    · rw [hnodes, h.local_empty hq]
      rfl
    · simp [on] at hr
    · simp [View.contents, on, Plays]

/-- The thread has lost its place, or is about to, where its view is spent. -/
theorem spent_iff (h : Inv P C now) {w : View V}
    (hw : Sees C.sys.heap C.sys.nodes (C.sys.threads t).storage t q w)
    (hall : w.all = C.sys.contents q) : C.sys.Spent t q ↔ w.Spent := by
  have hl := h.safe.laid.holds (.inl q)
  have hlen : w.all.length = (C.sys.nodes (.inl q)).length := by
    rw [hall, Sys.contents, List.length_map]
  have hhead : (C.sys.queues q).head ≠ none ↔ w.all ≠ [] := by
    have hh : (C.sys.queues q).head = (C.sys.nodes (.inl q)).head? := hl.head_eq
    rw [hh, hall, Sys.contents]
    simp
  unfold Sys.Spent View.Spent
  rw [hhead]
  by_cases h₀ : w.taken = 0
  · rw [hw.first.2 h₀, h₀]
    simp
  · have hf : ((C.sys.threads t).storage.lQueue q).firstDeq = false := by
      rw [Bool.eq_false_iff]
      exact fun hf => h₀ (hw.first.1 hf)
    rw [hf, hw.place, if_neg h₀]
    simp only [true_and, and_congr_right_iff]
    intro _
    rcases Nat.lt_or_ge (w.taken - 1) (C.sys.nodes (.inl q)).length with hlt | hge
    · rw [List.getElem?_eq_getElem hlt, Option.bind_some, hl.getElem_next hlt,
        Nat.sub_add_cancel (Nat.pos_of_ne_zero h₀), List.getElem?_eq_none_iff, hlen]
    · rw [List.getElem?_eq_none hge]
      simp only [Option.bind_none, true_iff]
      omega

/-- A transaction's call on `q`, from `d`, which differs from the thread's state in who has locks. -/
theorem accessed (h : Inv P C now) (hs : (C.sys.ctx t).step t e = some (c, r))
    (hlive : (C.sys.threads t).Live) (hw : ∀ q, ¬ (C.sys.threads t).pc.Writes q) {d : Ctx Q V}
    {op : Op V} (hc : c = { (d.access q op).1 with pc := .idle })
    (hheap : d.heap = C.sys.heap) (hst : d.storage = (C.sys.threads t).storage)
    (hlinks : d.links t C.sys.locals = C.sys.links)
    (hhist : (C.next t e c r).hist = C.hist.record t ⟨q, op, (d.access q op).2⟩)
    (hown : (c.queues q).owner = some t ∨ ∃ v, op = .enqueue v)
    (howner : ∀ q', (C.sys.queues q').owner = some t → (c.queues q').owner = some t)
    (hall : (∀ v, op ≠ .enqueue v) → C.sys.contents q = now q)
    (hP : P → ∀ w, Sees C.sys.heap C.sys.nodes (C.sys.threads t).storage t q w →
      w.all = now q → w.Allows op) : Inv P (C.next t e c r) now := by
  have hnodes : d.nodes t C.sys.locals = C.sys.nodes := by
    rw [← Sys.nodes_ctx C.sys t]
    funext i
    unfold Ctx.nodes
    rw [hlinks, hheap, Sys.links_ctx]
    rfl
  have hL : Laid d.heap (d.links t C.sys.locals) C.sys.nodes := by
    rw [hheap, hlinks]
    exact h.safe.laid
  have hrecs : ∀ q', on q' ((C.next t e c r).hist.recs t) =
      if q = q' then on q' (C.hist.recs t) ++ [(op, (d.access q op).2)]
      else on q' (C.hist.recs t) := fun q' => by
    rw [hhist]
    simp only [Hist.record, Function.update_self]
    exact on_concat q' _ _
  have hstor : ((C.sys.put t c).threads t).storage = (d.access q op).1.storage := by
    rw [Sys.threads_put_self, hc]
  have hheap' : (C.sys.put t c).heap = (d.access q op).1.heap := by rw [hc]; rfl
  refine h.next hs (fun _ _ => rfl) ?_ ?_ (fun q' ho _ => ?_) ?_ fun _ q' => ?_
  · rw [hhist]
    exact h.leaves
  · rw [hhist]
    exact h.fifo
  · rw [← h.contents_eq (.inl ho) (Pc.not_publishes_of_not_writes hw q')]
    exact h.safe.contents_put hs fun hw' => hw q' hw'.2
  · rw [hc]
    trivial
  · obtain ⟨w₀, hplays₀, hsees₀, hown₀, hP₀⟩ := h.views t hlive q
    have hall₀ : w₀.all = now q := View.all_eq hplays₀
    obtain ⟨ids', hL', hids, hg, hans, hsees', hother⟩ := Sees.access (c := d) (w := w₀)
      (by rw [hheap, hst]; exact hsees₀) hL op (fun hop => by
        rw [hall₀, ← hall hop, hheap]
        rfl)
    have hn : (C.sys.put t c).nodes = ids' := by
      rw [Sys.nodes_put, hc]
      exact Ctx.nodes_eq hL'
    rw [Viewed, hrecs q', hn, hstor, hheap']
    by_cases hq : q' = q
    · subst hq
      rw [if_pos rfl, hans]
      refine ⟨(View.run op w₀).2, hplays₀.concat op, hsees', ?_, fun p => ?_⟩
      · rcases hown with ho | ⟨v, hv⟩
        · exact .inl ho
        · refine hown₀.imp (howner q') fun henq r hr => ?_
          rcases List.mem_append.1 hr with hr | hr
          · exact henq r hr
          · rw [List.mem_singleton.1 hr]
            exact ⟨v, hv⟩
      · have hallows := hP p w₀ hsees₀ hall₀
        obtain ⟨hstraight, hfifo⟩ := hP₀ p
        refine ⟨hallows.straight hstraight, ?_⟩
        have := hfifo.concat op
        rwa [hallows.contents] at this
    · rw [if_neg (Ne.symm hq)]
      obtain ⟨w, hplays, hsees, hown', hP'⟩ := h.views t hlive q'
      have hr : ids' (.inr (t, q')) = C.sys.nodes (.inr (t, q')) := hids _ (by simp [hq])
      have hl : ids' (.inl q') = C.sys.nodes (.inl q') := hids _ (by simp)
      have hlq : (d.access q op).1.storage.lQueue q' = (C.sys.threads t).storage.lQueue q' := by
        rw [hother q' hq, hst]
      rw [hheap] at hg
      refine ⟨w, hplays, ⟨?_, ?_, ?_⟩, hown'.imp_left (howner q'), hP'⟩
      · rw [hr, h.safe.laid.vals_of_grows hg]
        exact hsees.mine
      · rw [hlq]
        exact hsees.first
      · rw [hlq, hl]
        exact hsees.place

omit [DecidableEq Q] in
/-- A block takes effect: `now'` is what it leaves. -/
theorem follows_append {R : Q → Block Q V → List V → List V → Prop} {b : Block Q V}
    {log : List (Block Q V)} (h : ∀ q, Follows (R q) log [] (now q))
    (hb : ∀ q, R q b (now q) (now' q)) (q : Q) : Follows (R q) (log ++ [b]) [] (now' q) :=
  (h q).concat (hb q)

/-- A call outside of a transaction, where it has the lock. -/
theorem single (h : Inv P C now) {op : Op V} {size : Int} {rs : ReadSet}
    (hpc : (C.sys.threads t).pc = .locked q op size) (hop : op ≠ .isEmpty)
    (hs : (C.sys.ctx t).step t (.go rs) = some (c, r)) :
    Inv P (C.next t (.go rs) c r) (Function.update now q (Fifo.run op (now q)).2) := by
  have hr := h.safe.ready t
  rw [hpc] at hr
  have hno : ∀ q, ¬ C.sys.Publishes t q := fun q => not_publishes hpc (by simp)
  have hcont : (C.sys.nodes (.inl q)).map C.sys.heap.val = now q :=
    h.contents_eq (.inl hr.2.2) (hno q)
  have hc : c = (C.sys.ctx t).single q size op := by
    simp only [Ctx.step, Ctx.go, show (C.sys.ctx t).pc = _ from hpc] at hs
    exact (Prod.mk.inj (Option.some.inj hs)).1.symm
  have hL : Laid (C.sys.ctx t).heap ((C.sys.ctx t).links t C.sys.locals) C.sys.nodes := by
    rw [Sys.links_ctx]
    exact h.safe.laid
  obtain ⟨ids', hL', hans, hvals, hst⟩ := Ctx.single_fifo hL q size hop
  rw [← hc] at hL' hans hvals hst
  rw [show (C.sys.ctx t).heap = C.sys.heap from rfl, hcont] at hans hvals
  have hlog : (C.next t (.go rs) c r).hist =
      C.hist.append (.single ⟨q, op, (Fifo.run op (now q)).1⟩) := by
    cases op with
    | isEmpty => exact absurd rfl hop
    | enqueue _ | dequeue =>
      simp only [Conf.next, Hist.step, show (C.sys.ctx t).pc = _ from hpc, hans]
  have hdone : ∀ q', Block.Leaves q' (.single ⟨q, op, (Fifo.run op (now q)).1⟩) (now q')
      (Function.update now q (Fifo.run op (now q)).2 q') ∧
      Block.Fifo q' (.single ⟨q, op, (Fifo.run op (now q)).1⟩) (now q')
        (Function.update now q (Fifo.run op (now q)).2 q') := fun q' => by
    by_cases hq : q = q'
    · subst hq
      rw [Function.update_self]
      refine ⟨?_, ?_⟩
      · cases op with
        | isEmpty => exact absurd rfl hop
        | enqueue _ | dequeue => simp [Block.Leaves]
      · simp [Block.Fifo, on, Plays]
    · rw [Function.update_of_ne (Ne.symm hq)]
      refine ⟨?_, ?_⟩
      · cases op with
        | isEmpty => exact absurd rfl hop
        | enqueue _ | dequeue => simp [Block.Leaves, hq]
      · simp [Block.Fifo, on, hq, Plays]
  refine h.next hs (fun q' ho => ?_) ?_ (fun p => ?_) (fun q' ho _ => ?_) ?_ fun hl => ?_
  · have hq : q' ≠ q := by
      rintro rfl
      exact ho hr.2.2
    exact Function.update_of_ne hq _ _
  · rw [hlog]
    exact follows_append h.leaves fun q' => (hdone q').1
  · rw [hlog]
    exact follows_append (h.fifo p) fun q' => (hdone q').2
  · by_cases hq : q' = q
    · subst hq
      rw [Function.update_self]
      have hn : (C.next t (.go rs) c r).sys.nodes = ids' :=
        (Sys.nodes_put c).trans (Ctx.nodes_eq hL')
      unfold Sys.contents
      rw [hn]
      exact hvals
    · rw [Function.update_of_ne hq, ← h.contents_eq (.inl ho) (hno q')]
      refine h.safe.contents_put hs fun hw => ?_
      have hw := hw.2
      rw [show (C.sys.ctx t).pc = _ from hpc] at hw
      cases op with
      | isEmpty => exact hw
      | enqueue _ | dequeue => exact hq hw.symm
  · rcases hcpc : c.pc with _ | _ | _ | _ | _ | _ | _ | _ | _ | _ | _ | _ <;> try trivial
    rw [hcpc] at hans
    simp [Pc.ans?] at hans
  · refine absurd hl (not_live_of_TX ?_)
    rw [hst]
    exact hr.2.1

/-- `isEmpty` reads the size outside of a transaction. -/
theorem look (h : Inv P C now) (hpc : (C.sys.threads t).pc = .idle)
    (hT : (C.sys.threads t).storage.TX = false) (hP : P → C.InOrder t (.call q .isEmpty))
    (hs : (C.sys.ctx t).step t (.call q .isEmpty) = some (c, r)) :
    Inv P (C.next t (.call q .isEmpty) c r) now := by
  have hstep : c = { C.sys.ctx t with pc := .lock q .isEmpty (C.sys.queues q).size } ∧
      r = none := by
    simp only [Ctx.step, show (C.sys.ctx t).pc = _ from hpc, Ctx.start,
      show (C.sys.ctx t).storage.TX = _ from hT] at hs
    obtain ⟨hc, hr⟩ := Prod.mk.inj (Option.some.inj hs)
    exact ⟨hc.symm, hr.symm⟩
  obtain ⟨hc, rfl⟩ := hstep
  have hlog : (C.next t (.call q .isEmpty) c none).hist =
      C.hist.append (.single ⟨q, .isEmpty, .bool (C.sys.queues q).isEmpty⟩) := by
    simp only [Conf.next, Hist.step, show (C.sys.ctx t).pc = _ from hpc,
      show (C.sys.ctx t).storage.TX = _ from hT]
    rfl
  have hno : ∀ q, ¬ C.sys.Publishes t q := fun q => not_publishes hpc (by simp)
  refine h.next hs (fun _ _ => rfl) ?_ (fun p => ?_) (fun q' ho _ => ?_) ?_ fun hl => ?_
  · rw [hlog]
    exact follows_append h.leaves fun q' => rfl
  · rw [hlog]
    refine follows_append (h.fifo p) fun q' => ?_
    by_cases hq : q = q'
    · subst hq
      have hcont : C.sys.contents q = now q := h.settled q fun u hu =>
        hP p hT u (h.safe.owner_of_publishes hu) hu
      have hemp := (h.safe.laid.holds (.inl q)).isEmpty_iff
      have : (C.sys.queues q).isEmpty = (now q).isEmpty := by
        rw [Bool.eq_iff_iff, List.isEmpty_iff, ← hcont, Sys.contents, List.map_eq_nil_iff]
        exact hemp
      simp [Block.Fifo, on, Plays, Fifo.run, this]
    · simp [Block.Fifo, on, hq, Plays]
  · rw [← h.contents_eq (.inl ho) (hno q')]
    refine h.safe.contents_put hs fun hw => ?_
    have hw := hw.2
    rw [show (C.sys.ctx t).pc = _ from hpc] at hw
    exact hw
  · rw [hc]
    trivial
  · refine absurd hl (not_live_of_TX ?_)
    rw [hc]
    exact hT

/-- `TXend` has locked and validated everything: the transaction takes effect. -/
theorem increment (h : Inv P C now) {order : List Q} {rs : ReadSet}
    (hpc : (C.sys.threads t).pc = .increment order)
    (hs : (C.sys.ctx t).step t (.go rs) = some (c, r)) :
    ∃ now', Inv P (C.next t (.go rs) c r) now' := by
  have hr := h.safe.ready t
  rw [hpc] at hr
  obtain ⟨hT, hkeys, hlocked⟩ := hr
  have hlive : (C.sys.threads t).Live := ⟨hT, by rw [hpc]; trivial⟩
  have hno : ∀ q, ¬ C.sys.Publishes t q := fun q => not_publishes hpc (by simp)
  have hw : ∀ q, ¬ (C.sys.threads t).pc.Writes q := by
    rw [hpc]
    exact fun _ => id
  obtain ⟨wv, hcpc, hcst, hch⟩ : ∃ wv, c.pc = .publish .dequeueNodes wv order order ∧
      c.storage = (C.sys.threads t).storage ∧ c.heap = C.sys.heap ∧
      c.queues = C.sys.queues := by
    simp only [Ctx.step, Ctx.go, show (C.sys.ctx t).pc = _ from hpc] at hs
    split_ifs at hs <;> obtain ⟨rfl, -⟩ := Prod.mk.inj (Option.some.inj hs) <;>
      exact ⟨_, rfl, rfl, rfl, rfl⟩
  obtain ⟨hheap, hqueues⟩ := hch
  have hlog : (C.next t (.go rs) c r).hist = C.hist.append (.tx (C.hist.recs t)) := by
    simp only [Conf.next, Hist.step, show (C.sys.ctx t).pc = _ from hpc]
  have hnodes : (C.sys.put t c).nodes = C.sys.nodes := by
    have hlinks : (C.sys.put t c).links = C.sys.links := by
      rw [Sys.links_put, ← Sys.links_ctx C.sys t]
      unfold Ctx.links
      rw [hqueues, hcst]
      rfl
    funext i
    unfold Sys.nodes
    rw [hlinks, show (C.sys.put t c).heap = _ from hheap]
  choose w hplays hsees hown hP using h.views t hlive
  -- where the transaction has no local queue it leaves the queue as it is
  have hout : ∀ q, q ∉ (C.sys.threads t).storage.queueMap → (w q).leaves = now q := fun q hq => by
    have htaken : (w q).taken = 0 := by
      refine (hsees q).first.1 ?_
      rw [LocalStorage.lQueue_of_not_mem _ hq]
    have hmine : (w q).mine = [] := by
      rw [(hsees q).mine, h.local_empty hq, List.map_nil]
    rw [(View.leaves_eq_iff _).2 (.inr (by omega)), View.contents, htaken, hmine,
      View.all_eq (hplays q)]
    simp
  have hmem : ∀ q, q ∈ (C.sys.threads t).storage.queueMap ↔ q ∈ order := fun q => by
    rw [AList.mem_keys, hkeys.mem_iff]
  refine ⟨fun q => (w q).leaves, h.next hs (fun q ho => ?_) ?_ (fun p => ?_) (fun q ho hp => ?_) ?_
    fun hl => ?_⟩
  · refine hout q fun hq => ho ?_
    exact (hlocked q ((hmem q).1 hq)).2
  · rw [hlog]
    exact follows_append h.leaves fun q => ⟨w q, hplays q, rfl⟩
  · rw [hlog]
    refine follows_append (h.fifo p) fun q => ?_
    rw [(View.leaves_eq_iff _).2 (hP q p).1]
    exact (hP q p).2
  · have hq : q ∉ order := fun hq => hp ⟨_, _, _, _, by
      rw [show (C.next t (.go rs) c r).sys.threads t = _ from Sys.threads_put_self c, hcpc], hq⟩
    rw [hout q fun hq' => hq ((hmem q).1 hq'), ← h.contents_eq (.inl ho) (hno q)]
    exact h.safe.contents_put hs fun hw' => hw q hw'.2
  · have hpend : ∀ q ∈ order, Pending c.heap (C.sys.put t c).nodes c.storage t (w q).leaves q :=
      fun q hq => by
        rw [hheap, hnodes, hcst]
        refine (hsees q).pending ?_
        rw [View.all_eq (hplays q)]
        exact (h.contents_eq (.inl (hlocked q hq).2) (hno q)).symm
    rw [hcpc]
    cases order with
    | nil => trivial
    | cons q rest =>
      exact ⟨fun q' hq' => hpend q' (List.mem_cons_of_mem _ hq'), hpend q List.mem_cons_self⟩
  · rw [hcpc] at hl
    exact hl.2.elim

/-- What a part of the publication of `q` does to the lists, and what is left to do. -/
theorem publish_part {h₀ : Heap V} {ids : Q ⊕ (ThreadId × Q) → List NodeId} {c₀ c₁ : Ctx Q V}
    {o : ThreadId × Q → Links} {L : List V} {part : Part} {wv : Nat} (hheap : c₀.heap = h₀)
    (hL : Laid c₀.heap (c₀.links t o) ids)
    (hd : match part with
      | .dequeueNodes => Pending h₀ ids c₀.storage t L q
      | .enqueueNodes => (ids (.inl q)).map h₀.val ++ (ids (.inr (t, q))).map h₀.val = L
      | .setVersion => (ids (.inl q)).map h₀.val = L)
    (hc : c₀.publish q wv part = some c₁) :
    ∃ ids', Laid c₁.heap (c₁.links t o) ids' ∧
      (∀ i, i ≠ .inl q → i ≠ .inr (t, q) → ids' i = ids i) ∧ h₀.Grows c₁.heap ∧
      (∀ q', q' ≠ q → c₁.storage.lQueue q' = c₀.storage.lQueue q') ∧
      match part with
      | .dequeueNodes =>
        (ids' (.inl q)).map c₁.heap.val ++ (ids' (.inr (t, q))).map c₁.heap.val = L
      | .enqueueNodes | .setVersion => (ids' (.inl q)).map c₁.heap.val = L := by
  subst hheap
  cases part with
  | dequeueNodes =>
    obtain ⟨l, k, he, hL', h₀, hk⟩ := Ctx.publish_dequeueNodes hL q wv
    obtain rfl := Option.some.inj (he.symm.trans hc)
    obtain ⟨k', hk', hval⟩ := hd
    have hkk : k = k' := by
      rcases hk' with ⟨hn, rfl⟩ | ⟨j, hj, hn, rfl⟩
      · exact h₀ hn
      · exact hk j hj hn
    refine ⟨_, hL', fun i hi _ => Function.update_of_ne hi _ _, .refl _, fun _ _ => rfl, ?_⟩
    show _ ++ _ = _
    rw [Function.update_self, Function.update_of_ne (by simp), hkk, List.map_drop]
    exact hval
  | enqueueNodes =>
    obtain ⟨h', l, l', new, he, hg, hL', hnew⟩ := Ctx.publish_enqueueNodes hL q wv
    obtain rfl := Option.some.inj (he.symm.trans hc)
    refine ⟨_, hL', fun i hi hj => ?_, hg, fun q' hq' => ?_, ?_⟩
    · rw [Function.update_of_ne hj, Function.update_of_ne hi]
    · exact LocalStorage.lQueue_putQueue_of_ne _ _ hq'
    · show List.map h'.val _ = _
      rw [Function.update_of_ne (by simp), Function.update_self, List.map_append, hnew,
        hL.vals_of_grows hg]
      exact hd
  | setVersion =>
    obtain rfl := Option.some.inj hc
    refine ⟨ids, ?_, fun _ _ _ => rfl, .refl _, fun _ _ => rfl, hd⟩
    have hlinks := Ctx.links_setQueue_self c₀ t o q (show ((c₀.queues q).stamp wv false).toLinks = _
      from rfl)
    rw [hlinks]
    exact hL

/-- A part of the publication. -/
theorem publish (h : Inv P C now) {part : Part} {wv : Nat} {order rest : List Q} {rs : ReadSet}
    (hpc : (C.sys.threads t).pc = .publish part wv order (q :: rest))
    (hs : (C.sys.ctx t).step t (.go rs) = some (c, r)) : Inv P (C.next t (.go rs) c r) now := by
  have hr := h.safe.ready t
  have hd := h.due t
  rw [hpc] at hr hd
  obtain ⟨hrest, hhead⟩ := hd
  have hnd := List.nodup_cons.1 (hr.2.2.sublist.nodup hr.2.1.unlocks.1)
  obtain ⟨c₁, hc₁, rfl⟩ : ∃ c₁, (C.sys.ctx t).publish q wv part = some c₁ ∧
      c = { c₁ with pc := part.next wv order q rest } := by
    simp only [Ctx.step, Ctx.go, show (C.sys.ctx t).pc = _ from hpc] at hs
    obtain ⟨c₁, hc₁, hs⟩ := Option.bind_eq_some_iff.1 hs
    exact ⟨c₁, hc₁, (Prod.mk.inj (Option.some.inj hs)).1.symm⟩
  have hL : Laid (C.sys.ctx t).heap ((C.sys.ctx t).links t C.sys.locals) C.sys.nodes := by
    rw [Sys.links_ctx]
    exact h.safe.laid
  obtain ⟨ids', hL', hids, hg, hother, hnext⟩ := publish_part rfl hL hhead hc₁
  set c : Ctx Q V := { c₁ with pc := part.next wv order q rest } with hc
  have hlog : (C.next t (.go rs) c r).hist = C.hist := by
    simp only [Conf.next, Hist.step, show (C.sys.ctx t).pc = _ from hpc]
  have hn : (C.sys.put t c).nodes = ids' := (Sys.nodes_put c).trans (Ctx.nodes_eq hL')
  have hsame : ∀ q', q' ≠ q → ids' (.inl q') = C.sys.nodes (.inl q') ∧
      (C.sys.nodes (.inl q')).map c₁.heap.val = (C.sys.nodes (.inl q')).map C.sys.heap.val :=
    fun q' hq' => ⟨hids _ (by simp [hq']) (by simp), h.safe.laid.vals_of_grows hg _⟩
  have hpend : ∀ q' ∈ rest, Pending c₁.heap ids' c₁.storage t (now q') q' := fun q' hq' => by
    have hne : q' ≠ q := fun he => hnd.1 (he ▸ hq')
    exact (hrest q' hq').congr (by rw [hother q' hne]; rfl) (hsame q' hne).1
      (hids _ (by simp) (by simp [hne])) (hsame q' hne).2 (h.safe.laid.vals_of_grows hg _)
  have hpub : ∀ q', (q' ∈ rest ∨ part ≠ .setVersion ∧ q' = q) →
      (C.next t (.go rs) c r).sys.Publishes t q' := fun q' hq' => by
    have hth : ((C.next t (.go rs) c r).sys.threads t).pc = part.next wv order q rest := by
      rw [show (C.next t (.go rs) c r).sys.threads t = _ from Sys.threads_put_self c]
    cases part with
    | dequeueNodes | enqueueNodes => exact ⟨_, _, _, _, hth, List.mem_cons.2 (hq'.symm.imp_left (·.2))⟩
    | setVersion => exact ⟨_, _, _, _, hth, hq'.resolve_right (fun h' => h'.1 rfl)⟩
  refine h.next hs (fun _ _ => rfl) ?_ ?_ (fun q' ho hp => ?_) ?_ fun hl => ?_
  · rw [hlog]
    exact h.leaves
  · rw [hlog]
    exact h.fifo
  · have hnot : q' ∉ rest := fun hq' => hp (hpub q' (.inl hq'))
    show (C.sys.put t c).contents q' = now q'
    unfold Sys.contents
    rw [hn]
    by_cases hq : q' = q
    · subst hq
      have hpart : part = .setVersion := by_contra fun hne => hp (hpub q' (.inr ⟨hne, rfl⟩))
      subst hpart
      exact hnext
    · rw [(hsame q' hq).1, ← h.contents_eq (.inl ho) (q := q') (t := t) ?_]
      · exact (hsame q' hq).2
      · rintro ⟨part', wv', order', rest', hpc', hq'⟩
        obtain ⟨-, -, -, rfl⟩ := Pc.publish.inj (hpc.symm.trans hpc')
        exact (List.mem_cons.1 hq').elim hq hnot
  · rw [hn]
    cases part with
    | dequeueNodes | enqueueNodes => exact ⟨hpend, hnext⟩
    | setVersion =>
      cases rest with
      | nil => trivial
      | cons q₂ rest₂ =>
        exact ⟨fun q' hq' => hpend q' (List.mem_cons_of_mem _ hq'), hpend q₂ List.mem_cons_self⟩
  · have hlive := hl.2
    cases part <;> exact hlive.elim

/-- A step that leaves the thread's local queues and all the queues alone. -/
theorem Still.of_eq {c c' : Ctx Q V} (hl : (⟨c.storage, c.pc⟩ : Local Q V).Live)
    (hm : c'.storage.queueMap = c.storage.queueMap) (hq : c'.queues = c.queues)
    (hh : c'.heap = c.heap) : Still c c' t := by
  have hlq : ∀ q, c'.storage.lQueue q = c.storage.lQueue q := fun q => by
    unfold LocalStorage.lQueue
    rw [hm]
  refine ⟨hl, fun q => by rw [hlq], fun q => by rw [hlq], fun q ho => ?_, hh, fun o => ?_⟩
  · unfold Ctx.Owns
    rw [hq]
    exact ho
  · unfold Ctx.links
    simp only [hq, hlq]

/-- A step that takes the lock of a queue for `TXend`. -/
theorem Still.lockQueue {c : Ctx Q V} {pc : Pc Q V} (hl : (⟨c.storage, c.pc⟩ : Local Q V).Live) :
    Still c (({ c with pc }.setQueue q ((c.queues q).setOwner (some t))).putQueue q
      ((c.lQueue q).setLocked true)) t := by
  have hlq : ∀ q', (c.storage.putQueue q ((c.lQueue q).setLocked true)).lQueue q' =
      if q' = q then (c.storage.lQueue q).setLocked true else c.storage.lQueue q' := fun q' => by
    split_ifs with hq
    · rw [hq, LocalStorage.lQueue_putQueue_self]
      rfl
    · exact LocalStorage.lQueue_putQueue_of_ne _ _ hq
  refine ⟨hl, fun q' => ?_, fun q' => ?_, fun q' ho => ?_, rfl, fun o => ?_⟩
  · show ((c.storage.putQueue q _).lQueue q').firstDeq = _
    rw [hlq]
    split_ifs with hq
    · rw [hq]
      rfl
    · rfl
  · show ((c.storage.putQueue q _).lQueue q').nodeToDeq = _
    rw [hlq]
    split_ifs with hq
    · rw [hq]
      rfl
    · rfl
  · show ((Function.update c.queues q _) q').owner = some t
    by_cases hq : q' = q
    · rw [hq, Function.update_self]
      rfl
    · rw [Function.update_of_ne hq]
      exact ho
  · refine (Ctx.links_putQueue_self _ _ _ _ ?_).trans (Ctx.links_setOwner c t o q _)
    rfl

/-- The first piece of a call. -/
theorem start (h : Inv P C now) (hpc : (C.sys.threads t).pc = .idle) (hend : C.Ends t e)
    (hP : P → C.InOrder t e) (hs : (C.sys.ctx t).step t e = some (c, r)) :
    Inv P (C.next t e c r) now := by
  have hpc' : (C.sys.ctx t).pc = .idle := hpc
  have hw : ∀ q, ¬ (C.sys.threads t).pc.Writes q := by
    rw [hpc]
    exact fun _ => id
  have hlive : (C.sys.threads t).storage.TX = true → (C.sys.threads t).Live := fun hT =>
    ⟨hT, by rw [hpc]; trivial⟩
  have hs₀ := hs
  cases e with
  | txBegin => exact h.txBegin hpc hend hs
  | listWrite =>
    simp only [Ctx.step, hpc', Ctx.start] at hs
    split_ifs at hs with hT
    obtain ⟨rfl, rfl⟩ := Prod.mk.inj (Option.some.inj hs)
    refine h.quiet hs₀ (by simp only [Hist.step, hpc']) hw (by simp) fun _ => ?_
    exact .of_eq (hlive hT) rfl rfl rfl
  | listAbort increment =>
    simp only [Ctx.step, hpc', Ctx.start] at hs
    split_ifs at hs <;> obtain ⟨rfl, rfl⟩ := Prod.mk.inj (Option.some.inj hs) <;>
      exact h.quiet hs₀ (by simp only [Hist.step, hpc']) hw (by simp [Ctx.abort])
        fun hl => (not_live_of_TX rfl hl).elim
  | call q op =>
    simp only [Ctx.step, hpc', Ctx.start] at hs
    split_ifs at hs with hT
    · unfold Ctx.checkVersion at hs
      split_ifs at hs
      · obtain ⟨rfl, rfl⟩ := Prod.mk.inj (Option.some.inj hs)
        exact h.quiet hs₀ (by simp only [Hist.step, hpc']) hw (by simp [Ctx.abort])
          fun hl => (not_live_of_TX rfl hl).elim
      · obtain ⟨rfl, rfl⟩ := Prod.mk.inj (Option.some.inj hs)
        exact h.quiet hs₀ (by simp only [Hist.step, hpc']) hw (by simp [Ctx.abort])
          fun hl => (not_live_of_TX rfl hl).elim
      · cases op with
        | enqueue v =>
          obtain ⟨rfl, rfl⟩ := Prod.mk.inj (Option.some.inj hs)
          refine h.accessed (d := C.sys.ctx t) (q := q) hs₀ (hlive hT) hw ?_ rfl rfl
            (Sys.links_ctx _ _) ?_ (.inr ⟨v, rfl⟩) (fun _ => id) (fun hop => absurd rfl (hop v))
            fun _ _ _ _ => trivial
          · show (C.sys.ctx t).enqueue q v = { (C.sys.ctx t).enqueue q v with pc := .idle }
            rw [← hpc']
            rfl
          · simp only [Conf.next, Hist.step, hpc']
            rfl
        | dequeue | isEmpty =>
          obtain ⟨rfl, rfl⟩ := Prod.mk.inj (Option.some.inj hs)
          refine h.quiet hs₀ ?_ hw (by simp) fun _ => .of_eq (hlive hT) rfl rfl rfl
          simp [Hist.step, hpc', hT]
    · have hT' : (C.sys.threads t).storage.TX = false := Bool.eq_false_iff.2 hT
      cases op with
      | isEmpty => exact h.look hpc hT' hP hs₀
      | enqueue _ | dequeue =>
        obtain ⟨rfl, rfl⟩ := Prod.mk.inj (Option.some.inj hs)
        exact h.quiet hs₀ (by simp only [Hist.step, hpc']) hw (by simp)
          fun hl => (not_live_of_TX hT' hl).elim
  | txEnd order locks =>
    simp only [Ctx.step, hpc', Ctx.start] at hs
    split_ifs at hs with hp hT
    · obtain ⟨rfl, rfl⟩ := Prod.mk.inj (Option.some.inj hs)
      rw [Bool.and_eq_true] at hT
      refine h.quiet hs₀ (by simp only [Hist.step, hpc']) hw (by simp) fun _ => ?_
      exact .of_eq (hlive hT.1) rfl rfl rfl
    · obtain ⟨rfl, rfl⟩ := Prod.mk.inj (Option.some.inj hs)
      exact h.quiet hs₀ (by simp only [Hist.step, hpc']) hw (by simp) fun hl => hl.2.elim
  | go rs => simp [Ctx.step, Ctx.go, hpc'] at hs

/-- A transaction's `dequeue` or `isEmpty` that tries the lock. -/
theorem tryLock (h : Inv P C now) {op : Op V} {rs : ReadSet}
    (hpc : (C.sys.threads t).pc = .tryLock q op) (hP : P → C.InOrder t (.go rs))
    (hs : (C.sys.ctx t).step t (.go rs) = some (c, r)) : Inv P (C.next t (.go rs) c r) now := by
  have hpc' : (C.sys.ctx t).pc = .tryLock q op := hpc
  have hr := h.safe.ready t
  rw [hpc] at hr
  have hw : ∀ q, ¬ (C.sys.threads t).pc.Writes q := by
    rw [hpc]
    exact fun _ => id
  have hs₀ := hs
  simp only [Ctx.step, Ctx.go, hpc'] at hs
  rcases hx : (C.sys.queues q).tryLock t with _ | x <;>
    rw [show ((C.sys.ctx t).queues q).tryLock t = _ from hx] at hs <;> dsimp only at hs
  · obtain ⟨rfl, rfl⟩ := Prod.mk.inj (Option.some.inj hs)
    exact h.quiet hs₀ (by simp only [Hist.step, hpc']) hw (by simp [Ctx.abort])
      fun hl => (not_live_of_TX rfl hl).elim
  · obtain ⟨ho, rfl⟩ := Queue.tryLock_some hx
    obtain ⟨rfl, rfl⟩ := Prod.mk.inj (Option.some.inj hs)
    have hqs : (((C.sys.ctx t).setQueue q ((C.sys.queues q).setOwner (some t))).access q op).1.queues =
        Function.update C.sys.queues q ((C.sys.queues q).setOwner (some t)) :=
      Ctx.access_queues _ _ _
    have hcont : C.sys.contents q = now q := h.contents_eq ho (not_publishes hpc (by simp))
    refine h.accessed (q := q) hs₀ ⟨hr.2, by rw [hpc]; trivial⟩ hw rfl rfl rfl ?_ ?_ (.inl ?_)
      (fun q' hq' => ?_) (fun _ => hcont) fun p w hsees hall => ?_
    · exact (Ctx.links_setOwner (C.sys.ctx t) t C.sys.locals q (some t)).trans (Sys.links_ctx _ _)
    · simp only [Conf.next, Hist.step, hpc']
    · show ((((C.sys.ctx t).setQueue q ((C.sys.queues q).setOwner (some t))).access q op).1.queues
        q).owner = _
      rw [hqs, Function.update_self]
      rfl
    · show ((((C.sys.ctx t).setQueue q ((C.sys.queues q).setOwner (some t))).access q op).1.queues
        q').owner = _
      rw [hqs]
      by_cases hq : q' = q
      · rw [hq, Function.update_self]
        rfl
      · rwa [Function.update_of_ne hq]
    · have hspent := h.spent_iff hsees (hall.trans hcont.symm)
      have hok : ¬ C.sys.GoesOn t (C.sys.threads t).pc := hP p
      rw [hpc] at hok
      cases op with
      | enqueue v => trivial
      | dequeue => exact fun hsp => hok (hspent.2 hsp)
      | isEmpty =>
        rintro ⟨hsp, hm⟩
        refine hok ⟨hspent.2 hsp, ?_⟩
        refine (h.safe.laid.holds (.inr (t, q))).isEmpty_iff.2 ?_
        rw [← List.map_eq_nil_iff (f := C.sys.heap.val), ← hsees.mine]
        exact hm

section Quiet

variable {rs : ReadSet}

theorem lock (h : Inv P C now) {op : Op V} {size : Int}
    (hpc : (C.sys.threads t).pc = .lock q op size)
    (hs : (C.sys.ctx t).step t (.go rs) = some (c, r)) : Inv P (C.next t (.go rs) c r) now := by
  have hpc' : (C.sys.ctx t).pc = .lock q op size := hpc
  have hr := h.safe.ready t
  rw [hpc] at hr
  have hs₀ := hs
  simp only [Ctx.step, Ctx.go, hpc'] at hs
  rcases hx : ((C.sys.ctx t).queues q).tryLock t with _ | x <;> rw [hx] at hs
  · simp at hs
  · obtain ⟨rfl, rfl⟩ := Prod.mk.inj (Option.some.inj hs)
    exact h.quiet hs₀ (by simp only [Hist.step, hpc']) (by rw [hpc]; exact fun _ => id) (by simp [Ctx.setQueue])
      fun hl => (not_live_of_TX hr.2 hl).elim

theorem stamp (h : Inv P C now) {a : Ans V} (hpc : (C.sys.threads t).pc = .stamp q a)
    (hs : (C.sys.ctx t).step t (.go rs) = some (c, r)) : Inv P (C.next t (.go rs) c r) now := by
  have hpc' : (C.sys.ctx t).pc = .stamp q a := hpc
  have hr := h.safe.ready t
  rw [hpc] at hr
  have hs₀ := hs
  simp only [Ctx.step, Ctx.go, hpc'] at hs
  obtain ⟨rfl, rfl⟩ := Prod.mk.inj (Option.some.inj hs)
  exact h.quiet hs₀ (by simp only [Hist.step, hpc']) (by rw [hpc]; exact fun _ => id) (by simp [Ctx.setQueue])
    fun hl => (not_live_of_TX hr.2.1 hl).elim

theorem unlock (h : Inv P C now) {a : Ans V} (hpc : (C.sys.threads t).pc = .unlock q a)
    (hs : (C.sys.ctx t).step t (.go rs) = some (c, r)) : Inv P (C.next t (.go rs) c r) now := by
  have hpc' : (C.sys.ctx t).pc = .unlock q a := hpc
  have hr := h.safe.ready t
  rw [hpc] at hr
  have hs₀ := hs
  simp only [Ctx.step, Ctx.go, hpc'] at hs
  rcases hx : ((C.sys.ctx t).queues q).unlock t with _ | x <;> rw [hx] at hs
  · simp at hs
  · obtain ⟨rfl, rfl⟩ := Prod.mk.inj (Option.some.inj hs)
    exact h.quiet hs₀ (by simp only [Hist.step, hpc']) (by rw [hpc]; exact fun _ => id) (by simp [Ctx.setQueue])
      fun hl => (not_live_of_TX hr.2.1 hl).elim

/-- `TXend` locks the queues. -/
theorem lockQueues (h : Inv P C now) {order todo : List Q}
    (hpc : (C.sys.threads t).pc = .lockQueues order todo)
    (hs : (C.sys.ctx t).step t (.go rs) = some (c, r)) : Inv P (C.next t (.go rs) c r) now := by
  have hpc' : (C.sys.ctx t).pc = .lockQueues order todo := hpc
  have hr := h.safe.ready t
  rw [hpc] at hr
  have hlive : (⟨(C.sys.ctx t).storage, (C.sys.ctx t).pc⟩ : Local Q V).Live := by
    rw [hpc']
    exact ⟨hr.1, trivial⟩
  have hs₀ := hs
  cases todo with
  | nil =>
    simp only [Ctx.step, Ctx.go, hpc'] at hs
    obtain ⟨rfl, rfl⟩ := Prod.mk.inj (Option.some.inj hs)
    exact h.quiet hs₀ (by simp only [Hist.step, hpc']) (by rw [hpc]; exact fun _ => id) (by simp)
      fun _ => .of_eq hlive rfl rfl rfl
  | cons q rest =>
    simp only [Ctx.step, Ctx.go, hpc'] at hs
    rcases hx : ((C.sys.ctx t).queues q).tryLock t with _ | x <;> rw [hx] at hs <;> dsimp only at hs
    · obtain ⟨rfl, rfl⟩ := Prod.mk.inj (Option.some.inj hs)
      exact h.quiet hs₀ (by simp only [Hist.step, hpc']) (by rw [hpc]; exact fun _ => id) (by simp)
        fun hl => hl.2.elim
    · obtain ⟨-, rfl⟩ := Queue.tryLock_some hx
      obtain ⟨rfl, rfl⟩ := Prod.mk.inj (Option.some.inj hs)
      exact h.quiet hs₀ (by simp only [Hist.step, hpc']) (by rw [hpc]; exact fun _ => id)
        (by simp [Ctx.setQueue, Ctx.putQueue]) fun _ => .lockQueue hlive

/-- `TXend` validates the read set. -/
theorem validateReadSet (h : Inv P C now) {order : List Q}
    (hpc : (C.sys.threads t).pc = .validateReadSet order)
    (hs : (C.sys.ctx t).step t (.go rs) = some (c, r)) : Inv P (C.next t (.go rs) c r) now := by
  have hpc' : (C.sys.ctx t).pc = .validateReadSet order := hpc
  have hr := h.safe.ready t
  rw [hpc] at hr
  have hs₀ := hs
  simp only [Ctx.step, Ctx.go, hpc'] at hs
  cases rs with
  | valid =>
    obtain ⟨rfl, rfl⟩ := Prod.mk.inj (Option.some.inj hs)
    refine h.quiet hs₀ (by simp only [Hist.step, hpc']) (by rw [hpc]; exact fun _ => id) (by simp)
      fun _ => .of_eq ⟨hr.1, ?_⟩ rfl rfl rfl
    rw [hpc']
    trivial
  | changed | marked =>
    obtain ⟨rfl, rfl⟩ := Prod.mk.inj (Option.some.inj hs)
    exact h.quiet hs₀ (by simp only [Hist.step, hpc']) (by rw [hpc]; exact fun _ => id) (by simp)
      fun hl => hl.2.elim

/-- `TXend` validates the queues. -/
theorem validateQueues (h : Inv P C now) {order todo : List Q}
    (hpc : (C.sys.threads t).pc = .validateQueues order todo)
    (hs : (C.sys.ctx t).step t (.go rs) = some (c, r)) : Inv P (C.next t (.go rs) c r) now := by
  have hpc' : (C.sys.ctx t).pc = .validateQueues order todo := hpc
  have hr := h.safe.ready t
  rw [hpc] at hr
  have hlive : (⟨(C.sys.ctx t).storage, (C.sys.ctx t).pc⟩ : Local Q V).Live := by
    rw [hpc']
    exact ⟨hr.1, trivial⟩
  have hs₀ := hs
  cases todo with
  | nil =>
    simp only [Ctx.step, Ctx.go, hpc'] at hs
    obtain ⟨rfl, rfl⟩ := Prod.mk.inj (Option.some.inj hs)
    exact h.quiet hs₀ (by simp only [Hist.step, hpc']) (by rw [hpc]; exact fun _ => id) (by simp)
      fun _ => .of_eq hlive rfl rfl rfl
  | cons q rest =>
    simp only [Ctx.step, Ctx.go, hpc'] at hs
    split_ifs at hs <;> obtain ⟨rfl, rfl⟩ := Prod.mk.inj (Option.some.inj hs)
    · exact h.quiet hs₀ (by simp only [Hist.step, hpc']) (by rw [hpc]; exact fun _ => id) (by simp)
        fun hl => hl.2.elim
    · exact h.quiet hs₀ (by simp only [Hist.step, hpc']) (by rw [hpc]; exact fun _ => id) (by simp)
        fun hl => hl.2.elim
    · exact h.quiet hs₀ (by simp only [Hist.step, hpc']) (by rw [hpc]; exact fun _ => id) (by simp)
        fun _ => .of_eq hlive rfl rfl rfl

/-- `TXend` unlocks the queues and clears the thread's own part. -/
theorem unlockQueues (h : Inv P C now) {abort : Bool} {todo : List Q}
    (hpc : (C.sys.threads t).pc = .unlockQueues abort todo)
    (hs : (C.sys.ctx t).step t (.go rs) = some (c, r)) : Inv P (C.next t (.go rs) c r) now := by
  have hpc' : (C.sys.ctx t).pc = .unlockQueues abort todo := hpc
  have hs₀ := hs
  cases todo with
  | nil =>
    simp only [Ctx.step, Ctx.go, hpc'] at hs
    obtain ⟨rfl, rfl⟩ := Prod.mk.inj (Option.some.inj hs)
    exact h.quiet hs₀ (by simp only [Hist.step, hpc']) (by rw [hpc]; exact fun _ => id)
      (by simp [Ctx.cleanup]) fun hl => (not_live_of_TX rfl hl).elim
  | cons q rest =>
    simp only [Ctx.step, Ctx.go, hpc'] at hs
    split_ifs at hs
    · rcases hx : ((C.sys.ctx t).queues q).unlock t with _ | x <;> rw [hx] at hs
      · simp at hs
      · obtain ⟨rfl, rfl⟩ := Prod.mk.inj (Option.some.inj hs)
        exact h.quiet hs₀ (by simp only [Hist.step, hpc']) (by rw [hpc]; exact fun _ => id)
          (by simp [Ctx.setQueue, Ctx.putQueue]) fun hl => hl.2.elim
    · obtain ⟨rfl, rfl⟩ := Prod.mk.inj (Option.some.inj hs)
      exact h.quiet hs₀ (by simp only [Hist.step, hpc']) (by rw [hpc]; exact fun _ => id) (by simp)
        fun hl => hl.2.elim

end Quiet

/-- The other pieces. -/
theorem go (h : Inv P C now) {rs : ReadSet} (hP : P → C.InOrder t (.go rs))
    (hs : (C.sys.ctx t).step t (.go rs) = some (c, r)) :
    ∃ now', Inv P (C.next t (.go rs) c r) now' := by
  have hs₀ := hs
  rcases hpc : (C.sys.threads t).pc with _ | ⟨q, op⟩ | ⟨q, op, size⟩ | ⟨q, op, size⟩ | ⟨q, a⟩ |
    ⟨q, a⟩ | ⟨order, todo⟩ | order | ⟨order, todo⟩ | order | ⟨part, wv, order, _ | ⟨q, rest⟩⟩ |
    ⟨abort, todo⟩ <;> have hpc' : (C.sys.ctx t).pc = _ := hpc
  case idle => simp [Ctx.step, Ctx.go, hpc'] at hs
  case tryLock => exact ⟨now, h.tryLock hpc hP hs⟩
  case lock => exact ⟨now, h.lock hpc hs⟩
  case locked =>
    by_cases hop : op = .isEmpty
    · subst hop
      have hr := h.safe.ready t
      rw [hpc] at hr
      simp only [Ctx.step, Ctx.go, hpc'] at hs
      obtain ⟨rfl, rfl⟩ := Prod.mk.inj (Option.some.inj hs)
      exact ⟨now, h.quiet hs₀ (by simp only [Hist.step, hpc']) (by rw [hpc]; exact fun _ => id)
        (by simp [Ctx.single]) fun hl => (not_live_of_TX hr.2.1 hl).elim⟩
    · exact ⟨_, h.single hpc hop hs⟩
  case stamp => exact ⟨now, h.stamp hpc hs⟩
  case unlock => exact ⟨now, h.unlock hpc hs⟩
  case lockQueues => exact ⟨now, h.lockQueues hpc hs⟩
  case validateReadSet => exact ⟨now, h.validateReadSet hpc hs⟩
  case validateQueues => exact ⟨now, h.validateQueues hpc hs⟩
  case increment => exact h.increment hpc hs
  case publish.nil =>
    simp only [Ctx.step, Ctx.go, hpc'] at hs
    obtain ⟨rfl, rfl⟩ := Prod.mk.inj (Option.some.inj hs)
    exact ⟨now, h.quiet hs₀ (by simp only [Hist.step, hpc']) (by rw [hpc]; exact fun _ => id) (by simp)
      fun hl => hl.2.elim⟩
  case publish.cons => exact ⟨now, h.publish hpc hs⟩
  case unlockQueues => exact ⟨now, h.unlockQueues hpc hs⟩

theorem step (h : Inv P C now) (hend : C.Ends t e) (hP : P → C.InOrder t e)
    (hs : (C.sys.ctx t).step t e = some (c, r)) : ∃ now', Inv P (C.next t e c r) now' := by
  by_cases hpc : (C.sys.threads t).pc = .idle
  · exact ⟨now, h.start hpc hend hP hs⟩
  · obtain ⟨rs, rfl, -⟩ := Ctx.step_go hpc hs
    exact h.go hP hs

theorem init [Inhabited V] : Inv P (.init : Conf Q V) fun _ => [] := by
  have hnodes : (Sys.init : Sys Q V).nodes = fun _ => [] := by
    funext i
    unfold Sys.nodes
    rcases i with q | ⟨u, q⟩ <;> rfl
  refine ⟨.init, fun _ => rfl, fun q _ => ?_, fun _ => trivial, fun t hl q => ?_, fun _ _ => rfl⟩
  · show (Sys.init : Sys Q V).contents q = []
    rw [Sys.contents, hnodes]
    rfl
  · exact absurd hl (not_live_of_TX rfl)

end Inv

namespace Conf

variable {G : Conf Q V → ThreadId → Ev Q V → Prop} {C : Conf Q V}

theorem Reach.inv [Inhabited V] {P : Prop} (hend : ∀ C t e, G C t e → C.Ends t e)
    (hP : P → ∀ C t e, G C t e → C.InOrder t e) (h : Reach G C) : ∃ now, Inv P C now := by
  unfold Reach at h
  induction h with
  | refl => exact ⟨_, Inv.init⟩
  | step _ hG hs ih =>
    obtain ⟨now, hinv⟩ := ih
    exact hinv.step (hend _ _ _ hG) (fun p => hP p _ _ _ hG) hs

/-- Whenever a queue is not being published, it holds what the committed transactions and the calls
outside of transactions leave, one after another in the order in which they took effect. A transaction
answers as its view of the queue in this order, and leaves what the view leaves. -/
theorem Reach.holds_leaves [Inhabited V] (h : Reach Ends C) {q : Q}
    (hq : ∀ t, ¬ C.sys.Publishes t q) :
    Follows (Block.Leaves q) C.hist.log [] (C.sys.contents q) := by
  obtain ⟨now, hinv⟩ := Reach.inv (P := False) (fun _ _ _ => id) False.elim h
  rw [hinv.settled q hq]
  exact hinv.leaves q

/-- The steps of a call outside of a transaction, or of a transaction's `TXend` on one queue. -/
def goOn (t : ThreadId) (n : Nat) : List (ThreadId × Ev Nat Nat) :=
  List.replicate n (t, .go .valid)

/-- An element, and then a transaction that dequeues it and calls `dequeue` again. -/
def overrun : List (ThreadId × Ev Nat Nat) :=
  (0, .call 0 (.enqueue 5)) :: goOn 0 4 ++ (1, .txBegin) :: (1, .call 0 .dequeue) ::
    (1, .txEnd [] true) :: goOn 1 1 ++ (1, .txBegin) :: (1, .call 0 .dequeue) :: goOn 1 1 ++
    (1, .call 0 .dequeue) :: goOn 1 1 ++ (1, .txEnd [0] true) :: goOn 1 5

/-- After the transaction the element is still there. -/
theorem Reach.holds_leaves_overrun : ∃ C : Conf Nat Nat, Reach Ends C ∧
    C.sys.contents 0 = [5] ∧
    C.hist.log.getLast? = some (.tx [⟨0, .dequeue, .val 5⟩, ⟨0, .dequeue, .empty⟩]) ∧
    Follows (Block.Leaves 0) C.hist.log [] [5] := by
  have hrun : ((Conf.init : Conf Nat Nat).run Ends (overrun ++ goOn 1 7)).any
      (fun C => decide (C.sys.contents 0 = [5] ∧ (C.sys.queues 0).owner = none ∧
        C.hist.log.getLast? = some (.tx [⟨0, .dequeue, .val 5⟩, ⟨0, .dequeue, .empty⟩]))) =
      true := by decide
  obtain ⟨C, hC, hp⟩ := exists_run hrun
  obtain ⟨hc, ho, hlast⟩ := of_decide_eq_true hp
  refine ⟨C, hC, hc, hlast, ?_⟩
  rw [← hc]
  refine Reach.holds_leaves hC fun t ht => ?_
  rw [(Run.safe hC .init).owner_of_publishes ht] at ho
  simp at ho

/-- Exactly when a transaction that takes effect leaves of a queue what its calls would leave of a
first-in first-out queue: unless it called `dequeue` more often than the queue had elements, and it had
some. -/
theorem Reach.leaves_iff [Inhabited V] (h : Reach Ends C) {t : ThreadId} {order : List Q}
    (hpc : (C.sys.threads t).pc = .increment order) {q : Q} (hq : q ∈ order) :
    ∃ L, Block.Leaves q (.tx (C.hist.recs t)) (C.sys.contents q) L ∧
      (L = Fifo.after ((on q (C.hist.recs t)).map Prod.fst) (C.sys.contents q) ↔
        C.sys.contents q = [] ∨
          (on q (C.hist.recs t)).countP (·.1.isDequeue) ≤ (C.sys.contents q).length) := by
  obtain ⟨now, hinv⟩ := Reach.inv (P := False) (fun _ _ _ => id) False.elim h
  have hr := hinv.safe.ready t
  rw [hpc] at hr
  have hcont : C.sys.contents q = now q :=
    hinv.contents_eq (.inl (hr.2.2 q hq).2) (Inv.not_publishes hpc (by simp))
  obtain ⟨w, hplays, -⟩ := hinv.views t ⟨hr.1, by rw [hpc]; trivial⟩ q
  rw [← hcont] at hplays
  refine ⟨w.leaves, ⟨w, hplays, rfl⟩, ?_⟩
  have hafter := View.after_eq hplays
  rw [View.contents, List.drop_zero, List.append_nil] at hafter
  rw [hafter, View.leaves_eq_iff, View.Straight, View.taken_eq hplays, View.all_eq hplays,
    Nat.zero_add]

/-- The transaction is about to take effect, and loses the `dequeue` of the element. -/
theorem Reach.leaves_iff_overrun : ∃ C : Conf Nat Nat, Reach Ends C ∧
    (C.sys.threads 1).pc = .increment [0] ∧ ∃ L, Block.Leaves 0 (.tx (C.hist.recs 1)) [5] L ∧
      L ≠ Fifo.after ((on 0 (C.hist.recs 1)).map Prod.fst) [5] := by
  have hrun : ((Conf.init : Conf Nat Nat).run Ends overrun).any
      (fun C => decide ((C.sys.threads 1).pc = .increment [0] ∧ C.sys.contents 0 = [5] ∧
        (on 0 (C.hist.recs 1)).countP (·.1.isDequeue) = 2)) = true := by decide
  obtain ⟨C, hC, hp⟩ := exists_run hrun
  obtain ⟨hpc, hc, hn⟩ := of_decide_eq_true hp
  obtain ⟨L, hL, hiff⟩ := Reach.leaves_iff hC hpc (List.mem_singleton_self 0)
  rw [hc] at hL hiff
  refine ⟨C, hC, hpc, L, hL, fun he => ?_⟩
  have := hiff.1 he
  rw [hn] at this
  simp at this

/-- Where no transaction goes on with a queue after its last element, and no `isEmpty` outside of a
transaction looks at a queue that is being published, the queues are first-in first-out queues: each
committed transaction, and each call outside of one, is answered as by such queues on which they take
effect one after another. -/
theorem Reach.holds_fifo [Inhabited V] (h : Reach (fun C t e => C.Ends t e ∧ C.InOrder t e) C) {q : Q}
    (hq : ∀ t, ¬ C.sys.Publishes t q) :
    Follows (Block.Fifo q) C.hist.log [] (C.sys.contents q) := by
  obtain ⟨now, hinv⟩ := Reach.inv (P := True) (fun _ _ _ h => h.1) (fun _ _ _ _ h => h.2) h
  rw [hinv.settled q hq]
  exact hinv.fifo trivial q

/-- A transaction dequeues the element and enqueues another. -/
theorem Reach.holds_fifo_exchange : ∃ C : Conf Nat Nat,
    Reach (fun C t e => C.Ends t e ∧ C.InOrder t e) C ∧ C.sys.contents 0 = [7] ∧
    Follows (Block.Fifo 0) C.hist.log [] [7] := by
  have hrun : ((Conf.init : Conf Nat Nat).run (fun C t e => C.Ends t e ∧ C.InOrder t e)
      ((0, .call 0 (.enqueue 5)) :: goOn 0 4 ++ (1, .txBegin) :: (1, .call 0 .dequeue) ::
        (1, .txEnd [] true) :: goOn 1 1 ++ (1, .txBegin) :: (1, .call 0 .dequeue) :: goOn 1 1 ++
        (1, .call 0 (.enqueue 7)) :: (1, .txEnd [0] true) :: goOn 1 12)).any
      (fun C => decide (C.sys.contents 0 = [7] ∧ (C.sys.queues 0).owner = none)) = true := by decide
  obtain ⟨C, hC, hp⟩ := exists_run hrun
  obtain ⟨hc, ho⟩ := of_decide_eq_true hp
  refine ⟨C, hC, hc, ?_⟩
  rw [← hc]
  refine Reach.holds_fifo hC fun t ht => ?_
  rw [(Run.safe hC .init).owner_of_publishes ht] at ho
  simp at ho

end Conf

end TxQueue
