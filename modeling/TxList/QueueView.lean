import TxList.QueueSystem

/-!
# What a transaction sees of a queue

A transaction's calls on a queue, told on lists (`View`): it takes the elements of the queue in turn,
after the last of them its own, and `isEmpty` looks at the whole queue. What it leaves, if it commits,
is what it did not take and its own elements; but a `dequeue` after the last element makes it lose its
place, and then it leaves the whole queue. Where it does not call on after that, this is a first-in
first-out queue.
-/

namespace TxQueue

open Fifo (Op Ans)

/-- `all` is what is in the queue, `taken` the number of the transaction's dequeues, `mine` what is in
its own queue. -/
structure View (V : Type) where
  all : List V
  taken : Nat := 0
  mine : List V := []

namespace View

variable {V : Type}

def run : Op V → View V → Ans V × View V
  | .enqueue v, w => (.done, { w with mine := w.mine ++ [v] })
  | .dequeue, w =>
    match w.all[w.taken]?, w.mine with
    | some v, _ => (.val v, { w with taken := w.taken + 1 })
    | none, [] => (.empty, { w with taken := w.taken + 1 })
    | none, v :: mine => (.val v, { w with taken := w.taken + 1, mine })
  | .isEmpty, w => (.bool (w.all.isEmpty && w.mine.isEmpty), w)

/-- What is left of the queue when the transaction commits. -/
def leaves (w : View V) : List V :=
  if w.taken ≤ w.all.length then w.all.drop w.taken ++ w.mine else w.all ++ w.mine

/-- What the transaction should leave. -/
def contents (w : View V) : List V := w.all.drop w.taken ++ w.mine

/-- The transaction has taken the last element of the queue. -/
def Spent (w : View V) : Prop := w.all ≠ [] ∧ w.all.length ≤ w.taken

/-- The transaction has not lost its place. -/
def Straight (w : View V) : Prop := w.all = [] ∨ w.taken ≤ w.all.length

theorem leaves_eq_iff (w : View V) : w.leaves = w.contents ↔ w.Straight := by
  unfold leaves contents Straight
  split_ifs with h
  · exact iff_of_true rfl (.inr h)
  · rw [List.drop_eq_nil_of_le (Nat.le_of_not_le h)]
    simp [h]

/-- Every call but an `isEmpty` after the last element is answered as by a first-in first-out
queue. -/
theorem run_contents (w : View V) {op : Op V}
    (h : op = .isEmpty → ¬ (w.Spent ∧ w.mine = [])) :
    Fifo.run op w.contents = ((run op w).1, (run op w).2.contents) := by
  unfold contents
  cases op with
  | enqueue v => simp [Fifo.run, run]
  | dequeue =>
    rcases Nat.lt_or_ge w.taken w.all.length with hlt | hge
    · rw [List.drop_eq_getElem_cons hlt]
      simp only [List.cons_append, Fifo.run, run, List.getElem?_eq_getElem hlt]
    · have hdrop : w.all.drop (w.taken + 1) = [] := List.drop_eq_nil_of_le (by omega)
      rcases hm : w.mine with _ | ⟨v, mine⟩ <;>
        simp [Fifo.run, run, List.getElem?_eq_none hge, List.drop_eq_nil_of_le hge, hdrop, hm]
  | isEmpty =>
    have h := h rfl
    unfold Spent at h
    have he : (w.all.drop w.taken ++ w.mine).isEmpty = (w.all.isEmpty && w.mine.isEmpty) := by
      rw [Bool.eq_iff_iff]
      simp only [List.isEmpty_iff, Bool.and_eq_true, List.append_eq_nil_iff, List.drop_eq_nil_iff]
      constructor
      · rintro ⟨hle, hm⟩
        exact ⟨by_contra fun ha => h ⟨⟨ha, hle⟩, hm⟩, hm⟩
      · rintro ⟨ha, hm⟩
        simp [ha, hm]
    simp [Fifo.run, run, he]

theorem run_all (op : Op V) (w : View V) : (run op w).2.all = w.all := by
  cases op with
  | dequeue =>
    simp only [run]
    split <;> rfl
  | enqueue _ | isEmpty => rfl

theorem run_contents_snd (w : View V) (op : Op V) :
    (Fifo.run op w.contents).2 = (run op w).2.contents := by
  cases op with
  | isEmpty => rfl
  | enqueue _ | dequeue => rw [w.run_contents (by simp)]

/-- The calls that do not go on after the last element. -/
def Allows (w : View V) : Op V → Prop
  | .enqueue _ => True
  | .dequeue => ¬ w.Spent
  | .isEmpty => ¬ (w.Spent ∧ w.mine = [])

theorem Allows.contents {w : View V} {op : Op V} (h : w.Allows op) :
    Fifo.run op w.contents = ((run op w).1, (run op w).2.contents) :=
  w.run_contents fun hop => by
    subst hop
    exact h

theorem Allows.straight {w : View V} {op : Op V} (h : w.Allows op) (hw : w.Straight) :
    (run op w).2.Straight := by
  cases op with
  | enqueue v => exact hw
  | dequeue =>
    have h : ¬ w.Spent := h
    unfold Spent at h
    unfold Straight
    rw [run_all, or_iff_not_imp_left]
    intro hne
    have hlt : w.taken < w.all.length := Nat.lt_of_not_le fun hle => h ⟨hne, hle⟩
    simpa [run, List.getElem?_eq_getElem hlt] using Nat.succ_le_of_lt hlt
  | isEmpty => exact hw

theorem run_taken (op : Op V) (w : View V) :
    (run op w).2.taken = w.taken + if op.isDequeue then 1 else 0 := by
  cases op with
  | dequeue =>
    simp only [run]
    split <;> rfl
  | enqueue _ | isEmpty => rfl

theorem taken_eq : ∀ {rs : List (Op V × Ans V)} {w w' : View V}, Plays run rs w w' →
    w'.taken = w.taken + rs.countP fun r => r.1.isDequeue
  | [], _, _, h => congrArg _ h
  | r :: rs, w, w', h => by
    rw [taken_eq h.2, run_taken, List.countP_cons, Nat.add_assoc, Nat.add_comm (List.countP _ rs)]

/-- The calls of a view, made on a first-in first-out queue, lead to the view's contents. -/
theorem after_eq : ∀ {rs : List (Op V × Ans V)} {w w' : View V}, Plays run rs w w' →
    Fifo.after (rs.map Prod.fst) w.contents = w'.contents
  | [], _, _, h => congrArg contents h.symm
  | r :: rs, w, w', h => by
    rw [List.map_cons, Fifo.after, run_contents_snd]
    exact after_eq h.2

theorem all_eq : ∀ {rs : List (Op V × Ans V)} {w w' : View V}, Plays run rs w w' → w'.all = w.all
  | [], _, _, h => congrArg _ h
  | r :: _, w, _, h => (all_eq h.2).trans (run_all r.1 w)

/-- A transaction that has only enqueued does not depend on the queue. -/
theorem plays_enqueues {L : List V} : ∀ {rs : List (Op V × Ans V)} {mine : List V} {w : View V},
    (∀ r ∈ rs, ∃ v, r.1 = .enqueue v) → Plays run rs ⟨L, 0, mine⟩ w →
    w.taken = 0 ∧ ∀ L' : List V, Plays run rs ⟨L', 0, mine⟩ ⟨L', 0, w.mine⟩
  | [], _, _, _, h => by
    rw [show _ = _ from h]
    exact ⟨rfl, fun _ => rfl⟩
  | (op, a) :: rs, mine, w, hr, h => by
    obtain ⟨v, rfl : op = .enqueue v⟩ := hr (op, a) List.mem_cons_self
    obtain ⟨ht, hall⟩ := plays_enqueues (fun r hr' => hr r (List.mem_cons_of_mem _ hr')) h.2
    exact ⟨ht, fun L' => ⟨h.1, hall L'⟩⟩

end View

section Blocks

variable {Q V : Type} [DecidableEq Q]

/-- The calls on `q`. -/
def on (q : Q) (rs : List (Rec Q V)) : List (Op V × Ans V) :=
  rs.filterMap fun r => if r.queue = q then some (r.op, r.ans) else none

theorem on_concat (q : Q) (rs : List (Rec Q V)) (r : Rec Q V) :
    on q (rs ++ [r]) = if r.queue = q then on q rs ++ [(r.op, r.ans)] else on q rs := by
  unfold on
  rw [List.filterMap_append]
  split_ifs with h <;> simp [h]

namespace Block

/-- What a block leaves of a queue: a transaction what it leaves in its view, a call outside of one
what a first-in first-out queue does, but that the answer of an `isEmpty` may be another. -/
def Leaves (q : Q) : Block Q V → List V → List V → Prop
  | tx rs, L, L' => ∃ w, Plays View.run (on q rs) ⟨L, 0, []⟩ w ∧ L' = w.leaves
  | single ⟨_, .isEmpty, _⟩, L, L' => L' = L
  | single ⟨q', op, a⟩, L, L' => if q' = q then Fifo.run op L = (a, L') else L' = L

/-- What first-in first-out queues do in a block. -/
def Fifo (q : Q) : Block Q V → List V → List V → Prop
  | tx rs => Plays Fifo.run (on q rs)
  | single r => Plays Fifo.run (on q [r])

end Block

end Blocks

section Guards

variable {Q V : Type} [DecidableEq Q]

/-- Thread `t`'s transaction has taken the last element of `q`, which was not empty. -/
def Sys.Spent (s : Sys Q V) (t : ThreadId) (q : Q) : Prop :=
  ((s.threads t).storage.lQueue q).firstDeq = false ∧ (s.queues q).head ≠ none ∧
    ((s.threads t).storage.lQueue q).nodeToDeq.bind s.heap.next = none

/-- The call that is about to have the lock goes on with a queue whose last element is taken. -/
def Sys.GoesOn (s : Sys Q V) (t : ThreadId) : Pc Q V → Prop
  | .tryLock q .dequeue => s.Spent t q
  | .tryLock q .isEmpty =>
    s.Spent t q ∧ ((s.threads t).storage.lQueue q).isEmpty = true
  | _ => False

namespace Conf

/-- A transaction begins after the `TXend` of the one before. -/
def Ends (C : Conf Q V) (t : ThreadId) : Ev Q V → Prop
  | .txBegin => (C.sys.threads t).storage.queueMap.keys = []
  | _ => True

/-- No transaction calls `dequeue` after it has taken the last element, or `isEmpty` with nothing of
its own, and no `isEmpty` outside of a transaction looks at a queue that is being published. -/
def InOrder (C : Conf Q V) (t : ThreadId) : Ev Q V → Prop
  | .call q .isEmpty => (C.sys.threads t).storage.TX = false →
      ∀ u ∈ (C.sys.queues q).owner, ¬ C.sys.Publishes u q
  | .go _ => ¬ C.sys.GoesOn t (C.sys.threads t).pc
  | _ => True

end Conf

section Decidable

instance (s : Sys Q V) (t : ThreadId) (q : Q) : Decidable (s.Publishes t q) :=
  match h : (s.threads t).pc with
  | .publish part wv order rest =>
    decidable_of_iff (q ∈ rest) ⟨fun hq => ⟨part, wv, order, rest, h, hq⟩, fun ⟨_, _, _, _, h', hq⟩ => by
      obtain ⟨-, -, -, rfl⟩ := Pc.publish.inj (h.symm.trans h')
      exact hq⟩
  | .idle | .tryLock _ _ | .lock _ _ _ | .locked _ _ _ | .stamp _ _ | .unlock _ _
  | .lockQueues _ _ | .validateReadSet _ | .validateQueues _ _ | .increment _
  | .unlockQueues _ _ => isFalse fun ⟨_, _, _, _, h', _⟩ => by
    rw [h] at h'
    simp at h'

instance (s : Sys Q V) (t : ThreadId) (q : Q) : Decidable (s.Spent t q) :=
  inferInstanceAs (Decidable (_ ∧ _ ∧ _))

instance (s : Sys Q V) (t : ThreadId) : ∀ pc : Pc Q V, Decidable (s.GoesOn t pc)
  | .tryLock q .dequeue => inferInstanceAs (Decidable (s.Spent t q))
  | .tryLock q .isEmpty => inferInstanceAs (Decidable (s.Spent t q ∧ _))
  | .tryLock _ (.enqueue _) | .idle | .lock _ _ _ | .locked _ _ _ | .stamp _ _ | .unlock _ _
  | .lockQueues _ _ | .validateReadSet _ | .validateQueues _ _ | .increment _
  | .publish _ _ _ _ | .unlockQueues _ _ => inferInstanceAs (Decidable False)

instance (C : Conf Q V) (t : ThreadId) : ∀ e : Ev Q V, Decidable (C.Ends t e)
  | .txBegin => inferInstanceAs (Decidable (_ = _))
  | .listWrite | .listAbort _ | .call _ _ | .txEnd _ _ | .go _ => inferInstanceAs (Decidable True)

instance (C : Conf Q V) (t : ThreadId) : ∀ e : Ev Q V, Decidable (C.InOrder t e)
  | .call q .isEmpty => inferInstanceAs (Decidable ((C.sys.threads t).storage.TX = false →
      ∀ u ∈ (C.sys.queues q).owner, ¬ C.sys.Publishes u q))
  | .go _ => inferInstanceAs (Decidable (¬ _))
  | .call _ (.enqueue _) | .call _ .dequeue | .txBegin | .listWrite | .listAbort _
  | .txEnd _ _ => inferInstanceAs (Decidable True)

end Decidable

end Guards

end TxQueue
