import TxList.Proofs.Calls

/-!
# The transactional operations after their search

What a node's pointer, value and deletion look like through a write set, and what `put`, `remove`
and `get` record once `find_node` has found their place.
-/

namespace TxList

open Prog

variable {K V : Type} {m : Nat}

/-! ## A node through the write set -/

namespace LocalStorage

variable (ls : LocalStorage V m) (mem : NodeId → LNode K V) (n : NodeId)

def nextOf : Option NodeId :=
  match ls.writeSet.lookup n with
  | some we => we.next
  | none => (mem n).next

def valOf : Option V :=
  match ls.writeSet.lookup n with
  | some we => we.val
  | none => (mem n).val

/-- The write set deletes the node. -/
def deletes : Bool :=
  match ls.writeSet.lookup n with
  | some we => we.deleted
  | none => false

variable {ls mem n}

theorem nextOf_of_notMem (h : n ∉ ls.writeSet) : ls.nextOf mem n = (mem n).next := by
  rw [nextOf, AList.lookup_eq_none.2 h]

theorem valOf_of_notMem (h : n ∉ ls.writeSet) : ls.valOf mem n = (mem n).val := by
  rw [valOf, AList.lookup_eq_none.2 h]

theorem deletes_of_notMem (h : n ∉ ls.writeSet) : ls.deletes n = false := by
  rw [deletes, AList.lookup_eq_none.2 h]

theorem mem_of_deletes (h : ls.deletes n = true) : n ∈ ls.writeSet := by
  by_contra hn
  simp [deletes_of_notMem hn] at h

/-- What is seen through the write set depends only on the nodes outside it. -/
theorem nextOf_congr {mem' : NodeId → LNode K V} (h : n ∉ ls.writeSet → (mem' n).next = (mem n).next) :
    ls.nextOf mem' n = ls.nextOf mem n := by
  simp only [nextOf]
  split
  · rfl
  · exact h (AList.lookup_eq_none.1 ‹_›)

theorem valOf_congr {mem' : NodeId → LNode K V} (h : n ∉ ls.writeSet → (mem' n).val = (mem n).val) :
    ls.valOf mem' n = ls.valOf mem n := by
  simp only [valOf]
  split
  · rfl
  · exact h (AList.lookup_eq_none.1 ‹_›)

/-! ## What the operations record -/

variable (ls mem)

/-- `put` on a key that is there: the node with the key gets a new value. -/
def overwrite (x : NodeId) (val : V) : LocalStorage V m :=
  (ls.putIntoWriteSet x (ls.nextOf mem x) (some val) (ls.deletes x)).addToReadSet x

/-- `put` on a key that is not there: the new node `n` comes after `pred`. -/
def insertAfter (l : ListId m) (pred n : NodeId) : LocalStorage V m :=
  ((ls.putIntoWriteSet pred (some n) (ls.valOf mem pred) false).addToIndexAdd l n).addToReadSet pred

/-- The first write of `remove`: `pred` is to lead to `after`. -/
def relink (pred : NodeId) (after : Option NodeId) : LocalStorage V m :=
  (ls.addToReadSet pred).putIntoWriteSet pred after (ls.valOf mem pred) false

/-- `remove` on a key that is there: `pred` is to lead past the node `x`, to `after`. -/
def unlink (l : ListId m) (pred x : NodeId) (after : Option NodeId) : LocalStorage V m :=
  (((ls.relink mem pred after).putIntoWriteSet x none ((ls.relink mem pred after).valOf mem x) true)
    |>.addToReadSet x).addToIndexRemove l x

@[simp] theorem putIntoWriteSet_writeSet (next : Option NodeId) (val : Option V) (b : Bool) :
    (ls.putIntoWriteSet n next val b).writeSet = ls.writeSet.insert n ⟨next, val, b⟩ := rfl

@[simp] theorem putIntoWriteSet_readSet (next : Option NodeId) (val : Option V) (b : Bool) :
    (ls.putIntoWriteSet n next val b).readSet = ls.readSet := rfl

@[simp] theorem putIntoWriteSet_indexAdd (next : Option NodeId) (val : Option V) (b : Bool) :
    (ls.putIntoWriteSet n next val b).indexAdd = ls.indexAdd := rfl

@[simp] theorem putIntoWriteSet_indexRemove (next : Option NodeId) (val : Option V) (b : Bool) :
    (ls.putIntoWriteSet n next val b).indexRemove = ls.indexRemove := rfl

@[simp] theorem addToReadSet_writeSet : (ls.addToReadSet n).writeSet = ls.writeSet := rfl

@[simp] theorem addToReadSet_readSet : (ls.addToReadSet n).readSet = insert n ls.readSet := rfl

@[simp] theorem addToReadSet_indexAdd : (ls.addToReadSet n).indexAdd = ls.indexAdd := rfl

@[simp] theorem addToReadSet_indexRemove : (ls.addToReadSet n).indexRemove = ls.indexRemove := rfl

@[simp] theorem addToIndexAdd_writeSet (l : ListId m) :
    (ls.addToIndexAdd l n).writeSet = ls.writeSet := rfl

@[simp] theorem addToIndexAdd_readSet (l : ListId m) :
    (ls.addToIndexAdd l n).readSet = ls.readSet := rfl

@[simp] theorem addToIndexAdd_indexRemove (l : ListId m) :
    (ls.addToIndexAdd l n).indexRemove = ls.indexRemove := rfl

@[simp] theorem addToIndexRemove_writeSet (l : ListId m) :
    (ls.addToIndexRemove l n).writeSet = ls.writeSet := rfl

@[simp] theorem addToIndexRemove_readSet (l : ListId m) :
    (ls.addToIndexRemove l n).readSet = ls.readSet := rfl

@[simp] theorem addToIndexRemove_indexAdd (l : ListId m) :
    (ls.addToIndexRemove l n).indexAdd = ls.indexAdd := rfl

/-- The first write of `remove` leaves the other nodes' values. -/
theorem relink_valOf {mem' : NodeId → LNode K V} {pred x : NodeId} {o : Option NodeId} (hne : pred ≠ x) :
    (ls.relink mem pred o).valOf mem' x = ls.valOf mem' x := by
  simp only [valOf, relink, putIntoWriteSet_writeSet, addToReadSet_writeSet,
    AList.lookup_insert_ne hne.symm]

end LocalStorage

/-! ## The shared memory after an allocation -/

/-- A new node, taking the next number. -/
def Shared.alloc (s : Shared K V m) (x : LNode K V) : Shared K V m :=
  { s.setNode s.fresh x with fresh := s.fresh + 1 }

namespace Shared

variable (s : Shared K V m) (n : NodeId) (x : LNode K V)

@[simp] theorem setNode_gvc : (s.setNode n x).gvc = s.gvc := rfl

@[simp] theorem setNode_fresh : (s.setNode n x).fresh = s.fresh := rfl

@[simp] theorem setNode_index : (s.setNode n x).index = s.index := rfl

@[simp] theorem setNode_mem : (s.setNode n x).mem = Function.update s.mem n x := rfl

@[simp] theorem alloc_gvc : (s.alloc x).gvc = s.gvc := rfl

@[simp] theorem alloc_fresh : (s.alloc x).fresh = s.fresh + 1 := rfl

@[simp] theorem alloc_index : (s.alloc x).index = s.index := rfl

@[simp] theorem alloc_mem : (s.alloc x).mem = Function.update s.mem s.fresh x := rfl

end Shared

/-! ## The operations -/

section Ops

variable {c : Ctx K V m} {E : Err → Ctx K V m → Prop}

@[simp] theorem Ends_getVal {n : NodeId} {Q : Option V → Ctx K V m → Prop} :
    Ends (getVal n) c Q E ↔ Q (c.storage.valOf c.shared.mem n) c := by
  simp only [getVal, Ends_bind, Ends_get, LocalStorage.valOf]
  rcases c.storage.writeSet.lookup n with _ | we <;> simp

/-- A new node with its successor. -/
theorem Ends_newNode {β : Type} {Q : β → Ctx K V m → Prop} {key : K} {val : V} {next : Option NodeId}
    {f : NodeId → Call K V m β} :
    Ends (do let n ← get_new_node key val; modifyNode n ({ · with next := next }); f n) c Q E ↔
      Ends (f c.shared.fresh) { c with
        shared := c.shared.alloc { key := key, val := some val, next := next } } Q E := by
  simp only [Ends_bind, Ends_get_new_node, Ends_modifyNode, Shared.alloc, Shared.setNode,
    Function.update_self, Function.update_idem]

variable [LinearOrder K] {fuel : Nat} {l : ListId m} {key : K}
  {R : Bool × NodeId × Option NodeId → Ctx K V m → Prop} {Q : Option V → Ctx K V m → Prop}

theorem putTX_ends {val : V} (hfind : Ends (find_node fuel l key)
      { c with transaction := { c.transaction with readOnly := false } } R E)
    (hfound : ∀ pred x c', R (true, pred, some x) c' → Q (c'.shared.mem x).val
      { c' with storage := c'.storage.overwrite c'.shared.mem x val })
    (hnew : ∀ found pred next c', R (found, pred, next) c' → (found = true → next = none) →
      Q none { c' with
        shared := c'.shared.alloc { key := key, val := some val, next := next }
        storage := c'.storage.insertAfter
          (c'.shared.alloc { key := key, val := some val, next := next }).mem l pred
          c'.shared.fresh }) :
    Ends (putTX fuel l key val) c Q E := by
  simp only [putTX, Ends_bind, Ends_modifyTransaction]
  refine hfind.mono (fun r c' hr => ?_) fun _ _ he => he
  split
  · rename_i pred x
    have hQ := hfound pred x c' hr
    simp only [LocalStorage.overwrite, LocalStorage.nextOf, LocalStorage.deletes] at hQ
    simp only [Ends_bind, Ends_get]
    split <;> rename_i hl <;> rw [hl] at hQ <;>
      simpa only [Ends_bind, Ends_modifyStorage, Ends_node, Ends_pure] using hQ
  · rename_i found pred next hno
    refine Ends_newNode.2 ?_
    simp only [Ends_bind, Ends_getVal, Ends_modifyStorage, Ends_pure]
    refine hnew found pred next c' hr fun hf => ?_
    rcases next with _ | y
    · rfl
    · exact (hno y hf rfl).elim

theorem removeTX_ends {N : NodeId → NodeId → Option NodeId → Ctx K V m → Prop}
    (hfind : Ends (find_node fuel l key)
      { c with transaction := { c.transaction with readOnly := false } } R E)
    (hnext : ∀ pred x c', R (true, pred, some x) c' → Ends (getNext x)
      { c' with storage := c'.storage.addToReadSet pred }
      (fun o c'' => c'' = { c' with storage := c'.storage.addToReadSet pred } ∧ N pred x o c') E)
    (hfound : ∀ pred x o c', R (true, pred, some x) c' → N pred x o c' →
      Q ((c'.storage.relink c'.shared.mem pred o).valOf c'.shared.mem x)
        { c' with storage := c'.storage.unlink c'.shared.mem l pred x o })
    (hnone : ∀ found pred next c', R (found, pred, next) c' → (found = true → next = none) →
      Q none { c' with storage := c'.storage.addToReadSet pred }) :
    Ends (removeTX fuel l key) c Q E := by
  simp only [removeTX, Ends_bind, Ends_modifyTransaction]
  refine hfind.mono (fun r c' hr => ?_) fun _ _ he => he
  obtain ⟨found, pred, next⟩ := r
  simp only [Ends_modifyStorage]
  split
  · rename_i x
    simp only [Ends_bind]
    refine (hnext pred x c' hr).mono (fun o c'' he => ?_) fun _ _ he => he
    obtain ⟨rfl, hN⟩ := he
    have hQ := hfound pred x o c' hr hN
    simp only [Ends_getVal, Ends_modifyStorage]
    have hval : ∀ (ls : LocalStorage V m) o v, (((ls.putIntoWriteSet x o v true).addToReadSet x
        |>.addToIndexRemove l x).valOf c'.shared.mem x) = v := by
      intro ls o v
      simp [LocalStorage.valOf]
    rw [hval]
    exact hQ
  · rename_i hno
    simp only [Ends_pure]
    refine hnone found pred next c' hr fun hf => ?_
    rcases next with _ | y
    · rfl
    · exact (hno y hf rfl).elim

theorem getTX_ends (hfind : Ends (find_node fuel l key) c R E)
    (hfound : ∀ pred x c', R (true, pred, some x) c' → Q (c'.storage.valOf c'.shared.mem x)
      { c' with storage := c'.storage.addToReadSet pred })
    (hnone : ∀ found pred next c', R (found, pred, next) c' → (found = true → next = none) →
      Q none { c' with storage := c'.storage.addToReadSet pred }) :
    Ends (getTX fuel l key) c Q E := by
  simp only [getTX, Ends_bind]
  refine hfind.mono (fun r c' hr => ?_) fun _ _ he => he
  obtain ⟨found, pred, next⟩ := r
  simp only [Ends_modifyStorage]
  split
  · rename_i x
    simp only [Ends_getVal]
    exact hfound pred x c' hr
  · rename_i hno
    simp only [Ends_pure]
    refine hnone found pred next c' hr fun hf => ?_
    rcases next with _ | y
    · rfl
    · exact (hno y hf rfl).elim

end Ops

end TxList
