import TxList.Proofs.Alone

/-!
# The locks of `TXend`

Whatever locks others hold, a `TXend` that aborts gives back the ones it took and leaves the nodes
and the indexes as they were. But it clears the singleton bit of the node it aborts on, which
asserts that the node is locked, and of the read set it has locked only what is in the write set
too.
-/

namespace TxList

open Prog

variable {K V : Type} {m : Nat} [LinearOrder K] {c c' : Ctx K V m} {ch : Choice}

/-! ## The index update fails in no other way than by taking too long -/

section Update

variable {E : Err → Ctx K V m → Prop}

theorem addToIndex_diverges {fuel : Nat} {level : NodeId → Nat} {l : ListId m}
    (hE : ∀ c, E .diverged c) : ∀ (ns : List NodeId) {c : Ctx K V m},
    Ends (addToIndex fuel level l ns) c (fun _ _ => True) E
  | [], _ => trivial
  | n :: ns, c => by
    simp only [addToIndex, Ends_bind, Ends_onIndex]
    exact ⟨fun _ => hE _, fun _ _ _ => addToIndex_diverges hE ns⟩

theorem removeFromIndex_diverges {fuel : Nat} {l : ListId m} (hE : ∀ c, E .diverged c) :
    ∀ (ns : List NodeId) {c : Ctx K V m},
    Ends (removeFromIndex fuel l ns) c (fun _ _ => True) E
  | [], _ => trivial
  | n :: ns, c => by
    simp only [removeFromIndex, Ends_bind, Ends_onIndex, Ends_retire_node]
    exact ⟨fun _ => hE _, fun _ _ _ => removeFromIndex_diverges hE ns⟩

omit [LinearOrder K] in
theorem forLists_diverges {f : ListId m → Call K V m Unit}
    (hf : ∀ l c, Ends (f l) c (fun _ _ => True) E) : ∀ (ls : List (ListId m)) {c : Ctx K V m},
    Ends (forLists f ls) c (fun _ _ => True) E
  | [], _ => trivial
  | l :: ls, c => by
    simp only [forLists, Ends_bind]
    exact (hf l c).mono (fun _ _ _ => forLists_diverges hf ls) fun _ _ he => he

theorem updateIndex_diverges (hE : ∀ c, E .diverged c) :
    Ends (updateIndex ch) c (fun _ _ => True) E := by
  simp only [updateIndex, Ends_bind, Ends_get]
  refine (forLists_diverges (fun l c => addToIndex_diverges hE _) _).mono (fun _ _ _ => ?_)
    fun _ _ he => he
  exact forLists_diverges (fun l c => removeFromIndex_diverges hE _) _

end Update

/-! ## An aborting `TXend` -/

/-- What is left as it was, and what is cleared. -/
structure Intact (c c' : Ctx K V m) : Prop where
  node : ∀ n, (c'.shared.mem n).key = (c.shared.mem n).key ∧
    (c'.shared.mem n).val = (c.shared.mem n).val ∧ (c'.shared.mem n).next = (c.shared.mem n).next
  word : ∀ n, (c'.shared.mem n).isDeleted = (c.shared.mem n).isDeleted ∧
    (c'.shared.mem n).getVersion = (c.shared.mem n).getVersion
  lock : ∀ n, (c'.shared.mem n).isLocked = (c.shared.mem n).isLocked
  index : c'.shared.index = c.shared.index
  gvc : c.shared.gvc ≤ c'.shared.gvc ∧ c'.shared.gvc ≤ c.shared.gvc + 1
  storage : c'.storage.IsEmpty
  closed : c'.transaction.TX = false
  readOnly : c'.transaction.readOnly = true

omit [LinearOrder K] in
theorem Intact.cleaned (c : Ctx K V m) : Intact c c.cleaned :=
  ⟨fun _ => ⟨rfl, rfl, rfl⟩, fun _ => ⟨rfl, rfl⟩, fun _ => rfl, rfl, ⟨le_rfl, Nat.le_succ _⟩,
    Ctx.cleaned_isEmpty c, rfl, rfl⟩

omit [LinearOrder K] in
theorem Intact.clearMark (c : Ctx K V m) (n : NodeId) :
    Intact c ({ c with shared := c.shared.clearMark n } : Ctx K V m).cleaned := by
  have hmem : ∀ k, ∃ b, (c.shared.clearMark n).mem k =
      { c.shared.mem k with word := { (c.shared.mem k).word with singleton := b } } := by
    intro k
    by_cases hk : k = n
    · subst hk
      exact ⟨false, by simp [Shared.clearMark, LNode.setSingleton]⟩
    · exact ⟨(c.shared.mem k).word.singleton, by simp [Shared.clearMark, hk]⟩
  refine ⟨fun k => ?_, fun k => ?_, fun k => ?_, rfl, ⟨Nat.le_succ _, le_rfl⟩,
    Ctx.cleaned_isEmpty _, rfl, rfl⟩
  all_goals
    obtain ⟨b, hb⟩ := hmem k
    simp only [Ctx.cleaned, hb]
  · exact ⟨trivial, trivial, trivial⟩
  · exact ⟨rfl, rfl⟩
  · rfl

/-- A `TXend` that throws `TxAbortException` leaves every node but for a singleton bit, every lock
and every index as it was, and the thread's local storage empty. -/
theorem TXend_abort_intact (ho : ch.Orders c.storage) (h : TXend ch c = .error .txAbort c') :
    Intact c c' := by
  have hends : Ends (TXend ch) c (fun _ _ => True) fun e c' => e = .txAbort → Intact c c' := by
    refine TXend_ends ho (fun _ _ _ => ?_) (fun _ _ _ => trivial) (fun _ _ => .cleaned c)
      (fun n _ _ _ _ _ _ => .clearMark c n) (fun _ _ _ _ _ _ _ he => by simp at he)
      fun _ _ he => by simp at he
    exact updateIndex_diverges fun _ he => by simp at he
  exact hends.error h rfl

/-- Another thread holds the lock of the second node to be locked. -/
theorem TXend_abort_intact_contended : ∃ (ch : Choice) (c c' : Ctx Nat Nat 1),
    ch.Orders c.storage ∧ (c.shared.mem 1).isLocked = true ∧ TXend ch c = .error .txAbort c' ∧
    Intact c c' := by
  let ch : Choice := { fuel := 5, writeOrder := [0, 1], readOrder := [0, 1] }
  let c : Ctx Nat Nat 1 :=
    { shared :=
        { gvc := 3
          mem := fun n => { key := n, val := some 7, word := { lock := n == 1 } }
          fresh := 2
          index := fun l => Index.new (head l)
          retired := [] }
      storage :=
        { writeSet := ((∅ : AList fun _ => WriteElement Nat).insert 1 ⟨none, some 8, false⟩).insert 0
            ⟨some 1, some 7, false⟩
          readSet := {0, 1} }
      transaction := { readVersion := 3, TX := true, readOnly := false } }
  have ho : ch.Orders c.storage := by decide
  have hab : thrown (TXend ch c) = some .txAbort := by decide
  obtain ⟨c', h⟩ := of_thrown hab
  exact ⟨ch, c, c', ho, by decide, h, TXend_abort_intact ho h⟩

/-! ## The assertions -/

section Assertions

variable {C : Conf K V m} {t : ThreadId} {minKey : K} {dflt : V}

/-- An order of the read set that starts with a given node of it. -/
theorem exists_orders_head (s : LocalStorage V m) {n : NodeId} (hn : n ∈ s.readSet) :
    ∃ ch : Choice, ch.Orders s ∧ ∃ ns, ch.readOrder = n :: ns := by
  refine ⟨⟨0, s.writeSet.keys, n :: (s.readSet.erase n).toList, fun _ => 0⟩, ⟨.refl _, ?_, ?_⟩,
    _, rfl⟩
  · exact List.nodup_cons.2 ⟨by simp, Finset.nodup_toList _⟩
  · rw [List.toFinset_cons, Finset.toList_toFinset, Finset.insert_erase hn]

omit [LinearOrder K] in
theorem validateReadSet_asserts {locked ns : List NodeId} {n : NodeId}
    (hl : (c.shared.mem n).isLocked = false)
    (hv : (c.shared.mem n).word.version = c.transaction.readVersion)
    (hs : (c.shared.mem n).word.singleton = true) :
    Ends (validateReadSet locked (n :: ns)) c (fun _ _ => False) fun e _ => e = .assertFailed := by
  have hv' : (c.shared.mem n).getVersion = c.transaction.readVersion := hv
  have hs' : (c.shared.mem n).isSingleton = true := hs
  simp [validateReadSet, Ends_ite, hl, hv', hs']

/-- The validation asserts the lock of a marked node that is only read. -/
theorem TXend_asserts (ho : ch.Orders c.storage) (hu : ∀ n, (c.shared.mem n).isLocked = false)
    (hT : c.transaction.TX = true) {n : NodeId} {ns : List NodeId} (hr : ch.readOrder = n :: ns)
    (hw : n ∉ c.storage.writeSet) (hv : (c.shared.mem n).word.version = c.transaction.readVersion)
    (hs : (c.shared.mem n).word.singleton = true) :
    Ends (TXend ch) c (fun _ _ => False) fun e _ => e = .assertFailed := by
  have hnd : ch.writeOrder.Nodup := ho.1.nodup_iff.2 (AList.keys_nodup _)
  have hn : n ∉ ch.writeOrder := fun h => hw (AList.mem_keys.2 (ho.1.mem_iff.1 h))
  have hmem : (c.shared.lockAll ch.writeOrder).mem n = c.shared.mem n := if_neg hn
  simp only [TXend, TXendWith, Ends_bind, Ends_get, hT, if_true]
  refine lockWriteSet_ends ch.writeOrder [] hnd (fun _ => ?_) fun A _ _ hex => ?_
  · simp only [List.append_nil, Bool.false_eq_true, if_false, Ends_bind, hr]
    refine (validateReadSet_asserts ?_ ?_ ?_).mono (fun _ _ h => h.elim) fun _ _ h => h
    · rw [hmem]
      exact hu n
    · rw [hmem]
      exact hv
    · rw [hmem]
      exact hs
  · obtain ⟨k, -, hk⟩ := hex
    rw [hu k] at hk
    simp at hk

/-- `TXend` fails no assertion, whatever order it goes through the sets in, if and only if no node
that is only read has a singleton's mark of the transaction's read version. -/
theorem TXend_asserts_iff (hr : Conf.Reach minKey dflt Conf.anyStep C) :
    (∀ ch : Choice, ch.Orders (C.sys.threads t).storage →
      ∀ c', TXend ch (C.sys.ctx t) ≠ .error .assertFailed c') ↔
    (C.inTX t = true → ∀ n ∈ (C.sys.threads t).storage.readSet,
      n ∉ (C.sys.threads t).storage.writeSet → (C.sys.shared.mem n).word.singleton = true →
      (C.sys.shared.mem n).word.version ≠ (C.sys.threads t).transaction.readVersion) := by
  have hs := hr.sane (Sys.sane_init minKey dflt) t
  constructor
  · intro h hT n hn hw hsing hv
    obtain ⟨ch, ho, ns, hro⟩ := exists_orders_head _ hn
    have hends := TXend_asserts (c := C.sys.ctx t) ho hs.unlocked hT hro hw hv hsing
    rcases he : TXend ch (C.sys.ctx t) with ⟨r, c'⟩ | ⟨e, c'⟩
    · exact hends.ok he
    · obtain rfl : e = .assertFailed := hends.error he
      exact h ch ho c' he
  · intro h ch ho c' he
    have hends : Ends (TXend ch) (C.sys.ctx t) (fun _ _ => True) fun e _ => e ≠ .assertFailed := by
      refine TXend_ends ho (fun _ _ _ => updateIndex_diverges fun _ => by simp)
        (fun _ _ _ => trivial) (by simp) (fun _ _ _ _ _ _ => by simp)
        (fun n hn hw hT hv hsing => absurd hv (h hT n hn hw hsing))
        fun hlt => absurd hs.readVersion (Nat.not_le.2 hlt)
    exact hends.error he rfl

/-- A transaction that has got nothing from an empty list, alone, fails no assertion. -/
theorem TXend_asserts_iff_read : ∃ C : Conf Nat Nat 1, Conf.Reach 0 0 Conf.anyStep C ∧
    C.inTX 0 = true ∧ 0 ∈ (C.sys.threads 0).storage.readSet ∧
    ∀ ch : Choice, ch.Orders (C.sys.threads 0).storage →
      ∀ c', TXend ch (C.sys.ctx 0) ≠ .error .assertFailed c' := by
  obtain ⟨C, hr, -, hp⟩ := Conf.exists_reach_of_decidable (G := Conf.anyStep) 0 0 1
    [(0, .txBegin), (0, .get 0 5)]
    (fun C : Conf Nat Nat 1 => C.inTX 0 && decide (0 ∈ (C.sys.threads 0).storage.readSet) &&
      decide (∀ n ∈ (C.sys.threads 0).storage.readSet, (C.sys.shared.mem n).word.singleton = false))
    (by decide +kernel)
  simp only [Bool.and_eq_true, decide_eq_true_eq] at hp
  refine ⟨C, hr, hp.1.1, hp.1.2, (TXend_asserts_iff hr).2 fun _ n hn _ hs => ?_⟩
  rw [hp.2 n hn] at hs
  simp at hs

/-- A transaction has got a value when a singleton removes the key and so marks the head, which the
transaction has only read: its `TXend` clears the mark of a node it has not locked. -/
theorem TXend_unlocked_assert : ¬ ∀ (C : Conf Nat Nat 1) (t : ThreadId),
    Conf.Reach 0 0 Conf.anyStep C → ∀ ch : Choice, ch.Orders (C.sys.threads t).storage →
    ∀ c', TXend ch (C.sys.ctx t) ≠ .error .assertFailed c' := by
  intro h
  obtain ⟨C, hr, -, hp⟩ := Conf.exists_reach_of_decidable (G := Conf.anyStep) 0 0 2
    [(1, .txBegin), (1, .put 0 5 3), (1, .txEnd), (0, .txBegin), (0, .get 0 5), (1, .remove 0 5)]
    (fun C : Conf Nat Nat 1 => decide ((C.choice 0).Orders (C.sys.threads 0).storage) &&
      decide (thrown (TXend (C.choice 0) (C.sys.ctx 0)) = some .assertFailed)) (by decide +kernel)
  rw [Bool.and_eq_true, decide_eq_true_eq, decide_eq_true_eq] at hp
  obtain ⟨c', he⟩ := of_thrown hp.2
  exact h C 0 hr _ hp.1 c' he

end Assertions

end TxList
