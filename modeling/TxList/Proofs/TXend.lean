import TxList.Proofs.FindNode

/-!
# What `TXend` does

`TXend` locks the write set, as far as it can. It then either finds every node of the read set
unmarked and writes back, or it aborts, in which case it may clear the singleton bit of one node,
and moves the clock on when it does. It asserts that it holds the lock of that node, which it does
only for a node of the write set.
-/

namespace TxList

open Prog

variable {K V : Type} {m : Nat}

namespace Shared

variable (s : Shared K V m)

/-- The nodes locked. -/
def lockAll (A : List NodeId) : Shared K V m :=
  { s with mem := fun n => if n ∈ A then (s.mem n).setLock true else s.mem n }

/-- The nodes unlocked. -/
def unlockAll (A : List NodeId) : Shared K V m :=
  { s with mem := fun n => if n ∈ A then (s.mem n).setLock false else s.mem n }

/-- The nodes written back. -/
def writeAll (ws : AList fun _ : NodeId => WriteElement V) (writeVersion : Nat) (A : List NodeId) :
    Shared K V m :=
  { s with
    mem := fun n =>
      match (if n ∈ A then ws.lookup n else none) with
      | some we => (s.mem n).writeBack we writeVersion
      | none => s.mem n }

/-- The write set written back with the next version. -/
def commit (ws : AList fun _ : NodeId => WriteElement V) : Shared K V m :=
  { s with
    gvc := s.gvc + 1
    mem := fun n => match ws.lookup n with
      | some we => (s.mem n).writeBack we (s.gvc + 1)
      | none => s.mem n }

/-- What an abort on a singleton's mark leaves: the mark is gone and the clock moved on. -/
def clearMark (n : NodeId) : Shared K V m :=
  { s.setNode n ((s.mem n).setSingleton false) with gvc := s.gvc + 1 }

theorem commit_mem_of_notMem {ws : AList fun _ : NodeId => WriteElement V} {n : NodeId}
    (h : n ∉ ws) : (s.commit ws).mem n = s.mem n := by
  simp [commit, AList.lookup_eq_none.2 h]

theorem commit_mem {ws : AList fun _ : NodeId => WriteElement V} {n : NodeId} {we : WriteElement V}
    (h : ws.lookup n = some we) : (s.commit ws).mem n = (s.mem n).writeBack we (s.gvc + 1) := by
  simp [commit, h]

end Shared

/-- A thread's state after its transaction ended. -/
def Ctx.cleaned (c : Ctx K V m) : Ctx K V m :=
  { c with storage := {}, transaction := { c.transaction with TX := false, readOnly := true } }

section Parts

variable {c : Ctx K V m} {E : Err → Ctx K V m → Prop} {P : Ctx K V m → Prop}

theorem lockWriteSet_ends : ∀ (ns locked : List NodeId) {c : Ctx K V m}
    {Q : Bool × List NodeId → Ctx K V m → Prop}, ns.Nodup →
    ((∀ n ∈ ns, (c.shared.mem n).isLocked = false) →
      Q (false, ns.reverse ++ locked) { c with shared := c.shared.lockAll ns }) →
    (∀ A : List NodeId, A.Nodup → (∀ n ∈ A, (c.shared.mem n).isLocked = false) →
      (∃ n ∈ ns, (c.shared.mem n).isLocked = true) →
      Q (true, A.reverse ++ locked) { c with shared := c.shared.lockAll A }) →
    Ends (lockWriteSet ns locked) c Q E
  | [], locked, c, Q, _, hQ, _ => by
    simpa [lockWriteSet, Shared.lockAll] using hQ
  | n :: ns, locked, c, Q, hnd, hQ, hQ' => by
    obtain ⟨hn, hnd⟩ := List.nodup_cons.1 hnd
    have hlock : ∀ {A : List NodeId}, n ∉ A →
        (c.shared.lock n).lockAll A = c.shared.lockAll (n :: A) := by
      intro A hA
      simp only [Shared.lockAll, Shared.lock, Shared.setNode, Shared.mk.injEq, true_and, and_true]
      funext k
      by_cases hk : k = n
      · subst hk
        simp [hA]
      · simp [hk]
    simp only [lockWriteSet]
    refine Ends_ifLock.2 ⟨fun hl => ?_, fun hu => ?_⟩
    · simpa [Shared.lockAll] using hQ' [] List.nodup_nil (by simp) ⟨n, by simp, hl⟩
    · have hfree : ∀ {A : List NodeId}, (∀ k ∈ A, ((c.shared.lock n).mem k).isLocked = false) →
          n ∉ A ∧ ∀ k ∈ n :: A, (c.shared.mem k).isLocked = false := by
        intro A hA
        have hnA : n ∉ A := fun h => by
          have := hA n h
          rw [lock_isLocked] at this
          simp at this
        refine ⟨hnA, fun k hk => ?_⟩
        rcases List.mem_cons.1 hk with rfl | hk
        · exact hu
        · rw [← lock_mem_ne c.shared (fun h : k = n => hnA (h ▸ hk))]
          exact hA k hk
      refine lockWriteSet_ends ns (n :: locked) hnd (fun hA => ?_) fun A hAn hA hex => ?_
      · obtain ⟨hnA, hA⟩ := hfree hA
        simpa [hlock hnA] using hQ hA
      · obtain ⟨hnA, hA⟩ := hfree hA
        obtain ⟨k, hk, hlk⟩ := hex
        simp only [lock_mem_ne c.shared (fun h : k = n => hn (h ▸ hk))] at hlk
        simpa [hlock hnA] using
          hQ' (n :: A) (List.nodup_cons.2 ⟨hnA, hAn⟩) hA ⟨k, List.mem_cons_of_mem _ hk, hlk⟩

theorem validateReadSet_ends {locked : List NodeId} : ∀ (ns : List NodeId) {Q : Bool → Ctx K V m → Prop},
    ((∀ n ∈ ns, ¬ Marked (c.shared.mem n) c.transaction.readVersion) → Q false c) →
    ((∃ n ∈ ns, n ∉ locked ∧ (c.shared.mem n).isLocked = true ∨
      c.transaction.readVersion < (c.shared.mem n).word.version) → Q true c) →
    (∀ n ∈ ns, n ∈ locked → (c.shared.mem n).word.version = c.transaction.readVersion →
      (c.shared.mem n).word.singleton = true →
      Q true { c with shared := c.shared.clearMark n }) →
    (∀ n ∈ ns, (c.shared.mem n).isLocked = false →
      (c.shared.mem n).word.version = c.transaction.readVersion →
      (c.shared.mem n).word.singleton = true → ∀ c', E .assertFailed c') →
    Ends (validateReadSet locked ns) c Q E
  | [], Q, hok, _, _, _ => by simpa [validateReadSet] using hok
  | n :: ns, Q, hok, hbad, hclear, hassert => by
    simp only [validateReadSet, Ends_bind, Ends_node, Ends_get, Ends_ite, Ends_pure,
      Ends_incrementAndGetVersion, Ends_lockedUpdate]
    refine ⟨fun hl => hbad ⟨n, by simp, .inl hl⟩, fun hno => ⟨fun hv => hbad ⟨n, by simp, .inr hv⟩,
      fun hv => ⟨fun hs => ⟨fun hl => ?_, fun hl => ?_⟩, fun hs => ?_⟩⟩⟩
    · refine hclear n (by simp) ?_ hs.1 hs.2
      by_contra hn
      exact hno ⟨hn, hl⟩
    · exact hassert n (by simp) hl hs.1 hs.2 _
    · refine validateReadSet_ends ns (fun h => hok fun k hk => ?_) (fun h => ?_)
        (fun k hk => hclear k (by simp [hk])) fun k hk => hassert k (by simp [hk])
      · rcases List.mem_cons.1 hk with rfl | hk
        · rintro (h1 | h1)
          · exact hv h1
          · exact hs h1
        · exact h k hk
      · obtain ⟨k, hk, h⟩ := h
        exact hbad ⟨k, by simp [hk], h⟩

theorem unlockAll_ends : ∀ (ns : List NodeId) {c : Ctx K V m} {Q : Unit → Ctx K V m → Prop},
    ns.Nodup → (∀ n ∈ ns, (c.shared.mem n).isLocked = true) →
    Q () { c with shared := c.shared.unlockAll ns } → Ends (unlockAll ns) c Q E
  | [], c, Q, _, _, hQ => by simpa [unlockAll, Shared.unlockAll] using hQ
  | n :: ns, c, Q, hnd, hl, hQ => by
    obtain ⟨hn, hnd⟩ := List.nodup_cons.1 hnd
    simp only [unlockAll, Ends_bind, Ends_unlock, hl n (by simp), forall_const, Bool.true_eq_false,
      false_implies, and_true]
    refine unlockAll_ends ns hnd (fun k hk => ?_) (holds_shared (Q := Q) rfl ?_ hQ)
    · have hne : k ≠ n := fun h => hn (h ▸ hk)
      simpa [Shared.unlock, Shared.setNode, hne] using hl k (by simp [hk])
    · simp only [Shared.unlockAll, Shared.unlock, Shared.setNode, Shared.mk.injEq, true_and, and_true]
      funext k
      by_cases hk : k = n
      · subst hk
        by_cases hm : k ∈ ns <;> simp [hm, LNode.setLock]
      · simp [hk]

theorem writeBackSet_ends {wv : Nat} : ∀ (ns : List NodeId) {c : Ctx K V m}
    {Q : Unit → Ctx K V m → Prop}, ns.Nodup → (∀ n ∈ ns, n ∈ c.storage.writeSet) →
    (∀ n ∈ ns, (c.shared.mem n).isLocked = true) →
    Q () { c with shared := c.shared.writeAll c.storage.writeSet wv ns } →
    Ends (writeBackSet wv ns) c Q E
  | [], c, Q, _, _, _, hQ => by simpa [writeBackSet, Shared.writeAll] using hQ
  | n :: ns, c, Q, hnd, hws, hl, hQ => by
    obtain ⟨hn, hnd⟩ := List.nodup_cons.1 hnd
    obtain ⟨we, hwe⟩ := Option.isSome_iff_exists.1 (AList.lookup_isSome.2 (hws n (by simp)))
    simp only [writeBackSet, Ends_bind, Ends_get, hwe, Ends_lockedUpdate, hl n (by simp),
      forall_const, Bool.true_eq_false, false_implies, and_true]
    refine writeBackSet_ends ns hnd (fun k hk => hws k (by simp [hk])) (fun k hk => ?_)
      (holds_shared (Q := Q) rfl ?_ hQ)
    · have hne : k ≠ n := fun h => hn (h ▸ hk)
      simpa [Shared.setNode, hne] using hl k (by simp [hk])
    · simp only [Shared.writeAll, Shared.setNode, Shared.mk.injEq, true_and, and_true]
      funext k
      by_cases hk : k = n
      · subst hk
        simp [hn, hwe]
      · simp [hk]

theorem writeBack_isLocked (x : LNode K V) (we : WriteElement V) (wv : Nat) :
    (x.writeBack we wv).isLocked = x.isLocked := by
  rcases we with ⟨_, _, _ | _⟩ <;> rfl

theorem setLock_false_of_unlocked {x : LNode K V} (h : x.isLocked = false) :
    (x.setLock true).setLock false = x := by
  revert h
  rcases x with ⟨k, v, nx, lk, d, sg, ver⟩
  rintro rfl
  rfl

theorem Shared.lockAll_unlockAll {s : Shared K V m} {A : List NodeId}
    (hu : ∀ n ∈ A, (s.mem n).isLocked = false) : (s.lockAll A).unlockAll A.reverse = s := by
  simp only [Shared.lockAll, Shared.unlockAll, List.mem_reverse]
  obtain ⟨gvc, mem, fresh, index, retired⟩ := s
  simp only [Shared.mk.injEq, true_and, and_true]
  funext n
  by_cases hn : n ∈ A
  · simp only [hn, if_true]
    exact setLock_false_of_unlocked (hu n hn)
  · simp [hn]

theorem Shared.commit_eq {s : Shared K V m} {ws : AList fun _ : NodeId => WriteElement V}
    {A : List NodeId} (hA : A.Perm ws.keys) (hu : ∀ n ∈ A, (s.mem n).isLocked = false) :
    (({ s.lockAll A with gvc := s.gvc + 1 } : Shared K V m).writeAll ws (s.gvc + 1) A).unlockAll
      A.reverse = s.commit ws := by
  simp only [Shared.lockAll, Shared.unlockAll, Shared.writeAll, Shared.commit, List.mem_reverse,
    Shared.mk.injEq, true_and, and_true]
  funext n
  by_cases hn : n ∈ A
  · obtain ⟨we, hwe⟩ := Option.isSome_iff_exists.1
      (AList.lookup_isSome.2 (AList.mem_keys.2 (hA.mem_iff.1 hn)))
    simp only [hn, if_true, hwe]
    have := hu n hn
    revert this
    rcases s.mem n with ⟨k, v, nx, lk, d, sg, ver⟩
    rintro rfl
    rcases we with ⟨wn, wv, _ | _⟩ <;> rfl
  · have hnone : ws.lookup n = none :=
      AList.lookup_eq_none.2 fun h => hn (hA.mem_iff.2 (AList.mem_keys.1 h))
    simp [hn, hnone]

theorem Shared.lockAll_clearMark {s : Shared K V m} {A : List NodeId} {n : NodeId}
    (hu : ∀ n ∈ A, (s.mem n).isLocked = false) (hn : n ∈ A) :
    ((s.lockAll A).clearMark n).unlockAll A.reverse = s.clearMark n := by
  simp only [Shared.lockAll, Shared.unlockAll, Shared.clearMark, Shared.setNode, List.mem_reverse,
    Shared.mk.injEq, true_and, and_true]
  funext k
  by_cases he : k = n
  · subst he
    have hu' := hu k hn
    simp only [hn, if_true, Function.update_self]
    revert hu'
    rcases s.mem k with ⟨_, _, _, lk, _, _, _⟩
    rintro rfl
    rfl
  · simp only [Function.update_of_ne he]
    split_ifs with hk
    · exact setLock_false_of_unlocked (hu k hk)
    · rfl

theorem Shared.lockAll_isLocked {s : Shared K V m} {A : List NodeId} {n : NodeId} (hn : n ∈ A) :
    ((s.lockAll A).mem n).isLocked = true := by
  simp [Shared.lockAll, hn, LNode.isLocked, LNode.setLock]

/-- Locks change neither versions nor singleton bits. -/
theorem Shared.lockAll_word (s : Shared K V m) (A : List NodeId) (n : NodeId) :
    ((s.lockAll A).mem n).word.version = (s.mem n).word.version ∧
      ((s.lockAll A).mem n).word.singleton = (s.mem n).word.singleton := by
  simp only [Shared.lockAll]
  split_ifs <;> exact ⟨rfl, rfl⟩

section Unlocks

variable {A : List NodeId} {Q : Unit → Ctx K V m → Prop} (hA : A.Nodup)
  (hu : ∀ n ∈ A, (c.shared.mem n).isLocked = false)

include hA hu

/-- What the transaction has locked it unlocks, and leaves no trace. -/
theorem unlockAll_lockAll_ends (hQ : Q () c) :
    Ends (unlockAll A.reverse) { c with shared := c.shared.lockAll A } Q E :=
  unlockAll_ends _ (List.nodup_reverse.2 hA)
    (fun _ hn => Shared.lockAll_isLocked (List.mem_reverse.1 hn))
    (holds_shared (Q := Q) rfl (Shared.lockAll_unlockAll hu) hQ)

theorem unlockAll_clearMark_ends {n : NodeId} (hn : n ∈ A)
    (hQ : Q () { c with shared := c.shared.clearMark n }) :
    Ends (unlockAll A.reverse) { c with shared := (c.shared.lockAll A).clearMark n } Q E := by
  refine unlockAll_ends _ (List.nodup_reverse.2 hA) (fun k hk => ?_)
    (holds_shared (Q := Q) rfl (Shared.lockAll_clearMark hu hn) hQ)
  rw [← Shared.lockAll_isLocked (s := c.shared) (List.mem_reverse.1 hk)]
  by_cases he : k = n
  · subst he
    simp [Shared.clearMark, LNode.isLocked, LNode.setSingleton]
  · simp [Shared.clearMark, he]

end Unlocks

/-- The write-back under the locks, and the unlocks after it. -/
theorem commitWrites_ends {ch : Choice} {Q : Unit → Ctx K V m → Prop} (hA : ch.writeOrder.Nodup)
    (hu : ∀ n ∈ ch.writeOrder, (c.shared.mem n).isLocked = false)
    (hw : ch.writeOrder.Perm c.storage.writeSet.keys)
    (hlate : c.shared.gvc < c.transaction.readVersion → ∀ c', E .assertFailed c')
    (hQ : Q () { c with
      shared := c.shared.commit c.storage.writeSet
      transaction := { c.transaction with writeVersion := c.shared.gvc + 1 } }) :
    Ends (commitWrites ch) { c with shared := c.shared.lockAll ch.writeOrder }
      (fun _ c' => Ends (unlockAll ch.writeOrder.reverse) c' Q E) E := by
  have hmem : ∀ n ∈ ch.writeOrder, n ∈ c.storage.writeSet := fun n hn =>
    AList.mem_keys.2 (hw.mem_iff.1 hn)
  simp only [commitWrites, Ends_bind, Ends_incrementAndGetVersion, Ends_get, Ends_assert,
    Ends_modifyTransaction]
  refine ⟨fun _ => writeBackSet_ends ch.writeOrder hA hmem
    (fun n hn => Shared.lockAll_isLocked hn) ?_, fun hle => hlate ?_ _⟩
  · refine unlockAll_ends _ (List.nodup_reverse.2 hA) (fun n hn => ?_)
      (holds_shared (Q := Q) rfl (Shared.commit_eq hw hu) hQ)
    have hn := List.mem_reverse.1 hn
    rw [← Shared.lockAll_isLocked (s := c.shared) hn]
    simp only [Shared.writeAll, hn, if_true]
    split
    · exact writeBack_isLocked _ _ _
    · rfl
  · simpa [Shared.lockAll, Nat.lt_succ_iff] using hle

/-- A node that was read or is to be written is locked, or one that was read is stamped too late. -/
def Ctx.Contended (c : Ctx K V m) : Prop :=
  ∃ n, (n ∈ c.storage.readSet ∨ n ∈ c.storage.writeSet) ∧ (c.shared.mem n).isLocked = true ∨
    n ∈ c.storage.readSet ∧ c.transaction.readVersion < (c.shared.mem n).word.version

theorem Ctx.Contended.blocked (h : c.Contended) : c.Blocked :=
  h.imp fun _ hn => hn.imp And.right And.right

/-- The call as a whole, whatever locks are held before it and whatever it does in the place of the
index update. -/
theorem TXendWith_ends [LinearOrder K] {u : Call K V m Unit} {ch : Choice}
    {Q : Bool → Ctx K V m → Prop} (ho : ch.Orders c.storage)
    (hcommit : c.transaction.TX = true →
      (∀ n ∈ c.storage.readSet, ¬ Marked (c.shared.mem n) c.transaction.readVersion) →
      c.transaction.readOnly = false →
      Ends u
        { c with
          shared := c.shared.commit c.storage.writeSet
          transaction := { c.transaction with writeVersion := c.shared.gvc + 1 } }
        (fun _ c' => Q true c'.cleaned) E)
    (hread : c.transaction.TX = true →
      (∀ n ∈ c.storage.readSet, ¬ Marked (c.shared.mem n) c.transaction.readVersion) →
      c.transaction.readOnly = true → Q true c.cleaned)
    (habort : (c.transaction.TX = true → c.Contended) → E .txAbort c.cleaned)
    (hclear : ∀ n ∈ c.storage.readSet, n ∈ c.storage.writeSet → c.transaction.TX = true →
      (c.shared.mem n).word.version = c.transaction.readVersion →
      (c.shared.mem n).word.singleton = true →
      E .txAbort ({ c with shared := c.shared.clearMark n } : Ctx K V m).cleaned)
    (hassert : ∀ n ∈ c.storage.readSet, n ∉ c.storage.writeSet → c.transaction.TX = true →
      (c.shared.mem n).word.version = c.transaction.readVersion →
      (c.shared.mem n).word.singleton = true → ∀ c', E .assertFailed c')
    (hlate : c.shared.gvc < c.transaction.readVersion → ∀ c', E .assertFailed c') :
    Ends (TXendWith u ch) c Q E := by
  obtain ⟨hw, -, hr⟩ := ho
  have hnd : ch.writeOrder.Nodup := hw.nodup_iff.2 (AList.keys_nodup _)
  have hmemw : ∀ n, n ∈ ch.writeOrder ↔ n ∈ c.storage.writeSet := fun n => by
    rw [hw.mem_iff, AList.mem_keys]
  have hmemr : ∀ n, n ∈ ch.readOrder ↔ n ∈ c.storage.readSet := fun n => by
    rw [← hr, List.mem_toFinset]
  have hword := c.shared.lockAll_word ch.writeOrder
  simp only [TXendWith, Ends_bind, Ends_get]
  rcases hTX : c.transaction.TX with _ | _
  · simp only [Bool.false_eq_true, if_false, Ends_pure, if_true, Bool.not_true, Bool.false_and,
      Ends_bind, unlockAll, cleanup, Ends_modifyStorage, Ends_modifyTransaction, Ends_throw]
    exact habort fun h => by simp [hTX] at h
  simp only [if_true, Ends_bind]
  refine lockWriteSet_ends ch.writeOrder [] hnd (fun hu => ?_) fun A hA hu hex => ?_
  · simp only [List.append_nil, Bool.false_eq_true, if_false, Ends_bind]
    refine validateReadSet_ends ch.readOrder (fun hok => ?_) (fun hex => ?_) (fun n hn hl hv hs => ?_)
      fun n hn hl hv hs => ?_
    · have hok' : ∀ n ∈ c.storage.readSet, ¬ Marked (c.shared.mem n) c.transaction.readVersion := by
        intro n hn hm
        refine hok n ((hmemr n).2 hn) ?_
        simpa only [Marked, (hword n).1, (hword n).2] using hm
      rcases hro : c.transaction.readOnly with _ | _
      · simp only [Bool.not_false, Bool.and_self, if_true, Ends_bind, Bool.false_eq_true, if_false,
          Ends_pure, cleanup, Ends_modifyStorage, Ends_modifyTransaction]
        exact commitWrites_ends hnd hu hw hlate (hcommit hTX hok' hro)
      · simp only [Bool.not_false, Bool.not_true, Bool.and_false, Bool.false_eq_true, if_false,
          Ends_bind, Ends_pure, cleanup, Ends_modifyStorage, Ends_modifyTransaction]
        exact unlockAll_lockAll_ends hnd hu (hread hTX hok' hro)
    · simp only [Bool.not_true, Bool.false_and, Bool.false_eq_true, if_false, Ends_bind, cleanup,
        Ends_modifyStorage, Ends_modifyTransaction, if_true, Ends_throw]
      obtain ⟨n, hn, hbad⟩ := hex
      refine unlockAll_lockAll_ends hnd hu (habort fun _ => ⟨n, ?_⟩)
      rcases hbad with ⟨hnl, hl⟩ | hv
      · simp only [Shared.lockAll, show n ∉ ch.writeOrder from fun h => hnl (List.mem_reverse.2 h),
          if_false] at hl
        exact .inl ⟨.inl ((hmemr n).1 hn), hl⟩
      · exact .inr ⟨(hmemr n).1 hn, (hword n).1 ▸ hv⟩
    · simp only [Bool.not_true, Bool.false_and, Bool.false_eq_true, if_false, Ends_bind, cleanup,
        Ends_modifyStorage, Ends_modifyTransaction, if_true, Ends_throw]
      have hnA : n ∈ ch.writeOrder := List.mem_reverse.1 hl
      exact unlockAll_clearMark_ends hnd hu hnA (hclear n ((hmemr n).1 hn) ((hmemw n).1 hnA) hTX
        ((hword n).1.symm.trans hv) ((hword n).2.symm.trans hs))
    · refine hassert n ((hmemr n).1 hn) (fun hnw => ?_) hTX ((hword n).1.symm.trans hv)
        ((hword n).2.symm.trans hs)
      rw [Shared.lockAll_isLocked ((hmemw n).2 hnw)] at hl
      exact absurd hl.symm Bool.false_ne_true
  · simp only [List.append_nil, if_true, Ends_bind, Ends_pure, Bool.not_true, Bool.false_and,
      Bool.false_eq_true, if_false, cleanup, Ends_modifyStorage, Ends_modifyTransaction, Ends_throw]
    obtain ⟨n, hn, hl⟩ := hex
    exact unlockAll_lockAll_ends hA hu (habort fun _ => ⟨n, .inl ⟨.inr ((hmemw n).1 hn), hl⟩⟩)

theorem TXend_ends [LinearOrder K] {ch : Choice} {Q : Bool → Ctx K V m → Prop}
    (ho : ch.Orders c.storage)
    (hcommit : c.transaction.TX = true →
      (∀ n ∈ c.storage.readSet, ¬ Marked (c.shared.mem n) c.transaction.readVersion) →
      c.transaction.readOnly = false →
      Ends (updateIndex ch)
        { c with
          shared := c.shared.commit c.storage.writeSet
          transaction := { c.transaction with writeVersion := c.shared.gvc + 1 } }
        (fun _ c' => Q true c'.cleaned) E)
    (hread : c.transaction.TX = true →
      (∀ n ∈ c.storage.readSet, ¬ Marked (c.shared.mem n) c.transaction.readVersion) →
      c.transaction.readOnly = true → Q true c.cleaned)
    (habort : (c.transaction.TX = true → c.Contended) → E .txAbort c.cleaned)
    (hclear : ∀ n ∈ c.storage.readSet, n ∈ c.storage.writeSet → c.transaction.TX = true →
      (c.shared.mem n).word.version = c.transaction.readVersion →
      (c.shared.mem n).word.singleton = true →
      E .txAbort ({ c with shared := c.shared.clearMark n } : Ctx K V m).cleaned)
    (hassert : ∀ n ∈ c.storage.readSet, n ∉ c.storage.writeSet → c.transaction.TX = true →
      (c.shared.mem n).word.version = c.transaction.readVersion →
      (c.shared.mem n).word.singleton = true → ∀ c', E .assertFailed c')
    (hlate : c.shared.gvc < c.transaction.readVersion → ∀ c', E .assertFailed c') :
    Ends (TXend ch) c Q E :=
  TXendWith_ends (u := updateIndex ch) ho hcommit hread habort hclear hassert hlate

end Parts

end TxList
