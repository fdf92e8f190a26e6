import TxList.VersionMask

/-!
# The masks are the record's fields

Each mask of a flag is one bit, so that a flag's test reads this bit, its setter changes it alone, and a
version below `2 ^ 60` has none of the three (`getLsbD_withVersion`). What the word stands for is then
kept by each operation (`onMask_onNode`).
-/

namespace TxList

namespace VersionMask

theorem lockMask_eq : lockMask = BitVec.twoPow 64 60 := rfl

theorem deleteMask_eq : deleteMask = BitVec.twoPow 64 61 := rfl

theorem singletonMask_eq : singletonMask = BitVec.twoPow 64 62 := rfl

/-- A test with a mask of one bit reads this bit. -/
theorem and_twoPow_bne (l : VersionMask) {i : Nat} (hi : i < 64) :
    (l &&& BitVec.twoPow 64 i != 0) = l.getLsbD i := by
  have hne : BitVec.twoPow 64 i ≠ 0#64 := by
    intro h
    have := congrArg (BitVec.getLsbD · i) h
    simp [hi] at this
  rw [BitVec.and_twoPow]
  cases l.getLsbD i <;> simp [hne]

theorem getLsbD_versionNegMask (j : Nat) :
    versionNegMask.getLsbD j = decide (j = 60 ∨ j = 61 ∨ j = 62) := by
  unfold versionNegMask
  rw [lockMask_eq, deleteMask_eq, singletonMask_eq]
  simp [BitVec.getLsbD_or, BitVec.getLsbD_twoPow, eq_comm (b := j), Bool.or_assoc]

theorem getLsbD_setFlag (l : VersionMask) {i : Nat} (hi : i < 64) (value : Bool) (j : Nat) :
    (setFlag (BitVec.twoPow 64 i) value l).getLsbD j = if j = i then value else l.getLsbD j := by
  unfold setFlag
  by_cases h : j = i
  · subst h
    cases value <;>
      simp [hi, BitVec.getLsbD_or, BitVec.getLsbD_and, BitVec.getLsbD_not, BitVec.getLsbD_twoPow,
        -BitVec.getLsbD_eq_getElem]
  · have h' : ¬ i = j := fun e => h e.symm
    have hl : l.getLsbD j = true → j < 64 := BitVec.lt_of_getLsbD
    cases value
    · simp only [h, h', BitVec.getLsbD_and, BitVec.getLsbD_not, BitVec.getLsbD_twoPow,
        Bool.false_eq_true, if_false, decide_false, Bool.and_false, Bool.not_false, Bool.and_true]
      cases hb : l.getLsbD j <;> simp [hl, hb]
    · simp [h, h', BitVec.getLsbD_or, BitVec.getLsbD_twoPow, -BitVec.getLsbD_eq_getElem]

theorem getLsbD_withVersion {version : BitVec 64} (l : VersionMask) (j : Nat) :
    (withVersion version l).getLsbD j =
      if j = 60 ∨ j = 61 ∨ j = 62 then l.getLsbD j else version.getLsbD j := by
  unfold withVersion
  have hv : version.getLsbD j = true → j < 64 := BitVec.lt_of_getLsbD
  simp only [BitVec.getLsbD_or, BitVec.getLsbD_and, BitVec.getLsbD_not, getLsbD_versionNegMask]
  split_ifs with h
  · simp [h]
  · cases hb : version.getLsbD j <;> simp [h, hv, hb]

/-- The version as it stands in the word. -/
theorem getLsbD_getVersion (l : VersionMask) (j : Nat) :
    (getVersion l).getLsbD j = if j = 60 ∨ j = 61 ∨ j = 62 then false else l.getLsbD j := by
  unfold getVersion
  have hl : l.getLsbD j = true → j < 64 := BitVec.lt_of_getLsbD
  simp only [BitVec.getLsbD_and, BitVec.getLsbD_not, getLsbD_versionNegMask]
  split_ifs with h
  · simp [h]
  · cases hb : l.getLsbD j <;> simp [h, hl, hb]

theorem getLsbD_of_lt {version : BitVec 64} (h : version.toNat < 2 ^ 60) {j : Nat} (hj : 60 ≤ j) :
    version.getLsbD j = false :=
  Nat.testBit_lt_two_pow (lt_of_lt_of_le h (Nat.pow_le_pow_right (by omega) hj))

theorem getVersion_setFlag {i : Nat} (hi : i = 60 ∨ i = 61 ∨ i = 62) (value : Bool)
    (l : VersionMask) : getVersion (setFlag (BitVec.twoPow 64 i) value l) = getVersion l := by
  apply BitVec.eq_of_getLsbD_eq
  intro j hj
  simp only [getLsbD_getVersion, getLsbD_setFlag l (show i < 64 by omega)]
  by_cases h : j = i
  · simp [h, hi]
  · simp [h]

theorem getVersion_withVersion {version : BitVec 64} (h : version.toNat < 2 ^ 60)
    (l : VersionMask) : getVersion (withVersion version l) = version := by
  apply BitVec.eq_of_getLsbD_eq
  intro j hj
  simp only [getLsbD_getVersion, getLsbD_withVersion]
  by_cases hm : j = 60 ∨ j = 61 ∨ j = 62
  · simp only [hm, if_true]
    exact (getLsbD_of_lt h (by omega)).symm
  · simp [hm]

/-- The record that a word stands for. -/
def toWord (l : VersionMask) : Word where
  lock := l.getLsbD 60
  deleted := l.getLsbD 61
  singleton := l.getLsbD 62
  version := (getVersion l).toNat

theorem isLocked_eq (l : VersionMask) : isLocked l = l.getLsbD 60 := by
  unfold isLocked
  rw [lockMask_eq]
  exact and_twoPow_bne l (by omega)

theorem isDeleted_eq (l : VersionMask) : isDeleted l = l.getLsbD 61 := by
  unfold isDeleted
  rw [deleteMask_eq]
  exact and_twoPow_bne l (by omega)

theorem isSingleton_eq (l : VersionMask) : isSingleton l = l.getLsbD 62 := by
  unfold isSingleton
  rw [singletonMask_eq]
  exact and_twoPow_bne l (by omega)

@[simp] theorem toWord_lockMask (l : VersionMask) (value : Bool) :
    toWord (setFlag lockMask value l) = { toWord l with lock := value } := by
  rw [lockMask_eq]
  simp [toWord, getLsbD_setFlag, getVersion_setFlag, -BitVec.getLsbD_eq_getElem]

@[simp] theorem toWord_deleteMask (l : VersionMask) (value : Bool) :
    toWord (setFlag deleteMask value l) = { toWord l with deleted := value } := by
  rw [deleteMask_eq]
  simp [toWord, getLsbD_setFlag, getVersion_setFlag, -BitVec.getLsbD_eq_getElem]

@[simp] theorem toWord_singletonMask (l : VersionMask) (value : Bool) :
    toWord (setFlag singletonMask value l) = { toWord l with singleton := value } := by
  rw [singletonMask_eq]
  simp [toWord, getLsbD_setFlag, getVersion_setFlag, -BitVec.getLsbD_eq_getElem]

theorem toWord_withVersion {version : BitVec 64} (h : version.toNat < 2 ^ 60) (l : VersionMask) :
    toWord (withVersion version l) = { toWord l with version := version.toNat } := by
  simp [toWord, getLsbD_withVersion, getVersion_withVersion h, -BitVec.getLsbD_eq_getElem]

variable {K V : Type}

theorem toWord_zero : toWord 0 = {} := by decide

/-- A word that stands for a node's record answers for it. -/
theorem answers_of_toWord {l : VersionMask} {n : LNode K V} (h : toWord l = n.word) :
    l.Answers n := by
  have hlock : isLocked l = n.isLocked := by
    rw [isLocked_eq, LNode.isLocked, ← h]
    rfl
  have hdeleted : isDeleted l = n.isDeleted := by
    rw [isDeleted_eq, LNode.isDeleted, ← h]
    rfl
  have hsingleton : isSingleton l = n.isSingleton := by
    rw [isSingleton_eq, LNode.isSingleton, ← h]
    rfl
  have hversion : (getVersion l).toNat = n.getVersion := by
    rw [LNode.getVersion, ← h]
    rfl
  have hsame : ∀ version : BitVec 64, getVersion l = version ↔ n.getVersion = version.toNat := by
    intro version
    rw [← hversion, BitVec.toNat_inj]
  refine ⟨hlock, hdeleted, ?_, hsingleton, hversion, fun version => ?_, fun version => ?_, hsame⟩
  · change (isDeleted l || isLocked l) = (n.isDeleted || n.isLocked)
    rw [hlock, hdeleted]
  · change (if isSingleton l then getVersion l == version else false) =
      (n.isSingleton && n.getVersion == version.toNat)
    rw [hsingleton]
    cases n.isSingleton
    · rfl
    · simp only [if_true, Bool.true_and, beq_eq_beq, hsame version]
  · rw [BitVec.lt_def, hversion]

end VersionMask

namespace WordOp

open VersionMask

variable {K V : Type}

/-- What an operation leaves in the word stands for what it leaves in the record, it returns the same,
and its assertion holds of both or of neither. -/
theorem onMask_onNode {l : VersionMask} {n : LNode K V} (h : toWord l = n.word) {op : WordOp}
    (hop : op.InRange) :
    Option.Rel (fun x y => x.1 = y.1 ∧ toWord x.2 = y.2.word) (op.onMask l) (op.onNode n) := by
  have hlock : (l &&& lockMask != 0) = n.isLocked := (answers_of_toWord h).isLocked
  cases op with
  | tryLock =>
    simp only [onMask, onNode, VersionMask.tryLock, compareExchange, hlock]
    cases hn : n.isLocked with
    | true => exact .some ⟨rfl, h⟩
    | false =>
      refine .some ⟨rfl, ?_⟩
      change toWord (setFlag lockMask true l) = (n.setLock true).word
      rw [toWord_lockMask, h]
      rfl
  | unlock =>
    simp only [onMask, onNode, whenLocked, compareExchange, hlock]
    cases hn : n.isLocked with
    | true =>
      refine .some ⟨rfl, ?_⟩
      change toWord (setFlag lockMask false l) = (n.setLock false).word
      rw [toWord_lockMask, h]
      rfl
    | false => exact .none
  | setDeleted value =>
    simp only [onMask, onNode, whenLocked, hlock]
    cases hn : n.isLocked with
    | true => exact .some ⟨rfl, by rw [toWord_deleteMask, h]; rfl⟩
    | false => exact .none
  | setSingleton value =>
    simp only [onMask, onNode, whenLocked, hlock]
    cases hn : n.isLocked with
    | true => exact .some ⟨rfl, by rw [toWord_singletonMask, h]; rfl⟩
    | false => exact .none
  | setSingletonNoLockAssert value =>
    exact .some ⟨rfl, by rw [toWord_singletonMask, h]; rfl⟩
  | setVersion version =>
    simp only [onMask, onNode, whenLocked, hlock]
    cases hn : n.isLocked with
    | true => exact .some ⟨rfl, by rw [toWord_withVersion hop, h]; rfl⟩
    | false => exact .none
  | setVersionAndSingleton version value =>
    simp only [onMask, onNode, whenLocked, hlock]
    cases hn : n.isLocked with
    | true => exact .some ⟨rfl, by rw [toWord_singletonMask, toWord_withVersion hop, h]; rfl⟩
    | false => exact .none
  | setVersionAndSingletonNoLockAssert version value =>
    exact .some ⟨rfl, by rw [toWord_singletonMask, toWord_withVersion hop, h]; rfl⟩
  | setVersionAndDeletedAndSingleton version deleted singleton =>
    simp only [onMask, onNode, whenLocked, hlock]
    cases hn : n.isLocked with
    | true =>
      refine .some ⟨rfl, ?_⟩
      rw [toWord_deleteMask, toWord_singletonMask, toWord_withVersion hop, h]
      rfl
    | false => exact .none

/-- Two readings of the operations that agree on every operation of a sequence agree on all of it. -/
theorem run_rel {S T : Type} {R : S → T → Prop} {f : WordOp → S → Option (Option Bool × S)}
    {g : WordOp → T → Option (Option Bool × T)} : ∀ {ops : List WordOp},
    (∀ op ∈ ops, ∀ {s t}, R s t → Option.Rel (fun x y => x.1 = y.1 ∧ R x.2 y.2) (f op s) (g op t)) →
    ∀ {s : S} {t : T}, R s t →
      Option.Rel (fun x y => x.1 = y.1 ∧ R x.2 y.2) (run f ops s) (run g ops t)
  | [], _, _, _, hR => .some ⟨rfl, hR⟩
  | op :: ops, hstep, s, t, hR => by
    have h := hstep op List.mem_cons_self hR
    simp only [run]
    generalize f op s = x at h ⊢
    generalize g op t = y at h ⊢
    cases h with
    | none => exact .none
    | @some x y h =>
      have ih := run_rel (fun op' h' => hstep op' (List.mem_cons_of_mem _ h')) h.2
      change Option.Rel _ ((run f ops x.2).bind _) ((run g ops y.2).bind _)
      generalize run f ops x.2 = xs at ih ⊢
      generalize run g ops y.2 = ys at ih ⊢
      cases ih with
      | none => exact .none
      | some ih => exact .some ⟨by rw [h.1, ih.1], ih.2⟩

/-- A word on which a thread makes any operations, from 0 on, answers as the record does: `tryLock`
returns the same, an assertion fails in neither or in both, and so do the getters and comparisons. -/
theorem run_answers {ops : List WordOp} (hops : ∀ op ∈ ops, op.InRange) {n : LNode K V}
    (hn : n.word = {}) :
    Option.Rel (fun x y => x.1 = y.1 ∧ VersionMask.Answers x.2 y.2) (run onMask ops 0)
      (run onNode ops n) := by
  have hR : toWord 0 = n.word := toWord_zero.trans hn.symm
  have hstep : ∀ op ∈ ops, ∀ {l : VersionMask} {n : LNode K V}, toWord l = n.word →
      Option.Rel (fun x y => x.1 = y.1 ∧ toWord x.2 = y.2.word) (onMask op l) (onNode op n) :=
    fun op hop _ _ h => onMask_onNode h (hops op hop)
  have h := run_rel (R := fun l (n : LNode K V) => toWord l = n.word) hstep hR
  generalize run onMask ops 0 = x at h ⊢
  generalize run onNode ops n = y at h ⊢
  cases h with
  | none => exact .none
  | some h => exact .some ⟨h.1, answers_of_toWord h.2⟩

/-- A node locked, deleted at the largest version, and locked again after it was unlocked. -/
theorem run_answers_deleted :
    Option.Rel (fun x y => x.1 = y.1 ∧ VersionMask.Answers x.2 y.2)
      (run onMask [.tryLock, .setVersionAndDeletedAndSingleton 0x0fffffffffffffff true true, .unlock,
        .tryLock] 0)
      (run onNode [.tryLock, .setVersionAndDeletedAndSingleton 0x0fffffffffffffff true true, .unlock,
        .tryLock] ({ key := 5 } : LNode Nat Nat)) :=
  run_answers (by simp [InRange]) rfl

end WordOp

end TxList
