import TxList.Proofs.Frame
import TxList.Proofs.SingletonOps

/-!
# What every singleton operation keeps

A list operation by a thread with no transaction open changes nothing of the thread's own state.
It stamps the nodes it changes with the clock's version and the singleton bit, which marks them for
every transaction that is running; only the predecessor of a node it inserts gets no stamp.
-/

namespace TxList

open Prog

variable {K V : Type} {m : Nat}

/-- Only the indexes differ. -/
structure Ctx.Reindexed (c c' : Ctx K V m) : Prop where
  shared : c'.shared = { c.shared with index := c'.shared.index }
  storage : c'.storage = c.storage
  transaction : c'.transaction = c.transaction

namespace Ctx.Reindexed

variable {c c' c'' : Ctx K V m}

theorem refl (c : Ctx K V m) : c.Reindexed c := ⟨rfl, rfl, rfl⟩

theorem trans (h : c.Reindexed c') (h' : c'.Reindexed c'') : c.Reindexed c'' :=
  ⟨by rw [h'.shared, h.shared], h'.storage.trans h.storage, h'.transaction.trans h.transaction⟩

theorem mem (h : c.Reindexed c') : c'.shared.mem = c.shared.mem := by rw [h.shared]

theorem gvc (h : c.Reindexed c') : c'.shared.gvc = c.shared.gvc := by rw [h.shared]

theorem fresh (h : c.Reindexed c') : c'.shared.fresh = c.shared.fresh := by rw [h.shared]

end Ctx.Reindexed

/-- A search as a singleton, from `c` on: it gets on and changes nothing but the indexes. -/
structure Searching (c₀ c c' : Ctx K V m) : Prop where
  onward : Onward c₀ c'
  same : c.Reindexed c'

/-- Every node but those with a singleton's stamp is as it was. -/
def Stamps (s s' : Shared K V m) : Prop :=
  ∀ n, s'.mem n = s.mem n ∨
    (s'.mem n).word.version = s.gvc ∧ (s'.mem n).word.singleton = true

/-- What a list operation as a singleton does: a node it changes without adding one to the list
is stamped. -/
structure Single (c c' : Ctx K V m) : Prop where
  onward : Onward c c'
  storage : c'.storage = c.storage
  transaction : c'.transaction = c.transaction
  stamps : c'.shared.fresh = c.shared.fresh → Stamps c.shared c'.shared

section Stamp

variable {c₀ c : Ctx K V m}

/-- A singleton's stamp marks the node for every transaction that is running. -/
theorem Onward.stamp (h : Onward c₀ c) (n : NodeId) {x : LNode K V}
    (hkey : x.key = (c.shared.mem n).key) (hnext : ∀ y, x.next = some y → y < c.shared.fresh)
    (hv : x.word.version = c.shared.gvc) (hs : x.word.singleton = true)
    (hl : x.word.lock = (c.shared.mem n).word.lock) :
    Onward c₀ { c with shared := c.shared.setNode n x } := by
  refine h.setNode (fun _ => hkey) (fun _ => hv ▸ h.sane.version n) (fun _ rv hrv _ => ?_) hnext hv.le
    (hl.trans (h.sane.unlocked n))
  rcases hrv.lt_or_eq with hlt | he
  · exact .inl (hv ▸ hlt)
  · exact .inr ⟨hv.trans he.symm, hs⟩

/-- A node is linked after `pred`, which gets no stamp. -/
theorem Onward.link (h : Onward c₀ c) {pred : NodeId} {x : LNode K V} (hp : pred < c.shared.fresh)
    (hnext : ∀ y, x.next = some y → y < c.shared.fresh) (hv : x.word.version ≤ c.shared.gvc)
    (hl : x.isLocked = false) : Onward c₀ { c with
      shared := (c.shared.alloc x).setNode pred
        { c.shared.mem pred with next := some c.shared.fresh } } := by
  have h₁ := h.alloc hnext hv hl
  exact h₁.setNode (n := pred) (x := { c.shared.mem pred with next := some c.shared.fresh })
    (fun _ => by simp [Function.update_of_ne hp.ne]) (fun _ => by simp [Function.update_of_ne hp.ne])
    (fun _ _ _ hm => by simpa [Function.update_of_ne hp.ne, Marked] using hm)
    (fun y hy => by
      obtain rfl := Option.some.inj hy
      exact Nat.lt_succ_self _) (h.sane.version pred) (h.sane.unlocked pred)

theorem Searching.single (h : Searching c₀ c₀ c) : Single c₀ c :=
  ⟨h.onward, h.same.storage, h.same.transaction, fun _ n => .inl (by rw [h.same.mem])⟩

end Stamp

section ListOps

variable [LinearOrder K] {c₀ c : Ctx K V m} {fuel : Nat} {l : ListId m} {key : K}

theorem indexGetPred_searching {c₁ : Ctx K V m} (h : Searching c₀ c₁ c) :
    Ends (indexGetPred fuel l key) c (fun p c' => Searching c₀ c₁ c' ∧ p < c'.shared.fresh)
      (OnAbort fun _ => False) := by
  have h2 : Ends (indexGetPred fuel l key) c (fun _ c' => c.Reindexed c')
      (OnAbort fun _ => False) := by
    simp only [indexGetPred, Ends_onIndex, OnAbort_diverged, implies_true, true_and]
    exact fun ix p _ => ⟨rfl, rfl, rfl⟩
  exact (((Onward.stable _).indexGetPred h.onward).and h2).mono
    (fun p c' hp => ⟨⟨hp.1.1, h.same.trans hp.2⟩, hp.1.2⟩) fun _ _ he => he.2

theorem getPredSingletonLoop_searching {c₁ : Ctx K V m} : ∀ (n : Nat) {c : Ctx K V m} {pred : NodeId},
    Searching c₀ c₁ c → pred < c.shared.fresh → Ends (getPredSingletonLoop fuel l n pred) c
      (fun p c' => Searching c₀ c₁ c' ∧ p < c'.shared.fresh) (OnAbort fun _ => False)
  | 0, _, _, _, _ => by simp [getPredSingletonLoop]
  | n + 1, c, pred, h, hp => by
    simp only [getPredSingletonLoop, Ends_bind, Ends_node, Ends_ite, Ends_pure]
    refine ⟨fun _ => ⟨fun _ => ⟨h, hp⟩, fun _ => ?_⟩, fun _ => ⟨h, hp⟩⟩
    exact (indexGetPred_searching h).mono (fun p c' hc => getPredSingletonLoop_searching n hc.1 hc.2)
      fun _ _ he => he

theorem findSingletonLoop_searching : ∀ (n : Nat) {c : Ctx K V m} {pred : NodeId}
    {next : Option NodeId}, Onward c₀ c → pred < c.shared.fresh →
    (∀ y, next = some y → y < c.shared.fresh) → Ends (findSingletonLoop key n pred next) c
      (fun r c' => c' = c ∧ ∀ b p o, r = some (b, p, o) → p < c.shared.fresh ∧
        ∀ y, o = some y → y < c.shared.fresh) (OnAbort fun _ => False)
  | 0, _, _, _, _, _, _ => by simp [findSingletonLoop]
  | n + 1, c, pred, none, h, hp, hn => by
    simp only [findSingletonLoop, Ends_pure, true_and, Option.some.injEq, Prod.mk.injEq]
    rintro _ _ _ ⟨-, rfl, rfl⟩
    exact ⟨hp, hn⟩
  | n + 1, c, pred, some next, h, hp, hn => by
    have hret : ∀ (b : Bool) (o : Option NodeId), (∀ y, o = some y → y < c.shared.fresh) →
        ∀ b' p' o', some (b, pred, o) = some (b', p', o') → p' < c.shared.fresh ∧
          ∀ y, o' = some y → y < c.shared.fresh := by
      intro b o ho b' p' o' he
      simp only [Option.some.injEq, Prod.mk.injEq] at he
      obtain ⟨-, rfl, rfl⟩ := he
      exact ⟨hp, ho⟩
    have hno : ∀ b p (o : Option NodeId), (none : Option (Bool × NodeId × Option NodeId)) =
        some (b, p, o) → p < c.shared.fresh ∧ ∀ y, o = some y → y < c.shared.fresh :=
      fun _ _ _ he => by simp at he
    simp only [findSingletonLoop, Ends_bind, Ends_node, Ends_ite, Ends_pure]
    refine ⟨fun _ => ⟨trivial, hno⟩, fun _ => ⟨fun _ => ⟨trivial, hret _ _ (h.sane.next pred)⟩,
      fun _ => ⟨fun _ => ⟨trivial, hret _ _ hn⟩, fun _ => ⟨fun _ => ⟨trivial, hno⟩, fun _ => ?_⟩⟩⟩⟩
    split
    · exact ⟨rfl, hno⟩
    · rename_i y hy
      simp only [Ends_bind, Ends_node, Ends_ite, Ends_pure]
      exact ⟨fun _ => ⟨trivial, hno⟩, fun _ =>
        findSingletonLoop_searching n h (h.sane.next pred y hy) (h.sane.next y)⟩

theorem find_node_singelton_searching {c₁ : Ctx K V m} : ∀ (n : Nat) {c : Ctx K V m},
    Searching c₀ c₁ c → Ends (find_node_singelton fuel l key n) c
      (fun r c' => Searching c₀ c₁ c' ∧ r.2.1 < c'.shared.fresh ∧
        ∀ y, r.2.2 = some y → y < c'.shared.fresh) (OnAbort fun _ => False)
  | 0, _, _ => by simp [find_node_singelton]
  | n + 1, c, h => by
    simp only [find_node_singelton, getPredSingleton, Ends_bind]
    refine (indexGetPred_searching h).mono (fun p c₁ h₁ => ?_) fun _ _ he => he
    refine (getPredSingletonLoop_searching fuel h₁.1 h₁.2).mono (fun pred c₂ h₂ => ?_)
      fun _ _ he => he
    simp only [Ends_node, Ends_ite]
    refine ⟨fun _ => find_node_singelton_searching n h₂.1,
      fun _ => ⟨fun _ => find_node_singelton_searching n h₂.1, fun _ => ?_⟩⟩
    simp only [Ends_bind]
    refine (findSingletonLoop_searching fuel h₂.1.onward h₂.2 (h₂.1.onward.sane.next pred)).mono
      (fun r c₃ h₃ => ?_) fun _ _ he => he
    obtain ⟨rfl, h₃⟩ := h₃
    rcases r with _ | ⟨b, p, o⟩
    · exact find_node_singelton_searching n h₂.1
    · exact ⟨h₂.1, h₃ b p o rfl⟩

theorem onIndex_add_onward (h : Onward c₀ c) (l : ListId m) {n drawn : Nat}
    (hn : n < c.shared.fresh) :
    Ends (onIndex l fun v ix => (ix.add v fuel drawn n).map (·, ())) c
      (fun _ c' => Onward c₀ c' ∧ c.Reindexed c') (OnAbort fun _ => False) := by
  simp only [Ends_onIndex, OnAbort_diverged, implies_true, true_and, Option.map_eq_some_iff,
    Prod.mk.injEq, and_true]
  rintro ix - ⟨_, hadd, rfl⟩
  refine ⟨h.setIndex l fun i => ?_, rfl, rfl, rfl⟩
  rcases Index.nodes_add hadd i with ⟨j, hj⟩ | hj
  · rw [hj]
    exact h.sane.index l j
  · rw [hj]
    exact hn

theorem onIndex_remove_onward (h : Onward c₀ c) (l : ListId m) (n : NodeId) :
    Ends (onIndex l fun v ix => (ix.remove v fuel n).map (·, ())) c
      (fun _ c' => Onward c₀ c' ∧ c.Reindexed c') (OnAbort fun _ => False) := by
  simp only [Ends_onIndex, OnAbort_diverged, implies_true, true_and, Option.map_eq_some_iff,
    Prod.mk.injEq, and_true]
  rintro ix - ⟨_, hr, rfl⟩
  refine ⟨h.setIndex l fun i => ?_, rfl, rfl, rfl⟩
  rw [Index.node_remove hr i]
  exact h.sane.index l i

section With

variable {α : Type} {update : NodeId → Call K V m α} {val : V} {Q : Option V × Option α → Ctx K V m → Prop}

theorem putSingletonLoopWith_single (hkeep : ∀ v c, Single c₀ c → Q (v, none) c)
    (hadd : ∀ n c, Onward c₀ c → n < c.shared.fresh → c₀.shared.fresh < c.shared.fresh →
      c.storage = c₀.storage → c.transaction = c₀.transaction →
      Ends (update n) c (fun a => Q (none, some a)) (OnAbort fun _ => False)) : ∀ (n : Nat)
    {c : Ctx K V m}, Searching c₀ c₀ c →
    Ends (putSingletonLoopWith update fuel l key val n) c Q (OnAbort fun _ => False)
  | 0, _, _ => by simp [putSingletonLoopWith]
  | n + 1, c, h => by
    refine putSingletonLoopWith_ends (find_node_singelton_searching fuel h)
      (fun r c' hr _ => putSingletonLoopWith_single hkeep hadd n hr.1)
      (fun pred y c' hr _ _ _ _ => hkeep _ _ ?_) (fun pred c' hr hl _ => ?_) fun _ _ _ _ _ => trivial
    · obtain ⟨h₁, -, hn⟩ := hr
      have h₂ := h₁.onward.stamp y (x := { c'.shared.mem y with val := some val, word :=
        { (c'.shared.mem y).word with singleton := true, version := c'.shared.gvc } }) rfl
        (h₁.onward.sane.next y) rfl rfl rfl
      refine ⟨h₂, h₁.same.storage, h₁.same.transaction, fun _ k => ?_⟩
      by_cases hk : k = y
      · subst hk
        exact .inr (by simp [Shared.stampValue, h₁.same.gvc])
      · exact .inl (by simp [Shared.stampValue, hk, h₁.same.mem])
    · obtain ⟨h₁, hp, hn⟩ := hr
      refine insertSingletonWith_ends hl hp.ne ?_
      exact hadd _ _ (h₁.onward.link hp (h₁.onward.sane.next pred) le_rfl rfl) (Nat.lt_succ_self _)
        (h₁.same.fresh ▸ Nat.lt_succ_self _) h₁.same.storage h₁.same.transaction

theorem removeSingletonLoopWith_single
    (hkeep : ∀ v c, Single c₀ c → c.shared.fresh = c₀.shared.fresh → Q (v, none) c)
    (hremove : ∀ x v c, Single c₀ c → c.shared.fresh = c₀.shared.fresh →
      Ends (update x) c (fun a => Q (v, some a)) (OnAbort fun _ => False)) : ∀ (n : Nat)
    {c : Ctx K V m}, Searching c₀ c₀ c →
    Ends (removeSingletonLoopWith update fuel l key n) c Q (OnAbort fun _ => False)
  | 0, _, _ => by simp [removeSingletonLoopWith]
  | n + 1, c, h => by
    refine removeSingletonLoopWith_ends (find_node_singelton_searching fuel h)
      (fun _ _ c' hr _ => removeSingletonLoopWith_single hkeep hremove n hr.1)
      (fun _ _ c' hr => hkeep _ _ hr.1.single hr.1.same.fresh)
      (fun pred x c' hr _ hne _ _ _ => ?_) fun _ _ _ => trivial
    obtain ⟨h₁, -, -⟩ := hr
    have h₂ := h₁.onward.stamp x (x := { c'.shared.mem x with val := none, word :=
      { (c'.shared.mem x).word with
        singleton := true, deleted := true, version := c'.shared.gvc } }) rfl
      (h₁.onward.sane.next x) rfl rfl rfl
    have h₃ := h₂.stamp pred (x := { c'.shared.mem pred with next := (c'.shared.mem x).next, word :=
      { (c'.shared.mem pred).word with singleton := true, version := c'.shared.gvc } })
      (by simp [Function.update_of_ne hne]) (h₁.onward.sane.next x) rfl rfl
      (by simp [Function.update_of_ne hne])
    have hs : c'.shared.unlinkStamped pred x = (c'.shared.setNode x
        { c'.shared.mem x with val := none, word := { (c'.shared.mem x).word with
          singleton := true, deleted := true, version := c'.shared.gvc } }).setNode pred
        { c'.shared.mem pred with next := (c'.shared.mem x).next, word :=
          { (c'.shared.mem pred).word with singleton := true, version := c'.shared.gvc } } := by
      simp [Shared.unlinkStamped, Shared.setNode, Function.update_of_ne hne]
    rw [hs]
    refine hremove _ _ _ ⟨h₃, h₁.same.storage, h₁.same.transaction, fun _ k => ?_⟩ h₁.same.fresh
    simp only [Shared.setNode_mem]
    by_cases hk : k = pred
    · subst hk
      exact .inr (by simp [h₁.same.gvc])
    · by_cases hk' : k = x
      · subst hk'
        exact .inr (by simp [hk, h₁.same.gvc])
      · exact .inl (by simp [hk, hk', h₁.same.mem])

end With

theorem putSingletonLoop_single {level : NodeId → Nat} {val : V} (n : Nat) (h : Searching c₀ c₀ c) :
    Ends (putSingletonLoop fuel level l key val n) c (fun _ => Single c₀) (OnAbort fun _ => False) := by
  rw [putSingletonLoop, Ends_map]
  refine putSingletonLoopWith_single (fun _ _ hc => hc) (fun k c' hc hk hlt hst htx => ?_) n h
  refine (onIndex_add_onward hc l hk).mono (fun _ c'' h'' => ?_) fun _ _ he => he
  refine ⟨h''.1, h''.2.storage.trans hst, h''.2.transaction.trans htx, fun he => ?_⟩
  rw [h''.2.fresh] at he
  exact absurd he hlt.ne'

theorem removeSingletonLoop_single (n : Nat) (h : Searching c₀ c₀ c) :
    Ends (removeSingletonLoop fuel l key n) c
      (fun _ c' => Single c₀ c' ∧ c'.shared.fresh = c₀.shared.fresh) (OnAbort fun _ => False) := by
  rw [removeSingletonLoop, Ends_map]
  refine removeSingletonLoopWith_single (fun _ _ hc hf => ⟨hc, hf⟩) (fun x v c' hc hf => ?_) n h
  rw [Ends_bind]
  refine (onIndex_remove_onward hc.onward l x).mono (fun _ c'' h'' => Ends_retire_node.2 ?_)
    fun _ _ he => he
  refine ⟨⟨h''.1.retire _, h''.2.storage.trans hc.storage, h''.2.transaction.trans hc.transaction,
    fun _ k => ?_⟩, h''.2.fresh.trans hf⟩
  have hk := hc.stamps hf k
  rwa [← h''.2.mem] at hk

theorem getSingleton_single (h : Searching c₀ c₀ c) :
    Ends (getSingleton fuel l key) c (fun _ => Single c₀) (OnAbort fun _ => False) := by
  simp only [getSingleton, Ends_bind]
  refine (find_node_singelton_searching fuel h).mono (fun r c' hr => ?_) fun _ _ he => he
  split
  · simpa using hr.1.single
  · simp
  · simpa using hr.1.single

end ListOps

end TxList
