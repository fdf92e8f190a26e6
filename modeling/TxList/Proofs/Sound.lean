import TxList.Proofs.Accounts
import TxList.Proofs.IndexTies
import TxList.Proofs.Fuel

/-!
# What holds in every state

A singleton's insertion behind a transaction's back can leave a list without some of its nodes, or
with a dead one. What stays, whatever the threads do, is that pointers lead to greater keys, that the
heads are alive and that the indexes are well formed up to ties: enough for every call in a
transaction to come to an end.
-/

namespace TxList

open Prog

variable {K V : Type} {m : Nat} [LinearOrder K]

/-- A pointer from a node to one with a greater key, which is no head. -/
def Shared.Leads (s : Shared K V m) (n y : NodeId) : Prop :=
  m ≤ y ∧ y < s.fresh ∧ s.rank n < s.rank y

/-- `P` are nodes that are still to be added to an index. -/
structure Shared.Sound (s : Shared K V m) (P : ListId m → NodeId → Prop) : Prop where
  allocated : m ≤ s.fresh
  blank : ∀ n, s.fresh ≤ n → (s.mem n).word = {}
  edge : ∀ n y, (s.mem n).next = some y → s.Leads n y
  heads : ∀ l : ListId m, (s.mem (head l)).val.isSome = true ∧ (s.mem (head l)).isDeleted = false
  index : ∀ l, ∃ A : Finset NodeId, Ordered m s.view (head l) (s.index l) A ∧
    ∀ a ∈ A, a < s.fresh ∧ ¬ P l a

/-- A write set that keeps this when it is written back. -/
structure LocalStorage.Sound (ls : LocalStorage V m) (s : Shared K V m) : Prop where
  edge : ∀ n we y, ls.writeSet.lookup n = some we → we.next = some y → s.Leads n y
  written : ∀ n ∈ ls.writeSet, n < s.fresh
  heads : ∀ (l : ListId m) we, ls.writeSet.lookup (head l) = some we → we.val.isSome = true ∧ we.deleted = false
  nodup : ∀ l, (ls.indexAdd l).Nodup
  pending : ∀ l, ∀ n ∈ ls.indexAdd l, m ≤ n ∧ n < s.fresh

/-- What a thread's calls start from; `P` are the nodes the others are to add. -/
structure Ctx.Sound (P : ListId m → NodeId → Prop) (c : Ctx K V m) : Prop where
  shared : c.shared.Sound fun l n => P l n ∨ n ∈ c.storage.indexAdd l
  storage : c.storage.Sound c.shared
  apart : ∀ l n, P l n → n < c.shared.fresh ∧ n ∉ c.storage.indexAdd l

theorem head_lt (l : ListId m) : head l < m := l.isLt

namespace Shared.Sound

variable {s s' : Shared K V m} {P P' : ListId m → NodeId → Prop}

theorem mono (h : s.Sound P) (hP : ∀ l n, P' l n → P l n) : s.Sound P' where
  allocated := h.allocated
  blank := h.blank
  edge := h.edge
  heads := h.heads
  index l := by
    obtain ⟨A, hA, hb⟩ := h.index l
    exact ⟨A, hA, fun a ha => ⟨(hb a ha).1, fun hp => (hb a ha).2 (hP l a hp)⟩⟩

/-- A change of the nodes that leaves the keys as they are. -/
theorem rewrite (h : s.Sound P) (hfresh : s'.fresh = s.fresh) (hindex : s'.index = s.index)
    (hkey : ∀ n, (s'.mem n).key = (s.mem n).key)
    (hblank : ∀ n, s.fresh ≤ n → (s'.mem n).word = (s.mem n).word)
    (hnext : ∀ n y, (s'.mem n).next = some y → s.Leads n y)
    (hheads : ∀ l : ListId m, (s'.mem (head l)).val.isSome = true ∧ (s'.mem (head l)).isDeleted = false) :
    s'.Sound P := by
  have hrank : s'.rank = s.rank := by
    funext n
    simp only [Shared.rank, hkey n]
  refine ⟨hfresh ▸ h.allocated, fun n hn => ?_, fun n y hy => ?_, hheads, fun l => ?_⟩
  · rw [hfresh] at hn
    rw [hblank n hn, h.blank n hn]
  · simp only [Shared.Leads, hrank, hfresh]
    exact hnext n y hy
  · obtain ⟨A, hA, hb⟩ := h.index l
    rw [hindex, hfresh]
    exact ⟨A, hA.congr fun n _ => hkey n, hb⟩

/-- A change of one list's index. -/
theorem setIndex (h : s.Sound P) {l : ListId m} {ix : Index}
    (hix : ∃ A : Finset NodeId, Ordered m s.view (head l) ix A ∧ ∀ a ∈ A, a < s.fresh ∧ ¬ P l a) :
    Shared.Sound { s with index := Function.update s.index l ix } P := by
  refine ⟨h.allocated, h.blank, h.edge, h.heads, fun l' => ?_⟩
  by_cases hl : l' = l
  · subst hl
    simp only [Function.update_self]
    exact hix
  · simp only [Function.update_of_ne hl]
    exact h.index l'

theorem retire (h : s.Sound P) (r : List NodeId) : Shared.Sound { s with retired := r } P :=
  ⟨h.allocated, h.blank, h.edge, h.heads, h.index⟩

theorem alloc (h : s.Sound P) {x : LNode K V} (hx : ∀ y, x.next = some y →
      m ≤ y ∧ y < s.fresh ∧ (x.key : WithBot K) < s.rank y)
    (hP : ∀ l, ∀ n < s.fresh, P' l n → P l n) : (s.alloc x).Sound P' := by
  have hold : ∀ n < s.fresh, (s.alloc x).mem n = s.mem n := fun n hn => by
    simp [Function.update_of_ne (show n ≠ s.fresh from hn.ne)]
  have hrank : ∀ n < s.fresh, (s.alloc x).rank n = s.rank n := fun n hn => by
    simp only [Shared.rank, hold n hn]
  have hlt : ∀ l : ListId m, head l < s.fresh := fun l => (head_lt l).trans_le h.allocated
  refine ⟨h.allocated.trans (Nat.le_succ _), fun n hn => ?_, fun n y hy => ?_, fun l => ?_,
    fun l => ?_⟩
  · have hn : s.fresh < n := hn
    simp only [Shared.alloc_mem, Function.update_of_ne (show n ≠ s.fresh from hn.ne')]
    exact h.blank n hn.le
  · by_cases hn : n = s.fresh
    · subst hn
      obtain ⟨h1, h2, h3⟩ := hx y (by simpa using hy)
      refine ⟨h1, h2.trans (Nat.lt_succ_self _), ?_⟩
      rw [hrank y h2, Shared.rank_of_le _ h.allocated]
      simpa using h3
    · have hnext : (s.mem n).next = some y := by simpa [hn] using hy
      obtain ⟨h1, h2, h3⟩ := h.edge n y hnext
      refine ⟨h1, h2.trans (Nat.lt_succ_self _), ?_⟩
      rw [hrank y h2]
      have hkeep : (s.alloc x).rank n = s.rank n := by simp [Shared.rank, hn]
      rwa [hkeep]
  · rw [hold _ (hlt l)]
    exact h.heads l
  · obtain ⟨A, hA, hb⟩ := h.index l
    refine ⟨A, hA.congr fun n hn => ?_, fun a ha =>
      ⟨(hb a ha).1.trans (Nat.lt_succ_self _), fun hp => (hb a ha).2 (hP l a (hb a ha).1 hp)⟩⟩
    have hn : n < s.fresh := by
      rcases Finset.mem_insert.1 hn with rfl | hn
      · exact hlt l
      · exact (hb n hn).1
    simp only [Shared.view, hold n hn]

end Shared.Sound

/-! ## Searches in a transaction -/

section Search

variable {P : ListId m → NodeId → Prop} {c c' : Ctx K V m} {l : ListId m} {key : K}

/-- The pointers a transaction sees. -/
theorem Ctx.Sound.leads (h : c.Sound P) {n y : NodeId} (hy : c.storage.nextOf c.shared.mem n = some y) :
    c.shared.Leads n y := by
  simp only [LocalStorage.nextOf] at hy
  split at hy
  · rename_i we hwe
    exact h.storage.edge n we y hwe hy
  · exact h.shared.edge n y hy

/-- A call that throws changes no version. It has met a mark, and moved the clock on unless the mark
is later than the transaction. -/
structure Ctx.Quits (P : ListId m → NodeId → Prop) (c c' : Ctx K V m) : Prop where
  sound : c'.Sound P
  version : ∀ n, (c'.shared.mem n).word.version = (c.shared.mem n).word.version
  marked : (c.transaction.TX = true → c.Blocked) ∨ c'.shared.gvc = c.shared.gvc + 1 ∧
    ∃ n, Marked (c.shared.mem n) c.transaction.readVersion

/-- A search that has only brought the indexes up to date so far. -/
structure Ctx.Sought (P : ListId m → NodeId → Prop) (c c' : Ctx K V m) : Prop where
  sound : c'.Sound P
  same : c.Reindexed c'

omit [LinearOrder K] in
theorem Ctx.Reindexed.rank (h : c.Reindexed c') : c'.shared.rank = c.shared.rank := by
  funext n
  simp only [Shared.rank, h.mem]

theorem Ctx.Sought.quits {c'' : Ctx K V m} (h : c.Sought P c') (h' : c'.Quits P c'') :
    c.Quits P c'' := by
  refine ⟨h'.sound, fun n => ?_, ?_⟩
  · rw [h'.version n, h.same.mem]
  · have hm := h'.marked
    simp only [Ctx.Blocked, h.same.mem, h.same.gvc, h.same.transaction] at hm
    exact hm

theorem Ctx.Sought.trans {c'' : Ctx K V m} (h : c.Sought P c') (h' : c'.Sought P c'') :
    c.Sought P c'' := ⟨h'.sound, h.same.trans h'.same⟩

theorem Ctx.Sought.throws (h : c.Sought P c') (e : Err) (c'' : Ctx K V m)
    (he : Throws (c'.Quits P) e c'') : Throws (c.Quits P) e c'' := by
  rcases e with _ | _ | _ | _
  · exact h.quits he
  all_goals exact he

/-- The transaction closes, and the clock may move on. -/
theorem Ctx.Sound.quit (h : c.Sound P) (gvc : Nat) : Ctx.Sound P { c with
    shared := { c.shared with gvc := gvc }
    transaction := { c.transaction with TX := false } } :=
  ⟨⟨h.shared.allocated, h.shared.blank, h.shared.edge, h.shared.heads, h.shared.index⟩,
    ⟨h.storage.edge, h.storage.written, h.storage.heads, h.storage.nodup, h.storage.pending⟩, h.apart⟩

theorem checkNode_sound (h : c.Sound P) {n : NodeId} {Q : Unit → Ctx K V m → Prop}
    (hQ : ¬ Marked (c.shared.mem n) c.transaction.readVersion → Q () c) :
    Ends (checkNode n) c Q (Throws (c.Quits P)) :=
  checkNode_rule (fun hb => ⟨h.quit c.shared.gvc, fun _ => rfl, .inl fun _ => hb⟩)
    (fun hm => ⟨h.quit _, fun _ => rfl, .inr ⟨rfl, n, hm⟩⟩) hQ

/-- The node the transaction is about to use may be used. -/
def Ctx.Usable (c : Ctx K V m) (n : NodeId) : Prop :=
  n ∈ c.storage.writeSet ∨ ¬ Marked (c.shared.mem n) c.transaction.readVersion

omit [LinearOrder K] in
theorem Ctx.Clear.usable {n : NodeId} (h : c.Clear n) : c.Usable n := h.imp_right And.left

theorem getNext_sound (h : c.Sound P) {n : NodeId} {Q : Option NodeId → Ctx K V m → Prop}
    (hQ : c.Clear n → Q (c.storage.nextOf c.shared.mem n) c) :
    Ends (getNext n) c Q (Throws (c.Quits P)) :=
  getNext_rule (fun hb => ⟨h.quit c.shared.gvc, fun _ => rfl, .inl fun _ => hb⟩)
    (fun k hm => ⟨h.quit _, fun _ => rfl, .inr ⟨rfl, k, hm⟩⟩) hQ

theorem indexGetPred_settles {E : Err → Ctx K V m → Prop} (h : c.Sound P) :
    Settles (fun n => indexGetPred n l key) c (fun p c' => c.Sought P c' ∧ p < c.shared.fresh ∧
      c.shared.rank p < key) E := by
  obtain ⟨A, hA, hb⟩ := h.shared.index l
  obtain ⟨hspec, N, hN⟩ := hA.getPred_spec (head_lt l) (h.shared.heads l).1 key
  refine ⟨N, ?_⟩
  simp only [indexGetPred, Ends_onIndex]
  refine ⟨fun hno => ?_, fun ix p hp => ?_⟩
  · have := hN N le_rfl
    rw [hno] at this
    simp at this
  · obtain ⟨⟨A', hsub, hA'⟩, hpA, hlt⟩ := hspec N ix p hp
    refine ⟨⟨⟨h.shared.setIndex ⟨A', hA', fun a ha => hb a (hsub ha)⟩, ?_, h.apart⟩, rfl, rfl, rfl⟩,
      ?_, ?_⟩
    · exact ⟨h.storage.edge, h.storage.written, h.storage.heads, h.storage.nodup, h.storage.pending⟩
    · rcases hpA with rfl | hpA
      · exact (head_lt l).trans_le h.shared.allocated
      · exact (hb p hpA).1
    · by_cases hm : m ≤ p
      · rw [Shared.rank_of_le _ hm]
        exact WithBot.coe_lt_coe.2 (hlt hm)
      · simp only [Shared.rank, Nat.not_le.1 hm, if_true]
        exact WithBot.bot_lt_coe key

/-- The nodes with smaller keys, and those with greater ones. -/
def Shared.under (s : Shared K V m) (n : NodeId) : Finset NodeId :=
  (Finset.range s.fresh).filter fun k => s.rank k < s.rank n

def Shared.over (s : Shared K V m) (n : NodeId) : Finset NodeId :=
  (Finset.range s.fresh).filter fun k => s.rank n < s.rank k

theorem Shared.card_under_lt {s : Shared K V m} {k n : NodeId} (hk : k < s.fresh)
    (h : s.rank k < s.rank n) : (s.under k).card < (s.under n).card := by
  refine Finset.card_lt_card ⟨fun i hi => ?_, fun hsub => ?_⟩
  · obtain ⟨hi, hlt⟩ := Finset.mem_filter.1 hi
    exact Finset.mem_filter.2 ⟨hi, hlt.trans h⟩
  · have := hsub (Finset.mem_filter.2 ⟨Finset.mem_range.2 hk, h⟩)
    exact (Finset.mem_filter.1 this).2.ne rfl

theorem Shared.card_over_lt {s : Shared K V m} {k n : NodeId} (hk : k < s.fresh)
    (h : s.rank n < s.rank k) : (s.over k).card < (s.over n).card := by
  refine Finset.card_lt_card ⟨fun i hi => ?_, fun hsub => ?_⟩
  · obtain ⟨hi, hlt⟩ := Finset.mem_filter.1 hi
    exact Finset.mem_filter.2 ⟨hi, h.trans hlt⟩
  · have := hsub (Finset.mem_filter.2 ⟨Finset.mem_range.2 hk, h⟩)
    exact (Finset.mem_filter.1 this).2.ne rfl

/-- A head is deleted neither in the memory nor in the write set. -/
theorem Ctx.Sound.le_of_deleted (h : c.Sound P) {n : NodeId}
    (hn : (c.storage.deletes n || (c.shared.mem n).isDeleted) = true) : m ≤ n := by
  by_contra hlt
  obtain ⟨l, rfl⟩ : ∃ l : ListId m, n = head l := ⟨⟨n, Nat.not_le.1 hlt⟩, rfl⟩
  rw [(h.shared.heads l).2, Bool.or_false, LocalStorage.deletes] at hn
  split at hn
  · rename_i we hwe
    rw [(h.storage.heads l we hwe).2] at hn
    simp at hn
  · simp at hn

/-- Each turn goes back to a smaller key. -/
theorem getPredLoop_settles : ∀ (k : Nat) {c : Ctx K V m} {pred : NodeId}, c.Sound P →
    pred < c.shared.fresh → c.shared.rank pred < key → (c.shared.under pred).card < k →
    Settles (fun n => getPredLoop n l n pred) c (fun p c' => c.Sought P c' ∧ p < c.shared.fresh ∧
      c.shared.rank p < key) (Throws (c.Quits P))
  | 0, _, _, _, _, _, hk => absurd hk (Nat.not_lt_zero _)
  | k + 1, c, pred, h, hp, hlt, hk => by
    refine Settles.turn (x := fun n => getPredLoop n l (n + 1) pred) ?_
      (fun n => getPredLoop_below (Nat.le_succ n) pred le_rfl) fun _ => id
    simp only [getPredLoop]
    refine .after (checkNode_sound h fun _ => .after ?_)
    rw [Ends_node]
    refine .after (Ends_get.2 ?_)
    change Settles (fun n => if (c.storage.deletes pred || (c.shared.mem pred).isDeleted) = true then
      (do assert (pred != head l)
          let p ← indexGetPred n l (c.shared.mem pred).key
          getPredLoop n l n p)
      else pure pred) c _ _
    by_cases hd : (c.storage.deletes pred || (c.shared.mem pred).isDeleted) = true
    · have hm := h.le_of_deleted hd
      have hne : (pred != head l) = true := bne_iff_ne.2 ((head_lt l).trans_le hm).ne'
      simp only [hd, if_true]
      refine .after (Ends_assert.2 ⟨fun _ => ?_, fun hh => by simp [hne] at hh⟩)
      refine .bind (d := .diverged) (fun hn => indexGetPred_below hn)
        (fun p _ _ hn => getPredLoop_below hn p hn) (fun _ => id) ?_
      refine (indexGetPred_settles h).mono (fun p c₁ hc₁ => ?_) fun _ _ he => he
      obtain ⟨h₁, hp₁, hlt₁⟩ := hc₁
      rw [← Shared.rank_of_le _ hm] at hlt₁
      have hcard := Shared.card_under_lt hp₁ hlt₁
      have hunder : c₁.shared.under p = c.shared.under p := by
        simp only [Shared.under, h₁.same.rank, h₁.same.fresh]
      refine (getPredLoop_settles k h₁.sound (by rwa [h₁.same.fresh])
        (by rw [h₁.same.rank]; exact hlt₁.trans hlt) (by rw [hunder]; omega)).mono
        (fun q c₂ hc₂ => ?_) h₁.throws
      obtain ⟨h₂, hq⟩ := hc₂
      rw [h₁.same.fresh, h₁.same.rank] at hq
      exact ⟨h₁.trans h₂, hq⟩
    · simp only [hd, Bool.false_eq_true, if_false]
      exact ⟨0, ⟨h, .refl c⟩, hp, hlt⟩

/-- What `find_node` finds: the place of the key among the pointers the transaction sees. -/
structure Ctx.Finds (P : ListId m → NodeId → Prop) (c : Ctx K V m) (key : K)
    (r : Bool × NodeId × Option NodeId) (c' : Ctx K V m) : Prop where
  sought : c.Sought P c'
  pred_lt : r.2.1 < c.shared.fresh
  rank_pred : c.shared.rank r.2.1 < key
  next : r.2.2 = c.storage.nextOf c.shared.mem r.2.1
  clear : c.Clear r.2.1
  rank_next : ∀ y, r.2.2 = some y → if r.1 then c.shared.rank y = key else key < c.shared.rank y

/-- Each turn goes on to a greater key. -/
theorem findLoop_settles (h : c.Sound P) : ∀ (k : Nat) {pred : NodeId}, pred < c.shared.fresh →
    c.shared.rank pred < key → c.Clear pred → (c.shared.over pred).card < k →
    Settles (fun n => findLoop key n pred (c.storage.nextOf c.shared.mem pred)) c (c.Finds P key)
      (Throws (c.Quits P))
  | 0, _, _, _, _, hk => absurd hk (Nat.not_lt_zero _)
  | k + 1, pred, hp, hlt, hu, hk => by
    refine Settles.turn (d := .diverged)
      (x := fun n => findLoop key (n + 1) pred (c.storage.nextOf c.shared.mem pred)) ?_
      (fun n => .refl _) fun _ => id
    rcases hn : c.storage.nextOf c.shared.mem pred with _ | y
    · simp only [findLoop]
      exact ⟨0, ⟨⟨h, .refl c⟩, hp, hlt, hn.symm, hu, fun y hy => by simp at hy⟩⟩
    · obtain ⟨hm, hy, hrank⟩ := h.leads hn
      have hkey := Shared.rank_of_le c.shared hm
      simp only [findLoop]
      refine .after (Ends_node.2 ?_)
      by_cases he : (c.shared.mem y).key = key
      · simp only [he, if_true]
        refine ⟨0, ⟨⟨h, .refl c⟩, hp, hlt, hn.symm, hu, fun y' hy' => ?_⟩⟩
        obtain rfl := Option.some.inj hy'
        simp [hkey, he]
      by_cases hgt : key < (c.shared.mem y).key
      · simp only [he, if_false, hgt, if_true]
        refine ⟨0, ⟨⟨h, .refl c⟩, hp, hlt, hn.symm, hu, fun y' hy' => ?_⟩⟩
        obtain rfl := Option.some.inj hy'
        simpa [hkey] using hgt
      · simp only [he, if_false, hgt]
        refine .after (getNext_sound h fun hu' => ?_)
        have hcard := Shared.card_over_lt hy hrank
        refine findLoop_settles h k hy ?_ hu' (by omega)
        rw [hkey]
        exact WithBot.coe_lt_coe.2 (lt_of_le_of_ne (not_lt.1 hgt) he)

omit [LinearOrder K] in
theorem Ctx.Reindexed.clear (h : c.Reindexed c') {n : NodeId} : c'.Clear n ↔ c.Clear n := by
  simp only [Ctx.Clear, h.storage, h.mem, h.transaction]

theorem Ctx.Sought.finds {r : Bool × NodeId × Option NodeId} {c'' : Ctx K V m} (h : c.Sought P c')
    (hr : c'.Finds P key r c'') : c.Finds P key r c'' where
  sought := h.trans hr.sought
  pred_lt := by
    rw [← h.same.fresh]
    exact hr.pred_lt
  rank_pred := by
    rw [← h.same.rank]
    exact hr.rank_pred
  next := by
    rw [← h.same.mem, ← h.same.storage]
    exact hr.next
  clear := h.same.clear.1 hr.clear
  rank_next := by
    rw [← h.same.rank]
    exact hr.rank_next

theorem find_node_settles (h : c.Sound P) (l : ListId m) (key : K) :
    Settles (fun n => find_node n l key) c (c.Finds P key) (Throws (c.Quits P)) := by
  simp only [find_node]
  refine .bind (d := .diverged) (fun hn => ?_) (fun p _ _ hn => ?_) (fun _ => id) ?_
  · simp only [getPred]
    exact .bind (indexGetPred_below hn) fun p => getPredLoop_below hn p hn
  · exact .bind (.refl _) fun next => findLoop_below p next hn
  simp only [getPred]
  refine .bind (d := .diverged) (fun hn => indexGetPred_below hn)
    (fun p _ _ hn => getPredLoop_below hn p hn) (fun _ => id) ?_
  refine (indexGetPred_settles h).mono (fun p c₁ hc₁ => ?_) fun _ _ he => he
  obtain ⟨h₁, hp₁, hlt₁⟩ := hc₁
  have hlt₁ : c₁.shared.rank p < key := by rwa [h₁.same.rank]
  refine (getPredLoop_settles _ h₁.sound (by rwa [h₁.same.fresh]) hlt₁ (Nat.lt_succ_self _)).mono
    (fun q c₂ hc₂ => ?_) h₁.throws
  obtain ⟨h₂, hq, hlt⟩ := hc₂
  have h₂' := h₁.trans h₂
  rw [← h₂.same.fresh] at hq
  rw [← h₂.same.rank] at hlt
  refine .after ((getNext_sound h₂.sound fun hu => ?_).mono (fun _ _ hQ => hQ) h₂'.throws)
  exact (findLoop_settles h₂.sound _ hq hlt hu (Nat.lt_succ_self _)).mono
    (fun r c₃ hr => h₂'.finds hr) h₂'.throws

end Search

/-! ## The operations in a transaction -/

section Ops

variable {P : ListId m → NodeId → Prop} {c c' : Ctx K V m} {l : ListId m} {key : K} {s : Shared K V m}
  {ls : LocalStorage V m}

theorem Shared.Leads.trans {n x y : NodeId} (h : s.Leads n x) (h' : s.Leads x y) : s.Leads n y :=
  ⟨h'.1, h'.2.1, h.2.2.trans h'.2.2⟩

namespace LocalStorage.Sound

theorem write (h : ls.Sound s) {n : NodeId} {next : Option NodeId} {val : Option V} {b : Bool}
    (hn : n < s.fresh) (hnext : ∀ y, next = some y → s.Leads n y)
    (hhead : n < m → val.isSome = true ∧ b = false) : (ls.putIntoWriteSet n next val b).Sound s where
  edge k we y hk hy := by
    by_cases he : k = n
    · subst he
      simp only [LocalStorage.putIntoWriteSet_writeSet, AList.lookup_insert, Option.some.injEq] at hk
      subst hk
      exact hnext y hy
    · simp only [LocalStorage.putIntoWriteSet_writeSet, AList.lookup_insert_ne he] at hk
      exact h.edge k we y hk hy
  written k hk := by
    rcases (AList.mem_insert _).1 hk with rfl | hk
    · exact hn
    · exact h.written k hk
  heads l we hl := by
    by_cases he : head l = n
    · subst he
      simp only [LocalStorage.putIntoWriteSet_writeSet, AList.lookup_insert, Option.some.injEq] at hl
      subst hl
      exact hhead (head_lt l)
    · simp only [LocalStorage.putIntoWriteSet_writeSet, AList.lookup_insert_ne he] at hl
      exact h.heads l we hl
  nodup := h.nodup
  pending := h.pending

theorem addToReadSet (h : ls.Sound s) (n : NodeId) : (ls.addToReadSet n).Sound s :=
  ⟨h.edge, h.written, h.heads, h.nodup, h.pending⟩

theorem addToIndexRemove (h : ls.Sound s) (l : ListId m) (n : NodeId) :
    (ls.addToIndexRemove l n).Sound s :=
  ⟨h.edge, h.written, h.heads, h.nodup, h.pending⟩

theorem addToIndexAdd (h : ls.Sound s) {l : ListId m} {n : NodeId} (hm : m ≤ n) (hn : n < s.fresh)
    (hl : n ∉ ls.indexAdd l) : (ls.addToIndexAdd l n).Sound s := by
  refine ⟨h.edge, h.written, h.heads, fun l' => ?_, fun l' k hk => ?_⟩
  · by_cases he : l' = l
    · subst he
      simp only [LocalStorage.addToIndexAdd, Function.update_self]
      exact List.nodup_append.2 ⟨h.nodup l', by simp, fun a ha b hb hab => hl (by simp_all)⟩
    · simpa only [LocalStorage.addToIndexAdd, Function.update_of_ne he] using h.nodup l'
  · by_cases he : l' = l
    · subst he
      simp only [LocalStorage.addToIndexAdd, Function.update_self, List.mem_append,
        List.mem_singleton] at hk
      rcases hk with hk | rfl
      · exact h.pending l' k hk
      · exact ⟨hm, hn⟩
    · simp only [LocalStorage.addToIndexAdd, Function.update_of_ne he] at hk
      exact h.pending l' k hk

/-- The keys of the allocated nodes stay. -/
theorem grow {s' : Shared K V m} (h : ls.Sound s) (hfresh : s.fresh ≤ s'.fresh)
    (hkey : ∀ n < s.fresh, (s'.mem n).key = (s.mem n).key) : ls.Sound s' := by
  have hrank : ∀ n < s.fresh, s'.rank n = s.rank n := fun n hn => by
    simp only [Shared.rank, hkey n hn]
  refine ⟨fun n we y hn hy => ?_, fun n hn => (h.written n hn).trans_le hfresh, h.heads, h.nodup,
    fun l n hn => ⟨(h.pending l n hn).1, (h.pending l n hn).2.trans_le hfresh⟩⟩
  obtain ⟨h1, h2, h3⟩ := h.edge n we y hn hy
  have hmem : n ∈ ls.writeSet := AList.lookup_isSome.1 (by rw [hn]; rfl)
  refine ⟨h1, h2.trans_le hfresh, ?_⟩
  rwa [hrank n (h.written n hmem), hrank y h2]

end LocalStorage.Sound

/-- A call of the transaction that does not throw: no stamp changes, and the nodes read may still be
used. -/
structure Ctx.Advances (P : ListId m → NodeId → Prop) (c c' : Ctx K V m) : Prop where
  sound : c'.Sound P
  gvc : c'.shared.gvc = c.shared.gvc
  readVersion : c'.transaction.readVersion = c.transaction.readVersion
  stays : c'.transaction.TX = c.transaction.TX
  word : ∀ n, (c'.shared.mem n).word = (c.shared.mem n).word ∨ (c'.shared.mem n).word = {}
  written : ∀ n ∈ c.storage.writeSet, n ∈ c'.storage.writeSet
  usable : ∀ n ∈ c'.storage.readSet, n ∈ c.storage.readSet ∨ c'.Usable n

namespace Ctx.Advances

theorem marked (h : c.Advances P c') {n : NodeId} {rv : Nat} (hm : Marked (c'.shared.mem n) rv) :
    Marked (c.shared.mem n) rv := by
  rcases h.word n with hw | hw
  · simpa only [Marked, hw] using hm
  · simp [Marked, hw] at hm

theorem keeps (h : c.Advances P c') {n : NodeId} (hn : c.Usable n) : c'.Usable n := by
  refine hn.imp (h.written n) fun hno hm => hno ?_
  rw [← h.readVersion]
  exact h.marked hm

theorem trans {c'' : Ctx K V m} (h : c.Advances P c') (h' : c'.Advances P c'') :
    c.Advances P c'' where
  sound := h'.sound
  gvc := h'.gvc.trans h.gvc
  readVersion := h'.readVersion.trans h.readVersion
  stays := h'.stays.trans h.stays
  word n := by
    rcases h'.word n with hw | hw
    · rw [hw]
      exact h.word n
    · exact .inr hw
  written n hn := h'.written n (h.written n hn)
  usable n hn := by
    rcases h'.usable n hn with hn | hn
    · exact (h.usable n hn).imp id h'.keeps
    · exact .inr hn

end Ctx.Advances

/-- A change of the storage. -/
theorem Ctx.Sound.advances (h : c.Sound P) (hls : ls.Sound c.shared)
    (hadd : ls.indexAdd = c.storage.indexAdd)
    (hw : ∀ n ∈ c.storage.writeSet, n ∈ ls.writeSet)
    (hr : ∀ n ∈ ls.readSet, n ∈ c.storage.readSet ∨
      Ctx.Usable { c with storage := ls } n) : c.Advances P { c with storage := ls } := by
  refine ⟨⟨?_, hls, ?_⟩, rfl, rfl, rfl, fun _ => .inl rfl, hw, hr⟩
  · rw [hadd]
    exact h.shared
  · rw [hadd]
    exact h.apart

theorem Ctx.Sought.advances (h : c.Sought P c') : c.Advances P c' where
  sound := h.sound
  gvc := h.same.gvc
  readVersion := by rw [h.same.transaction]
  stays := by rw [h.same.transaction]
  word n := .inl (by rw [h.same.mem])
  written n hn := by rwa [h.same.storage]
  usable n hn := .inl (by rwa [← h.same.storage])

theorem Ctx.Sound.writing (h : c.Sound P) :
    c.Advances P { c with transaction := { c.transaction with readOnly := false } } :=
  ⟨⟨h.shared, h.storage, h.apart⟩, rfl, rfl, rfl, fun _ => .inl rfl, fun _ hn => hn,
    fun _ hn => .inl hn⟩

/-- What `getVal` gives for a head. -/
theorem Ctx.Sound.valOf_head (h : c.Sound P) {n : NodeId} (hn : n < m) :
    (c.storage.valOf c.shared.mem n).isSome = true := by
  obtain ⟨l, rfl⟩ : ∃ l : ListId m, n = head l := ⟨⟨n, hn⟩, rfl⟩
  simp only [LocalStorage.valOf]
  split
  · rename_i we hwe
    exact (h.storage.heads l we hwe).1
  · exact (h.shared.heads l).1

/-- What is thrown in a later state of the call is thrown in the first. -/
theorem Ctx.Quits.of_same {c'' : Ctx K V m} (h : c'.Quits P c'') (hmem : c'.shared.mem = c.shared.mem)
    (hgvc : c'.shared.gvc = c.shared.gvc) (hT : c'.transaction.TX = c.transaction.TX)
    (hrv : c'.transaction.readVersion = c.transaction.readVersion) : c.Quits P c'' := by
  refine ⟨h.sound, fun n => ?_, ?_⟩
  · rw [h.version n, hmem]
  · have hm := h.marked
    simp only [Ctx.Blocked, hmem, hgvc, hT, hrv] at hm
    exact hm

theorem getTX_settles (h : c.Sound P) (l : ListId m) (key : K) : Settles (fun n => getTX n l key) c
    (fun _ c' => c.Advances P c') (Throws (c.Quits P)) := by
  obtain ⟨n, hn⟩ := find_node_settles h l key
  have hadd : ∀ {found : Bool} {pred : NodeId} {next : Option NodeId} {c' : Ctx K V m},
      c.Finds P key (found, pred, next) c' →
      c.Advances P { c' with storage := c'.storage.addToReadSet pred } := by
    intro found pred next c' hf
    refine hf.sought.advances.trans (hf.sought.sound.advances
      (hf.sought.sound.storage.addToReadSet pred) rfl (fun _ hw => hw) fun k hk => ?_)
    rcases Finset.mem_insert.1 hk with rfl | hk
    · exact .inr (hf.sought.advances.keeps hf.clear.usable)
    · exact .inl hk
  exact ⟨n, getTX_ends hn (fun pred x c' hf => hadd hf) fun found pred next c' hf _ => hadd hf⟩

/-- A node is written to and read. -/
theorem Ctx.Sound.write (h : c.Sound P) {n : NodeId} (next : Option NodeId) (val : Option V) (b : Bool)
    (hn : n < c.shared.fresh) (hnext : ∀ y, next = some y → c.shared.Leads n y)
    (hhead : n < m → val.isSome = true ∧ b = false) : c.Advances P
      { c with storage := (c.storage.putIntoWriteSet n next val b).addToReadSet n } := by
  refine h.advances ((h.storage.write hn hnext hhead).addToReadSet n) rfl
    (fun k hk => (AList.mem_insert _).2 (.inr hk)) fun k hk => ?_
  rcases Finset.mem_insert.1 hk with rfl | hk
  · exact .inr (.inl ((AList.mem_insert _).2 (.inl rfl)))
  · exact .inl hk

/-- A new node, to be added to an index. -/
theorem Ctx.Sound.insert (h : c.Sound P) (l : ListId m) {x : LNode K V} (hx : ∀ y, x.next = some y →
    m ≤ y ∧ y < c.shared.fresh ∧ (x.key : WithBot K) < c.shared.rank y) (hw : x.word = {}) :
    c.Advances P { c with
      shared := c.shared.alloc x
      storage := c.storage.addToIndexAdd l c.shared.fresh } := by
  have hnot : ∀ l, c.shared.fresh ∉ c.storage.indexAdd l := fun l hl =>
    absurd (h.storage.pending l _ hl).2 (lt_irrefl _)
  have hmem : ∀ l' n, n ∈ (c.storage.addToIndexAdd l c.shared.fresh).indexAdd l' →
      n ∈ c.storage.indexAdd l' ∨ n = c.shared.fresh := by
    intro l' n hn
    by_cases he : l' = l
    · subst he
      simpa [LocalStorage.addToIndexAdd] using hn
    · simp only [LocalStorage.addToIndexAdd, Function.update_of_ne he] at hn
      exact .inl hn
  have hgrow : c.storage.Sound (c.shared.alloc x) := h.storage.grow (Nat.le_succ _) fun n hn => by
    simp [Function.update_of_ne (show n ≠ c.shared.fresh from hn.ne)]
  refine ⟨⟨h.shared.alloc hx fun l' n hn hp => ?_, ?_, fun l' n hp => ?_⟩, rfl, rfl, rfl, fun n => ?_,
    fun _ hn => hn, fun _ hn => .inl hn⟩
  · rcases hp with hp | hp
    · exact .inl hp
    · exact .inr ((hmem l' n hp).resolve_right hn.ne)
  · exact hgrow.addToIndexAdd h.shared.allocated (Nat.lt_succ_self _) (hnot l)
  · obtain ⟨h1, h2⟩ := h.apart l' n hp
    exact ⟨h1.trans (Nat.lt_succ_self _), fun hn => (hmem l' n hn).elim h2 h1.ne⟩
  · by_cases hn : n = c.shared.fresh
    · exact .inr (by simp [hn, hw])
    · exact .inl (by simp [hn])

theorem putTX_settles (h : c.Sound P) (l : ListId m) (key : K) (val : V) : Settles (fun n => putTX n l key val) c
    (fun _ c' => c.Advances P c') (Throws (c.Quits P)) := by
  obtain ⟨n, hn⟩ := find_node_settles h.writing.sound l key
  refine ⟨n, putTX_ends (hn.mono (fun _ _ hf => hf) fun e c' he => ?_) (fun pred x c' hf => ?_)
    fun found pred next c' hf hno => ?_⟩
  · rcases e with _ | _ | _ | _
    · exact Ctx.Quits.of_same he rfl rfl rfl rfl
    all_goals exact he
  · have h₁ := h.writing.trans hf.sought.advances
    have hx := h.writing.sound.leads hf.next.symm
    refine h₁.trans (h₁.sound.write _ _ _ ?_ (fun y hy => h₁.sound.leads hy) fun hm =>
      absurd hm (Nat.not_lt.2 hx.1))
    rw [hf.sought.same.fresh]
    exact hx.2.1
  · have h₁ := h.writing.trans hf.sought.advances
    have hr := hf.sought.same.rank
    have hfr := hf.sought.same.fresh
    have hnext : ∀ y, next = some y → m ≤ y ∧ y < c'.shared.fresh ∧ (key : WithBot K) < c'.shared.rank y := by
      intro y hy
      have hx := h.writing.sound.leads (hf.next.symm.trans hy)
      rw [hr, hfr]
      refine ⟨hx.1, hx.2.1, ?_⟩
      have hrank := hf.rank_next y hy
      rcases found with _ | _
      · simpa using hrank
      · simp [hno rfl] at hy
    have h₂ := h₁.trans (h₁.sound.insert l (x := { key := key, val := some val, next := next }) hnext rfl)
    have hpf : pred < c'.shared.fresh := by
      rw [hfr]
      exact hf.pred_lt
    refine h₂.trans (h₂.sound.write (n := pred) _ _ _ (hpf.trans (Nat.lt_succ_self _)) (fun y hy => ?_)
      fun hm => ⟨?_, rfl⟩)
    · obtain rfl := Option.some.inj hy
      refine ⟨h₁.sound.shared.allocated, Nat.lt_succ_self _, ?_⟩
      have hlt : c'.shared.rank pred < key := by
        rw [hr]
        exact hf.rank_pred
      rw [Shared.rank_of_le _ h₁.sound.shared.allocated]
      simpa [Shared.rank, Function.update_of_ne (show pred ≠ _ from hpf.ne)] using hlt
    · exact h₂.sound.valOf_head hm

theorem removeTX_settles (h : c.Sound P) (l : ListId m) (key : K) : Settles (fun n => removeTX n l key) c
    (fun _ c' => c.Advances P c') (Throws (c.Quits P)) := by
  obtain ⟨n, hn⟩ := find_node_settles h.writing.sound l key
  have hadd : ∀ {found : Bool} {pred : NodeId} {next : Option NodeId} {c' : Ctx K V m},
      Ctx.Finds P { c with transaction := { c.transaction with readOnly := false } } key
        (found, pred, next) c' →
      c.Advances P { c' with storage := c'.storage.addToReadSet pred } := by
    intro found pred next c' hf
    refine (h.writing.trans hf.sought.advances).trans (hf.sought.sound.advances
      (hf.sought.sound.storage.addToReadSet pred) rfl (fun _ hw => hw) fun k hk => ?_)
    rcases Finset.mem_insert.1 hk with rfl | hk
    · exact .inr (hf.sought.advances.keeps hf.clear.usable)
    · exact .inl hk
  refine ⟨n, removeTX_ends (hn.mono (fun _ _ hf => hf) fun e c' he => ?_)
    (N := fun _ x o c' => o = c'.storage.nextOf c'.shared.mem x) (fun pred x c' hf => ?_)
    (fun pred x o c' hf hN => ?_) fun found pred next c' hf _ => hadd hf⟩
  · rcases e with _ | _ | _ | _
    · exact Ctx.Quits.of_same he rfl rfl rfl rfl
    all_goals exact he
  · refine (getNext_sound (hadd hf).sound fun _ => ⟨rfl, rfl⟩).mono (fun _ _ hQ => hQ) fun e c'' he => ?_
    have hs := hf.sought.same
    rcases e with _ | _ | _ | _
    · exact Ctx.Quits.of_same he hs.mem hs.gvc (by simp [hs.transaction]) (by simp [hs.transaction])
    all_goals exact he
  · have h₁ := h.writing.trans hf.sought.advances
    have hs := hf.sought.same
    have hx : c'.shared.Leads pred x := by
      have hx := h.writing.sound.leads hf.next.symm
      simp only [Shared.Leads, hs.rank, hs.fresh]
      exact hx
    have hpf : pred < c'.shared.fresh := by
      rw [hs.fresh]
      exact hf.pred_lt
    have h₂ := h₁.trans (h₁.sound.write o (c'.storage.valOf c'.shared.mem pred) false hpf
      (fun y hy => hx.trans (h₁.sound.leads (hN ▸ hy))) fun hm =>
        ⟨h₁.sound.valOf_head hm, rfl⟩)
    have h₃ := h₂.trans (h₂.sound.write (n := x) none
      ((c'.storage.relink c'.shared.mem pred o).valOf c'.shared.mem x) true hx.2.1
      (fun y hy => by simp at hy) fun hm => absurd hm (Nat.not_lt.2 hx.1))
    show c.Advances P { c' with storage := c'.storage.unlink c'.shared.mem l pred x o }
    refine h₃.trans (h₃.sound.advances (h₃.sound.storage.addToIndexRemove l x) rfl (fun _ hw => hw)
      fun k hk => .inl hk)

end Ops

end TxList
