import TxList.Proofs.Sound

/-!
# Every step keeps it

`TXend` and the singletons keep the pointers, the heads and the indexes in order too, so a run of
any calls does.
-/

namespace TxList

open Prog

variable {K V : Type} {m : Nat} [LinearOrder K]

/-! ## The end of a transaction -/

section TXend

variable {P R : ListId m → NodeId → Prop} {c c' : Ctx K V m} {l : ListId m} {ch : Choice}
  {E : Err → Ctx K V m → Prop}

theorem Ctx.Sound.commit (h : c.Sound P) :
    (c.shared.commit c.storage.writeSet).Sound fun l n => P l n ∨ n ∈ c.storage.indexAdd l := by
  have hback : ∀ (x : LNode K V) (we : WriteElement V) (wv : Nat), (x.writeBack we wv).key = x.key ∧
      (x.writeBack we wv).next = we.next ∧ (we.deleted = false → (x.writeBack we wv).val = we.val ∧
        (x.writeBack we wv).isDeleted = x.isDeleted) := by
    intro x we wv
    rcases we with ⟨_, _, _ | _⟩ <;> exact ⟨rfl, rfl, fun hd => by first | exact ⟨rfl, rfl⟩ | cases hd⟩
  have hmem : ∀ n, (∃ we, c.storage.writeSet.lookup n = some we ∧
      (c.shared.commit c.storage.writeSet).mem n = (c.shared.mem n).writeBack we (c.shared.gvc + 1)) ∨
      (c.shared.commit c.storage.writeSet).mem n = c.shared.mem n := by
    intro n
    rcases hw : c.storage.writeSet.lookup n with _ | we
    · exact .inr (Shared.commit_mem_of_notMem _ (AList.lookup_eq_none.1 hw))
    · exact .inl ⟨we, rfl, Shared.commit_mem _ hw⟩
  refine h.shared.rewrite rfl rfl (fun n => ?_) (fun n hn => ?_) (fun n y hy => ?_) fun l => ?_
  · rcases hmem n with ⟨we, -, he⟩ | he
    · rw [he, (hback _ _ _).1]
    · rw [he]
  · rw [Shared.commit_mem_of_notMem _ fun hw => absurd (h.storage.written n hw) (Nat.not_lt.2 hn)]
  · rcases hmem n with ⟨we, hw, he⟩ | he
    · rw [he, (hback _ _ _).2.1] at hy
      exact h.storage.edge n we y hw hy
    · rw [he] at hy
      exact h.shared.edge n y hy
  · rcases hmem (head l) with ⟨we, hw, he⟩ | he
    · obtain ⟨h1, h2⟩ := h.storage.heads l we hw
      obtain ⟨h3, h4⟩ := (hback (c.shared.mem (head l)) we (c.shared.gvc + 1)).2.2 h2
      rw [he, h3, h4]
      exact ⟨h1, (h.shared.heads l).2⟩
    · rw [he]
      exact h.shared.heads l

/-- What an update of the indexes keeps; `R` are the nodes still to be added. -/
structure Ctx.Updating (R : ListId m → NodeId → Prop) (c c' : Ctx K V m) : Prop where
  sound : c'.shared.Sound R
  updated : c.Updated c'

theorem Ctx.Updating.trans {c'' : Ctx K V m} (h : c.Updating R c')
    {R' : ListId m → NodeId → Prop} (h' : c'.Updating R' c'') : c.Updating R' c'' :=
  ⟨h'.sound, h.updated.trans h'.updated⟩

theorem indexAdd_settles (level : NodeId → Nat) {n : NodeId} (hm : m ≤ n) (hn : n < c.shared.fresh)
    (h : c.shared.Sound fun l' k => R l' k ∨ l' = l ∧ k = n) (hR : ¬ R l n) :
    Settles (fun k => onIndex l fun v ix => (ix.add v k (level n) n).map (·, ())) c
      (fun _ c' => c.Updating R c') E := by
  obtain ⟨A, hA, hb⟩ := h.index l
  have hnA : n ∉ A := fun hA => (hb n hA).2 (.inr ⟨rfl, rfl⟩)
  obtain ⟨hspec, N, hN⟩ := hA.add_spec (head_lt l) (h.heads l).1 hm hnA (level n)
  refine ⟨N, ?_⟩
  simp only [Ends_onIndex, Option.map_eq_none_iff, Option.map_eq_some_iff, Prod.mk.injEq]
  refine ⟨fun hno => ?_, fun ix _ ⟨ix', hix, hix', _⟩ => ?_⟩
  · have := hN N le_rfl
    rw [hno] at this
    simp at this
  · subst hix'
    obtain ⟨A', hsub, hA'⟩ := hspec N ix' hix
    refine ⟨(h.mono fun _ _ hp => .inl hp).setIndex ⟨_, hA', fun a ha => ?_⟩, rfl, rfl, rfl, rfl, rfl⟩
    rcases Finset.mem_insert.1 ha with rfl | ha
    · exact ⟨hn, hR⟩
    · exact ⟨(hb a (hsub ha)).1, fun hp => (hb a (hsub ha)).2 (.inl hp)⟩

theorem addToIndex_settles {level : NodeId → Nat} : ∀ (ns : List NodeId) {c : Ctx K V m}, ns.Nodup →
    (∀ n ∈ ns, m ≤ n ∧ n < c.shared.fresh ∧ ¬ R l n) →
    c.shared.Sound (fun l' k => R l' k ∨ l' = l ∧ k ∈ ns) →
    Settles (fun k => addToIndex k level l ns) c (fun _ c' => c.Updating R c') (Throws fun _ => False)
  | [], c, _, _, h => ⟨0, h.mono fun _ _ hp => .inl hp, .refl c⟩
  | n :: ns, c, hnd, hns, h => by
    obtain ⟨hn, hnd⟩ := List.nodup_cons.1 hnd
    obtain ⟨h1, h2, h3⟩ := hns n (by simp)
    simp only [addToIndex]
    refine .bind (d := .diverged) (fun hk => indexAdd_below hk n)
      (fun _ _ _ hk => addToIndex_below hk ns) (fun _ => id) ?_
    refine (indexAdd_settles (R := fun l' k => R l' k ∨ l' = l ∧ k ∈ ns) level h1 h2 ?_ ?_).mono
      (fun _ c₁ h₁ => ?_) fun _ _ he => he
    · refine h.mono fun l' k hk => ?_
      rcases hk with (hk | ⟨rfl, hk⟩) | ⟨rfl, rfl⟩
      · exact .inl hk
      · exact .inr ⟨rfl, List.mem_cons_of_mem _ hk⟩
      · exact .inr ⟨rfl, List.mem_cons_self⟩
    · rintro (hk | ⟨-, hk⟩)
      · exact h3 hk
      · exact hn hk
    · refine (addToIndex_settles ns hnd (fun k hk => ?_) h₁.sound).mono
        (fun _ c₂ h₂ => h₁.trans h₂) fun _ _ he => he
      rw [h₁.updated.fresh]
      exact hns k (List.mem_cons_of_mem _ hk)

/-- `remove` takes its node out unless something in the index keeps it there. -/
theorem indexRemove_drops (h : c.shared.Sound R) (n : NodeId) :
    Settles (fun k => onIndex l fun v ix => (ix.remove v k n).map (·, ())) c
      (fun _ c' => c.Updating (fun l' k => R l' k ∨
        l' = l ∧ k = n ∧ ¬ (c.shared.index l).Keeps c.shared.view n) c') E := by
  obtain ⟨A, hA, hb⟩ := h.index l
  obtain ⟨hspec, N, hN⟩ := hA.remove_spec (head_lt l) (h.heads l).1 n
  refine ⟨N, ?_⟩
  simp only [Ends_onIndex, Option.map_eq_none_iff, Option.map_eq_some_iff, Prod.mk.injEq]
  refine ⟨fun hno => ?_, fun ix _ ⟨ix', hix, hix', _⟩ => ?_⟩
  · have := hN N le_rfl
    rw [hno] at this
    simp at this
  · subst hix'
    obtain ⟨A', hsub, hA', hkeeps⟩ := hspec N ix' hix
    refine ⟨⟨h.allocated, h.blank, h.edge, h.heads, fun l' => ?_⟩, rfl, rfl, rfl, rfl, rfl⟩
    by_cases hl : l' = l
    · subst hl
      simp only [Function.update_self]
      refine ⟨A', hA', fun a ha => ⟨(hb a (hsub ha)).1, ?_⟩⟩
      rintro (hp | ⟨-, rfl, hno⟩)
      · exact (hb a (hsub ha)).2 hp
      · exact hno (hkeeps ha)
    · simp only [Function.update_of_ne hl]
      obtain ⟨B, hB, hb'⟩ := h.index l'
      exact ⟨B, hB, fun a ha => ⟨(hb' a ha).1, fun hp => (hb' a ha).2 (hp.resolve_right fun he => hl he.1)⟩⟩

theorem indexRemove_settles (h : c.shared.Sound R) (n : NodeId) :
    Settles (fun k => onIndex l fun v ix => (ix.remove v k n).map (·, ())) c
      (fun _ c' => c.Updating R c') E :=
  (indexRemove_drops h n).mono (fun _ _ hc => ⟨hc.sound.mono fun _ _ => .inl, hc.updated⟩) fun _ _ he => he

theorem removeFromIndex_settles : ∀ (ns : List NodeId) {c : Ctx K V m}, c.shared.Sound R →
    Settles (fun k => removeFromIndex k l ns) c (fun _ c' => c.Updating R c') (Throws fun _ => False)
  | [], c, h => ⟨0, h, .refl c⟩
  | n :: ns, c, h => by
    simp only [removeFromIndex]
    refine .bind (d := .diverged) (fun hk => indexRemove_below hk n)
      (fun _ _ _ hk => .bind (.refl _) fun _ => removeFromIndex_below hk ns) (fun _ => id) ?_
    refine (indexRemove_settles h n).mono (fun _ c₁ h₁ => .after (Ends_retire_node.2 ?_))
      fun _ _ he => he
    exact (removeFromIndex_settles (c := { c₁ with shared := _ }) ns (h₁.sound.retire _)).mono
      (fun _ c₂ h₂ => ⟨h₂.sound, h₁.updated.trans ⟨h₂.updated.mem, h₂.updated.gvc, h₂.updated.fresh,
        h₂.updated.storage, h₂.updated.transaction⟩⟩) fun _ _ he => he

/-- Every node that was to be added is in its index. -/
theorem updateIndex_settles (ch : Choice) (h : c.shared.Sound fun l n => P l n ∨ n ∈ c.storage.indexAdd l)
    (hnd : ∀ l, (c.storage.indexAdd l).Nodup)
    (hns : ∀ l, ∀ n ∈ c.storage.indexAdd l, m ≤ n ∧ n < c.shared.fresh ∧ ¬ P l n) :
    Settles (fun k => updateIndex (ch.withFuel k)) c (fun _ c' => c.Updating P c')
      (Throws fun _ => False) := by
  have hadd : ∀ (ls : List (ListId m)) {c' : Ctx K V m}, ls.Nodup →
      c.Updating (fun l n => P l n ∨ l ∈ ls ∧ n ∈ c.storage.indexAdd l) c' →
      Settles (fun k => forLists (fun l => addToIndex k ch.level l (c.storage.indexAdd l)) ls) c'
        (fun _ c'' => c.Updating P c'') (Throws fun _ => False) := by
    intro ls
    induction ls with
    | nil => exact fun _ h' => ⟨0, h'.sound.mono fun _ _ hp => .inl hp, h'.updated⟩
    | cons l ls ih =>
      intro c' hls h'
      obtain ⟨hl, hls⟩ := List.nodup_cons.1 hls
      simp only [forLists]
      refine .bind (d := .diverged) (fun hk => addToIndex_below hk _)
        (fun _ _ _ hk => forLists_below (fun l => addToIndex_below hk _) ls) (fun _ => id) ?_
      refine (addToIndex_settles (R := fun l n => P l n ∨ l ∈ ls ∧ n ∈ c.storage.indexAdd l)
        _ (hnd l) (fun n hn => ?_) (h'.sound.mono fun l' n hp => ?_)).mono
        (fun _ c₁ h₁ => ih hls (h'.trans h₁)) fun _ _ he => he
      · obtain ⟨h1, h2, h3⟩ := hns l n hn
        rw [h'.updated.fresh]
        exact ⟨h1, h2, fun hp => hp.elim h3 fun hp => hl hp.1⟩
      · rcases hp with (hp | ⟨hl', hp⟩) | ⟨rfl, hp⟩
        · exact .inl hp
        · exact .inr ⟨List.mem_cons_of_mem _ hl', hp⟩
        · exact .inr ⟨List.mem_cons_self, hp⟩
  have hrem : ∀ (ls : List (ListId m)) {c' : Ctx K V m}, c.Updating P c' →
      Settles (fun k => forLists (fun l => removeFromIndex k l (c.storage.indexRemove l)) ls) c'
        (fun _ c'' => c.Updating P c'') (Throws fun _ => False) := by
    intro ls
    induction ls with
    | nil => exact fun h' => ⟨0, h'⟩
    | cons l ls ih =>
      intro c' h'
      simp only [forLists]
      refine .bind (d := .diverged) (fun hk => removeFromIndex_below hk _)
        (fun _ _ _ hk => forLists_below (fun l => removeFromIndex_below hk _) ls) (fun _ => id) ?_
      exact (removeFromIndex_settles _ h'.sound).mono (fun _ c₁ h₁ => ih (h'.trans h₁)) fun _ _ he => he
  simp only [updateIndex]
  refine .after (Ends_get.2 ?_)
  refine .bind (d := .diverged) (fun hk => forLists_below (fun l => addToIndex_below hk _) _)
    (fun _ _ _ hk => forLists_below (fun l => removeFromIndex_below hk _) _) (fun _ => id) ?_
  refine (hadd _ (List.nodup_finRange m) ⟨h.mono fun l n hp => ?_, .refl c⟩).mono
    (fun _ c₁ h₁ => hrem _ h₁) fun _ _ he => he
  exact hp.imp id fun hp => hp.2

/-- A thread that has ended its transaction. -/
theorem Ctx.sound_cleaned (h : c.shared.Sound P) (hP : ∀ l n, P l n → n < c.shared.fresh) :
    c.cleaned.Sound P := by
  refine ⟨h.mono fun l n hp => hp.resolve_right (by simp [Ctx.cleaned]), ?_,
    fun l n hp => ⟨hP l n hp, by simp [Ctx.cleaned]⟩⟩
  exact ⟨fun n we y hn => by simp [Ctx.cleaned] at hn, fun n hn => absurd hn (AList.notMem_empty n),
    fun l we hn => by simp [Ctx.cleaned] at hn, fun l => by simp [Ctx.cleaned],
    fun l n hn => by simp [Ctx.cleaned] at hn⟩

theorem Ctx.Sound.cleaned (h : c.Sound P) : c.cleaned.Sound P :=
  Ctx.sound_cleaned (h.shared.mono fun _ _ hp => .inl hp) fun l n hp => (h.apart l n hp).1

theorem Shared.Sound.clearMark {s : Shared K V m} (h : s.Sound P) {n : NodeId} (hn : n < s.fresh) :
    (s.clearMark n).Sound P := by
  have hmem : ∀ k, (s.clearMark n).mem k = s.mem k ∨
      (s.clearMark n).mem k = (s.mem k).setSingleton false := by
    intro k
    by_cases hk : k = n
    · subst hk
      exact .inr (by simp [Shared.clearMark])
    · exact .inl (by simp [Shared.clearMark, hk])
  refine h.rewrite rfl rfl (fun k => ?_) (fun k hk => ?_) (fun k y hy => h.edge k y ?_) fun l => ?_
  · rcases hmem k with hk | hk <;> rw [hk]
    rfl
  · simp [Shared.clearMark, show k ≠ n from (hn.trans_le hk).ne']
  · rcases hmem k with hk | hk <;> rw [hk] at hy <;> exact hy
  · rcases hmem (head l) with hk | hk <;> rw [hk] <;> exact h.heads l

/-- Why `TXend` ends without a value. -/
def Ctx.Refuses (P : ListId m → NodeId → Prop) (c : Ctx K V m) : Err → Ctx K V m → Prop
  | .txAbort, c' => c.Quits P c'
  | .assertFailed, _ => ∃ n ∈ c.storage.readSet, ¬ c.Usable n
  | _, _ => False

theorem TXend_settles (h : c.Sound P) (ho : ch.Orders c.storage)
    (hrv : c.transaction.readVersion ≤ c.shared.gvc) :
    Settles (fun n => TXend (ch.withFuel n)) c (fun b c' => b = true ∧ c'.Sound P) (c.Refuses P) := by
  have hP : ∀ l n, P l n → n < c.shared.fresh := fun l n hp => (h.apart l n hp).1
  obtain ⟨N, hN⟩ := updateIndex_settles ch (c := { c with
      shared := c.shared.commit c.storage.writeSet
      transaction := { c.transaction with writeVersion := c.shared.gvc + 1 } }) h.commit
    h.storage.nodup fun l n hn => ⟨(h.storage.pending l n hn).1, (h.storage.pending l n hn).2,
      fun hp => (h.apart l n hp).2 hn⟩
  have ho : (ch.withFuel N).Orders c.storage := ho
  refine ⟨N, TXend_ends ho (fun _ _ _ => ?_) (fun _ _ _ => ⟨rfl, h.cleaned⟩)
    (fun hb => ⟨h.cleaned, fun _ => rfl, .inl fun hT => (hb hT).blocked⟩) (fun n hr hw hT hv hsing => ?_)
    (fun n hr hw hT hv hsing c' => ⟨n, hr, fun hu => hu.elim hw fun hm => hm (.inr ⟨hv, hsing⟩)⟩)
    fun hlt => absurd hrv (Nat.not_le.2 hlt)⟩
  · refine hN.mono (fun _ c' hc => ⟨rfl, Ctx.sound_cleaned hc.sound fun l n hp => ?_⟩) fun e c' he => ?_
    · rw [hc.updated.fresh]
      exact hP l n hp
    · rcases e with _ | _ | _ | _ <;> exact he.elim
  · refine ⟨Ctx.sound_cleaned ((h.shared.clearMark (h.storage.written n hw)).mono fun _ _ hp => .inl hp)
      hP, fun k => ?_, .inr ⟨rfl, n, .inr ⟨hv, hsing⟩⟩⟩
    show ((c.shared.clearMark n).mem k).word.version = _
    by_cases hk : k = n
    · subst hk
      simp [Shared.clearMark, LNode.setSingleton]
    · simp [Shared.clearMark, hk]

end TXend

/-! ## Singletons -/

section Singleton

variable {P : ListId m → NodeId → Prop} {c c' : Ctx K V m} {l : ListId m} {key : K} {fuel : Nat}
  {level : NodeId → Nat} {val : V}

theorem indexGetPred_sound (h : c.Sound P) : Ends (indexGetPred fuel l key) c
    (fun p c' => c.Sought P c' ∧ p < c.shared.fresh ∧ c.shared.rank p < key)
    (OnAbort fun _ => False) := by
  refine ((indexGetPred_settles (E := fun _ _ => False) h).ends (d := .diverged)
    (fun hn => indexGetPred_below hn) (fun _ => id) fuel).mono (fun _ _ hp => hp) fun e c' he => ?_
  obtain rfl := he.resolve_left id
  trivial

/-- A node that comes before the key in the state the search has got to. -/
def Ctx.Before (P : ListId m → NodeId → Prop) (c : Ctx K V m) (key : K) (p : NodeId)
    (c' : Ctx K V m) : Prop :=
  c.Sought P c' ∧ p < c.shared.fresh ∧ c.shared.rank p < key

theorem getPredSingletonLoop_sound (hu : ∀ n, (c.shared.mem n).isLocked = false) :
    ∀ (n : Nat) {c' : Ctx K V m} {pred : NodeId}, c.Before P key pred c' →
      Ends (getPredSingletonLoop fuel l n pred) c' (c.Before P key) (OnAbort fun _ => False)
  | 0, _, _, _ => by simp [getPredSingletonLoop]
  | n + 1, c', pred, hp => by
    simp only [getPredSingletonLoop, Ends_bind, Ends_node, Ends_ite, Ends_pure]
    refine ⟨fun hd => ⟨fun _ => hp, fun _ => ?_⟩, fun _ => hp⟩
    obtain ⟨h₁, hp, hlt⟩ := hp
    have hm : m ≤ pred := by
      refine h₁.sound.le_of_deleted ?_
      have hl := hu pred
      rw [← h₁.same.mem] at hl
      simp only [LNode.isLocked] at hl
      simp only [LNode.isLockedOrDeleted, Word.isLockedOrDeleted, hl, Bool.or_false] at hd
      simp [LNode.isDeleted, hd]
    refine (indexGetPred_sound h₁.sound).mono (fun p c₂ hc₂ => ?_) fun _ _ he => he
    obtain ⟨h₂, hp₂, hlt₂⟩ := hc₂
    refine getPredSingletonLoop_sound hu n ⟨h₁.trans h₂, ?_, ?_⟩
    · rwa [← h₁.same.fresh]
    · rw [← Shared.rank_of_le _ hm, h₁.same.rank] at hlt₂
      exact hlt₂.trans hlt

/-- What `find_node_singelton` finds: the place of the key in the list as it is. -/
structure Ctx.Locates (P : ListId m → NodeId → Prop) (c : Ctx K V m) (key : K)
    (r : Bool × NodeId × Option NodeId) (c' : Ctx K V m) : Prop where
  before : c.Before P key r.2.1 c'
  next : r.2.2 = (c.shared.mem r.2.1).next
  rank_next : ∀ y, r.2.2 = some y → if r.1 then c.shared.rank y = key else key < c.shared.rank y

theorem findSingletonLoop_sound (h : c.Sought P c') : ∀ (n : Nat) {pred : NodeId},
    c.Before P key pred c' → Ends (findSingletonLoop key n pred (c.shared.mem pred).next) c'
      (fun r c'' => c'' = c' ∧ ∀ x, r = some x → c.Locates P key x c') (OnAbort fun _ => False)
  | 0, _, _ => by simp [findSingletonLoop]
  | n + 1, pred, hp => by
    have hmem := h.same.mem
    rcases hn : (c.shared.mem pred).next with _ | y
    · simp only [findSingletonLoop, Ends_pure, true_and, Option.some.injEq, forall_eq']
      exact ⟨hp, hn.symm, fun y hy => by simp at hy⟩
    · obtain ⟨hm, hy, hrank⟩ := h.sound.shared.edge pred y (by rw [hmem, hn])
      rw [h.same.rank] at hrank
      rw [h.same.fresh] at hy
      have hkey := Shared.rank_of_le c.shared hm
      simp only [findSingletonLoop, Ends_bind, Ends_node, Ends_ite, Ends_pure, hmem, hn]
      refine ⟨fun _ => ⟨trivial, fun _ hx => by simp at hx⟩, fun _ => ⟨fun he => ⟨trivial, ?_⟩,
        fun hne => ⟨fun hgt => ⟨trivial, ?_⟩, fun hle => ⟨fun _ => ⟨trivial, fun _ hx => by simp at hx⟩,
        fun _ => ?_⟩⟩⟩⟩
      · simp only [Option.some.injEq, forall_eq']
        refine ⟨hp, hn.symm, fun y' hy' => ?_⟩
        obtain rfl := Option.some.inj hy'
        simp [hkey, he]
      · simp only [Option.some.injEq, forall_eq']
        refine ⟨hp, hn.symm, fun y' hy' => ?_⟩
        obtain rfl := Option.some.inj hy'
        simpa [hkey] using hgt
      · refine ⟨fun _ => ⟨trivial, fun _ hx => by simp at hx⟩, fun _ => ?_⟩
        refine findSingletonLoop_sound h n ⟨h, hy, ?_⟩
        rw [hkey]
        exact WithBot.coe_lt_coe.2 (lt_of_le_of_ne (not_lt.1 hle) hne)

theorem find_node_singelton_sound (hu : ∀ n, (c.shared.mem n).isLocked = false) :
    ∀ (n : Nat) {c' : Ctx K V m}, c.Sought P c' →
      Ends (find_node_singelton fuel l key n) c' (c.Locates P key) (OnAbort fun _ => False)
  | 0, _, _ => by simp [find_node_singelton]
  | n + 1, c', h => by
    simp only [find_node_singelton, getPredSingleton, Ends_bind]
    refine (indexGetPred_sound h.sound).mono (fun p c₁ hc₁ => ?_) fun _ _ he => he
    obtain ⟨h₁, hp, hlt⟩ := hc₁
    rw [h.same.fresh] at hp
    rw [h.same.rank] at hlt
    refine (getPredSingletonLoop_sound hu fuel ⟨h.trans h₁, hp, hlt⟩).mono (fun pred c₂ h₂ => ?_)
      fun _ _ he => he
    simp only [Ends_node, Ends_ite]
    refine ⟨fun _ => find_node_singelton_sound hu n h₂.1,
      fun _ => ⟨fun _ => find_node_singelton_sound hu n h₂.1, fun _ => ?_⟩⟩
    simp only [Ends_bind]
    rw [h₂.1.same.mem]
    refine (findSingletonLoop_sound h₂.1 fuel h₂).mono (fun r c₃ h₃ => ?_) fun _ _ he => he
    obtain ⟨rfl, h₃⟩ := h₃
    rcases r with _ | r
    · exact find_node_singelton_sound hu n h₂.1
    · exact h₃ r rfl

/-- A singleton's step changes the shared memory alone. -/
structure Ctx.Alters (P : ListId m → NodeId → Prop) (c c' : Ctx K V m) : Prop where
  sound : c'.shared.Sound fun l n => P l n ∨ n ∈ c.storage.indexAdd l
  storage : c'.storage = c.storage

theorem Ctx.Before.alters {p : NodeId} (h : c.Before P key p c') : c.Alters P c' := by
  refine ⟨?_, h.1.same.storage⟩
  rw [← h.1.same.storage]
  exact h.1.sound.shared

/-- A singleton's insertion; the new node is still to be added to the index. -/
theorem Shared.Sound.insertStamped {s : Shared K V m} {R : ListId m → NodeId → Prop} (h : s.Sound R)
    (l : ListId m) (val : V) {pred : NodeId} (hp : pred < s.fresh) (hlt : s.rank pred < key)
    (hnext : ∀ y, (s.mem pred).next = some y → key < s.rank y) :
    (s.insertStamped key val pred (s.mem pred).next).Sound fun l' k => R l' k ∨ l' = l ∧ k = s.fresh := by
  have h₁ : (s.alloc (.mk key (some val) (s.mem pred).next
      { singleton := true, version := s.gvc })).Sound fun l' k => R l' k ∨ l' = l ∧ k = s.fresh := by
    refine h.alloc (fun y hy => ?_) fun l' n hn hR => hR.resolve_right fun he => hn.ne he.2
    have hy' := h.edge pred y hy
    exact ⟨hy'.1, hy'.2.1, hnext y hy⟩
  have hold : pred ≠ s.fresh := hp.ne
  refine h₁.rewrite rfl rfl (fun k => ?_) (fun k hk => ?_) (fun k y hy => ?_) fun l' => ?_
  · by_cases hk : k = pred
    · subst hk
      simp [Shared.insertStamped, hold]
    · simp [Shared.insertStamped, hk]
  · have hk : s.fresh < k := hk
    simp [Shared.insertStamped, show k ≠ pred from (hp.trans hk).ne']
  · by_cases hk : k = pred
    · subst hk
      obtain rfl : s.fresh = y := by simpa [Shared.insertStamped] using hy
      refine ⟨h.allocated, Nat.lt_succ_self _, ?_⟩
      rw [Shared.rank_of_le _ h.allocated]
      simpa [Shared.rank, hold] using hlt
    · exact h₁.edge k y (by simpa [Shared.insertStamped, hk] using hy)
  · have hh := h₁.heads l'
    by_cases hk : head l' = pred
    · subst hk
      simpa [Shared.insertStamped, LNode.isDeleted, hold] using hh
    · simpa [Shared.insertStamped, hk] using hh

/-- A singleton's removal. -/
theorem Shared.Sound.unlinkStamped {s : Shared K V m} {R : ListId m → NodeId → Prop} (h : s.Sound R)
    {pred x : NodeId} (hp : pred < s.fresh) (hx : (s.mem pred).next = some x) :
    (s.unlinkStamped pred x).Sound R := by
  have hpx := h.edge pred x hx
  have hne : pred ≠ x := fun he => (he ▸ hpx.2.2).ne rfl
  refine h.rewrite rfl rfl (fun k => ?_) (fun k hk => ?_) (fun k y hy => ?_) fun l => ?_
  · by_cases hk : k = pred
    · subst hk
      simp [Shared.unlinkStamped, hne]
    · by_cases hk' : k = x
      · subst hk'
        simp [Shared.unlinkStamped, hk]
      · simp [Shared.unlinkStamped, hk, hk']
  · simp [Shared.unlinkStamped, show k ≠ pred from (hp.trans_le hk).ne',
      show k ≠ x from (hpx.2.1.trans_le hk).ne']
  · by_cases hk : k = pred
    · subst hk
      exact hpx.trans (h.edge x y (by simpa [Shared.unlinkStamped] using hy))
    · refine h.edge k y ?_
      by_cases hk' : k = x
      · subst hk'
        simpa [Shared.unlinkStamped, hk] using hy
      · simpa [Shared.unlinkStamped, hk, hk'] using hy
  · have hlx : head l ≠ x := ((head_lt l).trans_le hpx.1).ne
    have hh := h.heads l
    by_cases hk : head l = pred
    · subst hk
      simpa [Shared.unlinkStamped, LNode.isDeleted, hne] using hh
    · simpa [Shared.unlinkStamped, hk, hlx] using hh

section With

variable {α : Type} {update : NodeId → Call K V m α} {Q : Option V × Option α → Ctx K V m → Prop}

theorem putSingletonLoopWith_sound (hu : ∀ n, (c.shared.mem n).isLocked = false)
    (hkeep : ∀ v c', c.Alters P c' → Q (v, none) c')
    (hadd : ∀ n c', m ≤ n → n < c'.shared.fresh → c.shared.fresh ≤ n →
      (c'.shared.Sound fun l' k => (P l' k ∨ k ∈ c.storage.indexAdd l') ∨ l' = l ∧ k = n) →
      c'.storage = c.storage → Ends (update n) c' (fun a => Q (none, some a)) (OnAbort fun _ => False)) :
    ∀ (n : Nat) {c' : Ctx K V m}, c.Sought P c' →
      Ends (putSingletonLoopWith update fuel l key val n) c' Q (OnAbort fun _ => False)
  | 0, _, _ => by simp [putSingletonLoopWith]
  | n + 1, c', h' => by
    refine putSingletonLoopWith_ends (find_node_singelton_sound hu fuel h')
      (fun r c₁ hr _ => putSingletonLoopWith_sound hu hkeep hadd n hr.before.1)
      (fun pred y c₁ hr hy _ _ _ => hkeep _ _ ?_) (fun pred c₁ hr hl _ => ?_) fun _ _ _ _ _ => trivial
    · obtain ⟨h₁, hst⟩ := hr.before.alters
      have hmem : ∀ k, ((c₁.shared.stampValue y val).mem k).key = (c₁.shared.mem k).key ∧
          ((c₁.shared.stampValue y val).mem k).next = (c₁.shared.mem k).next ∧
          ((c₁.shared.stampValue y val).mem k).isDeleted = (c₁.shared.mem k).isDeleted ∧
          ((c₁.shared.mem k).val.isSome = true →
            ((c₁.shared.stampValue y val).mem k).val.isSome = true) := by
        intro k
        by_cases hk : k = y
        · subst hk
          simp [Shared.stampValue, LNode.isDeleted]
        · simp [Shared.stampValue, hk]
      have hyf := (h₁.edge pred y hy).2.1
      refine ⟨h₁.rewrite rfl rfl (fun k => (hmem k).1) (fun k hk => ?_) (fun k z hz => h₁.edge k z ?_)
        fun l => ?_, hst⟩
      · simp [Shared.stampValue, show k ≠ y from (hyf.trans_le hk).ne']
      · rw [← (hmem k).2.1]
        exact hz
      · obtain ⟨hv, hd⟩ := h₁.heads l
        exact ⟨(hmem _).2.2.2 hv, (hmem _).2.2.1.trans hd⟩
    · obtain ⟨h₁, hst⟩ := hr.before.alters
      have hs := hr.before.1.same
      have hpf : pred < c₁.shared.fresh := by
        rw [hs.fresh]
        exact hr.before.2.1
      have hlt : c₁.shared.rank pred < key := by
        rw [hs.rank]
        exact hr.before.2.2
      refine insertSingletonWith_ends hl hpf.ne ?_
      refine hadd _ _ h₁.allocated (Nat.lt_succ_self _) hs.fresh.ge ?_ hst
      exact h₁.insertStamped l val hpf hlt fun y hy => by simpa [hs.rank] using hr.rank_next y hy

theorem removeSingletonLoopWith_sound (hu : ∀ n, (c.shared.mem n).isLocked = false)
    (hkeep : ∀ v c', c.Alters P c' → Q (v, none) c')
    (hremove : ∀ x v c', c.Alters P c' →
      Ends (update x) c' (fun a => Q (v, some a)) (OnAbort fun _ => False)) :
    ∀ (n : Nat) {c' : Ctx K V m}, c.Sought P c' →
      Ends (removeSingletonLoopWith update fuel l key n) c' Q (OnAbort fun _ => False)
  | 0, _, _ => by simp [removeSingletonLoopWith]
  | n + 1, c', h' => by
    refine removeSingletonLoopWith_ends (find_node_singelton_sound hu fuel h')
      (fun _ _ c₁ hr _ => removeSingletonLoopWith_sound hu hkeep hremove n hr.before.1)
      (fun _ _ c₁ hr => hkeep _ _ hr.before.alters) (fun pred x c₁ hr hx hne _ _ _ => ?_)
      fun _ _ _ => trivial
    obtain ⟨h₁, hst⟩ := hr.before.alters
    have hpf : pred < c₁.shared.fresh := by
      rw [hr.before.1.same.fresh]
      exact hr.before.2.1
    exact hremove _ _ _ ⟨h₁.unlinkStamped hpf hx, hst⟩

end With

theorem putSingletonLoop_sound (hu : ∀ n, (c.shared.mem n).isLocked = false) (h : c.Sound P) (n : Nat)
    (h' : c.Sought P c') :
    Ends (putSingletonLoop fuel level l key val n) c' (fun _ => c.Alters P) (OnAbort fun _ => False) := by
  rw [putSingletonLoop, Ends_map]
  refine putSingletonLoopWith_sound hu (fun _ _ hc => hc) (fun k c₁ hm hk hfresh h₁ hst => ?_) n h'
  refine ((indexAdd_settles (E := fun _ _ => False) level hm hk h₁ ?_).ends (d := .diverged)
    (fun hk => indexAdd_below hk _) (fun _ => id) fuel).mono
    (fun _ c₂ hc => ⟨hc.sound, hc.updated.storage.trans hst⟩) fun e c₂ he => ?_
  · rintro (hp | hp)
    · exact absurd (h.apart l _ hp).1 (Nat.not_lt.2 hfresh)
    · exact absurd (h.storage.pending l _ hp).2 (Nat.not_lt.2 hfresh)
  · obtain rfl := he.resolve_left id
    trivial

theorem removeSingletonLoop_sound (hu : ∀ n, (c.shared.mem n).isLocked = false) (n : Nat)
    (h' : c.Sought P c') :
    Ends (removeSingletonLoop fuel l key n) c' (fun _ => c.Alters P) (OnAbort fun _ => False) := by
  rw [removeSingletonLoop, Ends_map]
  refine removeSingletonLoopWith_sound hu (fun _ _ hc => hc) (fun x v c₁ hc => ?_) n h'
  rw [Ends_bind]
  refine ((indexRemove_settles (E := fun _ _ => False) hc.sound x).ends (d := .diverged)
    (fun hk => indexRemove_below hk x) (fun _ => id) fuel).mono
    (fun _ c₂ hc₂ => Ends_retire_node.2 ⟨hc₂.sound.retire _, hc₂.updated.storage.trans hc.storage⟩)
    fun e c₂ he => ?_
  obtain rfl := he.resolve_left id
  trivial

theorem getSingleton_sound (hu : ∀ n, (c.shared.mem n).isLocked = false) (h : c.Sound P) :
    Ends (getSingleton fuel l key) c (fun _ => c.Alters P) (OnAbort fun _ => False) := by
  simp only [getSingleton, Ends_bind]
  refine (find_node_singelton_sound hu fuel ⟨h, .refl c⟩).mono (fun r c' hr => ?_) fun _ _ he => he
  split
  · simpa using hr.before.alters
  · simp
  · simpa using hr.before.alters

end Singleton

/-! ## Calls and steps -/

section Step

variable {P : ListId m → NodeId → Prop} {c c' : Ctx K V m} {ch : Choice}

theorem Ctx.Alters.sound_of (ha : c.Alters P c') (h : c.Sound P) (ho : Onward c c') : c'.Sound P := by
  refine ⟨?_, ?_, fun l n hp => ⟨(h.apart l n hp).1.trans_le ho.grows.fresh, ?_⟩⟩
  · rw [ha.storage]
    exact ha.sound
  · rw [ha.storage]
    exact h.storage.grow ho.grows.fresh ho.grows.key
  · rw [ha.storage]
    exact (h.apart l n hp).2

/-- Every call keeps what holds in every state. -/
theorem call_sound (op : Op K V m) (hs : Sane c) (h : c.Sound P)
    (ho : op = .txEnd → ch.Orders c.storage) :
    Ends (call ch op) c (fun _ c' => c'.Sound P) (OnAbort fun c' => c'.Sound P) := by
  have hstart : Searching c c c := ⟨.refl hs, .refl c⟩
  have hfind : c.Sought P c := ⟨h, .refl c⟩
  have htx : ∀ {α : Type} {x : Nat → Call K V m α}, Fueled .diverged x →
      Settles x c (fun _ c' => c.Advances P c') (Throws (c.Quits P)) →
      Ends (x ch.fuel) c (fun _ c' => c'.Sound P) (OnAbort fun c' => c'.Sound P) := by
    intro α x hx hset
    refine (hset.ends hx (fun _ => id) ch.fuel).mono (fun _ c' hc => hc.sound) fun e c' he => ?_
    rcases e with _ | _ | _ | _
    · exact (he.resolve_right (by simp)).sound
    all_goals trivial
  have hsingle : ∀ {α : Type} {x : Call K V m α},
      Ends x c (fun _ => Onward c) (OnAbort fun _ => False) →
      Ends x c (fun _ => c.Alters P) (OnAbort fun _ => False) →
      Ends x c (fun _ c' => c'.Sound P) (OnAbort fun c' => c'.Sound P) := by
    intro α x h₁ h₂
    refine (h₁.and h₂).mono (fun _ c' hc => hc.2.sound_of h hc.1) fun e c' he => ?_
    exact he.1.mono False.elim
  have hgetS : ∀ l key, Ends (getSingleton ch.fuel l key : Call K V m (Option V)) c
      (fun _ c' => c'.Sound P) (OnAbort fun c' => c'.Sound P) := fun l key =>
    hsingle ((getSingleton_single hstart).mono (fun _ _ h' => h'.onward) fun _ _ he => he)
      (getSingleton_sound hs.unlocked h)
  cases op with
  | txBegin =>
    simp only [call, TXbegin, Ends_bind, Ends_getVersion, Ends_modifyTransaction, Ends_pure]
    exact ⟨h.shared, h.storage, h.apart⟩
  | put l key val =>
    simp only [call, Ends_bind, Ends_pure]
    refine access_ends (fun _ => htx (fun hn => putTX_below hn) (putTX_settles h l key val)) fun _ => ?_
    exact hsingle ((putSingletonLoop_single ch.fuel hstart).mono (fun _ _ h' => h'.onward)
      fun _ _ he => he) (putSingletonLoop_sound hs.unlocked h ch.fuel hfind)
  | remove l key =>
    simp only [call, Ends_bind, Ends_pure]
    refine access_ends (fun _ => htx (fun hn => removeTX_below hn) (removeTX_settles h l key)) fun _ => ?_
    exact hsingle ((removeSingletonLoop_single ch.fuel hstart).mono (fun _ _ h' => h'.1.onward)
      fun _ _ he => he) (removeSingletonLoop_sound hs.unlocked ch.fuel hfind)
  | get l key =>
    simp only [call, Ends_bind, Ends_pure]
    exact access_ends (fun _ => htx (fun hn => getTX_below hn) (getTX_settles h l key)) fun _ => hgetS l key
  | containsKey l key =>
    simp only [call, containsKey, Ends_bind, Ends_pure]
    exact access_ends (fun _ => htx (fun hn => getTX_below hn) (getTX_settles h l key)) fun _ => hgetS l key
  | txEnd =>
    simp only [call, Ends_bind, Ends_pure]
    refine ((TXend_settles h (ho rfl) hs.readVersion).ends (d := .diverged)
      (fun hn => TXend_below hn ch) (fun _ => id) ch.fuel).mono (fun _ c' hc => hc.2) fun e c' he => ?_
    rcases e with _ | _ | _ | _
    · exact (he.resolve_right (by simp)).sound
    all_goals trivial
  | handleAbort =>
    simp only [call, Ends_bind, Ends_pure]
    refine handle_abort_ends fun r => ?_
    exact Ctx.sound_cleaned ((h.shared.mono fun _ _ hp => .inl hp).retire r) fun l n hp =>
      (h.apart l n hp).1

/-- The shared memory and every thread's storage. -/
structure Sys.Sound (σ : Sys K V m) : Prop where
  shared : σ.shared.Sound fun l n => ∃ u, n ∈ (σ.threads u).storage.indexAdd l
  storage : ∀ t, (σ.threads t).storage.Sound σ.shared
  apart : ∀ l n t u, n ∈ (σ.threads t).storage.indexAdd l → n ∈ (σ.threads u).storage.indexAdd l →
    t = u

/-- The nodes the other threads are to add. -/
def Sys.others (σ : Sys K V m) (t : ThreadId) (l : ListId m) (n : NodeId) : Prop :=
  ∃ u, u ≠ t ∧ n ∈ (σ.threads u).storage.indexAdd l

theorem Sys.Sound.ctx {σ : Sys K V m} (h : σ.Sound) (t : ThreadId) : (σ.ctx t).Sound (σ.others t) := by
  refine ⟨h.shared.mono fun l n hp => ?_, h.storage t, fun l n hp => ?_⟩
  · rcases hp with ⟨u, -, hu⟩ | ht
    · exact ⟨u, hu⟩
    · exact ⟨t, ht⟩
  · obtain ⟨u, hne, hu⟩ := hp
    exact ⟨((h.storage u).pending l n hu).2, fun ht => hne (h.apart l n u t hu ht)⟩

theorem Sys.Sound.put {σ : Sys K V m} (h : σ.Sound) {t : ThreadId} (hc : c.Sound (σ.others t))
    (hfresh : σ.shared.fresh ≤ c.shared.fresh)
    (hkey : ∀ n < σ.shared.fresh, (c.shared.mem n).key = (σ.shared.mem n).key) :
    (σ.put t c).Sound := by
  have hthread : ∀ u, u ≠ t → (σ.put t c).threads u = σ.threads u := fun u hu => σ.put_threads_ne c hu
  have hmem : ∀ u l n, n ∈ ((σ.put t c).threads u).storage.indexAdd l →
      u = t ∧ n ∈ c.storage.indexAdd l ∨ u ≠ t ∧ n ∈ (σ.threads u).storage.indexAdd l := by
    intro u l n hn
    by_cases hu : u = t
    · subst hu
      exact .inl ⟨rfl, by simpa using hn⟩
    · rw [hthread u hu] at hn
      exact .inr ⟨hu, hn⟩
  refine ⟨hc.shared.mono fun l n hp => ?_, fun u => ?_, fun l n u v hu hv => ?_⟩
  · obtain ⟨u, hu⟩ := hp
    rcases hmem u l n hu with ⟨-, hn⟩ | ⟨hne, hn⟩
    · exact .inr hn
    · exact .inl ⟨u, hne, hn⟩
  · by_cases hu : u = t
    · subst hu
      simpa using hc.storage
    · rw [hthread u hu]
      exact (h.storage u).grow hfresh hkey
  · rcases hmem u l n hu with ⟨hu, hnu⟩ | ⟨hu, hnu⟩ <;>
      rcases hmem v l n hv with ⟨hv, hnv⟩ | ⟨hv, hnv⟩
    · rw [hu, hv]
    · exact absurd hnu (hc.apart l n ⟨v, hv, hnv⟩).2
    · exact absurd hnv (hc.apart l n ⟨u, hu, hnu⟩).2
    · exact h.apart l n u v hnu hnv

theorem Sys.sound_init (minKey : K) (dflt : V) : (Sys.init minKey dflt : Sys K V m).Sound := by
  refine ⟨⟨le_rfl, fun _ _ => rfl, fun n y hy => by simp [Sys.init] at hy, fun l => ⟨rfl, rfl⟩,
    fun l => ?_⟩,
    fun t => ?_, fun l n t u ht => by simp [Sys.init] at ht⟩
  · exact ⟨∅, ⟨fun _ => 1, 0, fun _ => zero_lt_one, Index.indexed_new⟩, fun a ha => by simp at ha⟩
  · exact ⟨fun n we y hn => by simp [Sys.init] at hn, fun n hn => absurd hn (AList.notMem_empty n),
      fun l we hn => by simp [Sys.init] at hn, fun l => by simp [Sys.init],
      fun l n hn => by simp [Sys.init] at hn⟩

theorem Conf.Step.sound {C C' : Conf K V m} {t : ThreadId} {op : Op K V m} {ret : Ret V}
    (hst : C.Step t op ret C') (hs : C.sys.Sane) (h : C.sys.Sound) : C'.sys.Sound := by
  obtain ⟨ch, ho, hstep, -⟩ := hst
  have hfr := Sys.step_framed hs ho hstep
  obtain ⟨c, he, hc⟩ := Sys.step_of_ends (call_sound op (hs t) (h.ctx t) ho) hstep
  have hc : c.Sound (C.sys.others t) := hc.elim id fun hc => hc.2
  have hg := hfr.framed.grows
  rw [he] at hg ⊢
  rw [Sys.ctx_put_self] at hg
  exact h.put hc hg.fresh hg.key

end Step

end TxList
