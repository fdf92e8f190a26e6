import TxList.Phases
import TxList.Proofs.IndexRuns
import TxList.Proofs.Withheld
import TxList.Snapshot

/-!
# A removed node leaves the index

A node stays out of its index while its `add` is still to come, and no `add` of it comes twice. When
`remove` has taken it out, nothing puts it back. `remove` takes a node out when it finds it dead on the
bottom level with no live node of its key before it; the rest is a matter of the order of the two calls.
-/

namespace TxList

open Prog

variable {K V : Type} {m : Nat} [LinearOrder K]

/-! ## Index calls -/

def IndexCall.isAdd : IndexCall m → Bool
  | .add _ _ => true
  | .remove _ _ => false

namespace LocalStorage

variable {ls : LocalStorage V m} {l : ListId m} {n : NodeId}

theorem add_mem_indexCalls : .add l n ∈ ls.indexCalls ↔ n ∈ ls.indexAdd l := by
  simp [indexCalls]

theorem adds_nodup (h : ∀ l, (ls.indexAdd l).Nodup) : (ls.indexCalls.filter IndexCall.isAdd).Nodup := by
  have hadd : ∀ x ∈ (List.finRange m).flatMap (fun l => (ls.indexAdd l).map (IndexCall.add l)),
      x.isAdd = true := by
    intro x hx
    obtain ⟨l, -, hx⟩ := List.mem_flatMap.1 hx
    obtain ⟨n, -, rfl⟩ := List.mem_map.1 hx
    rfl
  have hremove : ∀ x ∈ (List.finRange m).flatMap (fun l => (ls.indexRemove l).map (IndexCall.remove l)),
      ¬ x.isAdd = true := by
    intro x hx
    obtain ⟨l, -, hx⟩ := List.mem_flatMap.1 hx
    obtain ⟨n, -, rfl⟩ := List.mem_map.1 hx
    simp [IndexCall.isAdd]
  unfold indexCalls
  rw [List.filter_append, List.filter_eq_self.2 hadd, List.filter_eq_nil_iff.2 hremove, List.append_nil,
    List.nodup_flatMap]
  refine ⟨fun l _ => (h l).map fun a b hab => (IndexCall.add.inj hab).2, ?_⟩
  refine (List.nodup_finRange m).imp fun {l l'} hne x hx hx' => ?_
  obtain ⟨n, -, rfl⟩ := List.mem_map.1 hx
  obtain ⟨k, -, he⟩ := List.mem_map.1 hx'
  exact hne (IndexCall.add.inj he).1.symm

end LocalStorage

/-! ## List phases -/

/-- What a list phase does that leaves the index calls `xs`; `P` are nodes that others are to add, or
that have been taken out. -/
structure Ctx.Phase (P : ListId m → NodeId → Prop) (c : Ctx K V m) (xs : List (IndexCall m))
    (c' : Ctx K V m) : Prop where
  sane : Sane c'
  grows : Grows (fun _ _ => True) c.shared c'.shared
  sound : c'.Sound fun l n => P l n ∨ .add l n ∈ xs
  new : ∀ l n, .add l n ∈ xs → m ≤ n ∧ ¬ P l n
  kept : ∀ l n, n ∈ c'.storage.indexAdd l ∨ .add l n ∈ xs →
    n ∈ c.storage.indexAdd l ∨ c.shared.fresh ≤ n
  nodup : (xs.filter IndexCall.isAdd).Nodup

section List

variable {P : ListId m → NodeId → Prop} {c c' : Ctx K V m} {ch : Choice} {op : Op K V m}

omit [LinearOrder K] in
theorem Grows.any {s s' : Shared K V m} {X : NodeId → Nat → Prop} (h : Grows X s s') :
    Grows (fun _ _ => True) s s' :=
  ⟨h.gvc, h.fresh, h.key, h.version, fun _ _ _ _ hX => absurd trivial hX⟩

/-- The nodes to be added are those that were, and new ones. -/
def Ctx.KeepsAdded (c c' : Ctx K V m) : Prop :=
  ∀ l n, n ∈ c'.storage.indexAdd l → n ∈ c.storage.indexAdd l ∨ c.shared.fresh ≤ n

omit [LinearOrder K] in
theorem Ctx.keepsAdded_of_storage (h : c'.storage = c.storage) : c.KeepsAdded c' :=
  fun _ _ hn => .inl (h ▸ hn)

/-- A list phase that is the whole call. -/
theorem Ctx.phase_nil {X : NodeId → Nat → Prop} (hs : Sane c') (hg : Grows X c.shared c'.shared)
    (h : c'.Sound P) (hkept : c.KeepsAdded c') : c.Phase P [] c' := by
  refine ⟨hs, hg.any, ⟨h.shared.mono fun _ _ hp => ?_, h.storage, fun l n hp => ?_⟩,
    fun _ _ hn => absurd hn List.not_mem_nil, fun l n hn => ?_, List.nodup_nil⟩
  · exact hp.imp (fun hp => hp.resolve_right List.not_mem_nil) id
  · exact h.apart l n (hp.resolve_right List.not_mem_nil)
  · exact hkept l n (hn.resolve_right List.not_mem_nil)

/-- The calls that update no index. -/
theorem call_phase (hs : Sane c) (h : c.Sound P) (hop : op ≠ .txEnd)
    (hput : ∀ l key val, op = .put l key val → c.transaction.TX = true)
    (hremove : ∀ l key, op = .remove l key → c.transaction.TX = true) :
    Ends (call ch op) c (fun _ c' => c.Phase P [] c') (OnAbort (c.Phase P [])) := by
  have hno : op = .txEnd → ch.Orders c.storage := fun he => absurd he hop
  have hacc : op.isAccess = true → c.transaction.TX = true →
      Ends (call ch op) c (fun _ => c.KeepsAdded) (OnAbort c.KeepsAdded) := by
    intro ha hT
    refine Ends.mono (call_accessed ha hT)
      (fun _ c' hc l n hn => (hc.1.mem_added hn).imp id fun hn => hn.1.ge) fun _ _ he => ?_
    exact he.mono fun hc l n hn => (hc.mem_added hn).imp id fun hn => hn.1.ge
  have hget : ∀ l key, Ends (getSingleton ch.fuel l key : Call K V m (Option V)) c
      (fun _ => c.KeepsAdded) (OnAbort c.KeepsAdded) := fun l key =>
    (getSingleton_single ⟨.refl hs, .refl c⟩).mono
      (fun _ c' hc => Ctx.keepsAdded_of_storage hc.storage) fun _ _ he => he.mono False.elim
  have hkept : Ends (call ch op) c (fun _ => c.KeepsAdded) (OnAbort c.KeepsAdded) := by
    cases op with
    | txBegin =>
      simp only [call, TXbegin, Ends_bind, Ends_getVersion, Ends_modifyTransaction, Ends_pure]
      exact Ctx.keepsAdded_of_storage rfl
    | txEnd => exact absurd rfl hop
    | handleAbort =>
      simp only [call, Ends_bind, Ends_pure]
      exact handle_abort_ends fun r l n hn => absurd hn List.not_mem_nil
    | put l key val => exact hacc rfl (hput l key val rfl)
    | remove l key => exact hacc rfl (hremove l key rfl)
    | get l key =>
      by_cases hT : c.transaction.TX = true
      · exact hacc rfl hT
      · simp only [call, Ends_bind, Ends_pure]
        exact access_ends (fun h' => absurd h' hT) fun _ => hget l key
    | containsKey l key =>
      by_cases hT : c.transaction.TX = true
      · exact hacc rfl hT
      · simp only [call, containsKey, Ends_bind, Ends_pure]
        exact access_ends (fun h' => absurd h' hT) fun _ => hget l key
  refine (((call_framed op hs hno).and (call_sound op hs h hno)).and hkept).mono
    (fun _ c' hc => Ctx.phase_nil hc.1.1.1.sane hc.1.1.1.grows hc.1.2 hc.2) fun e c' he => ?_
  rcases e with _ | _ | _ | _
  · exact Ctx.phase_nil he.1.1.sane he.1.1.grows he.1.2 he.2
  all_goals trivial

section Singleton

variable {l : ListId m} {key : K} {val : V}

/-- The list phase of a singleton's `put`. -/
theorem put_phase (hs : Sane c) (h : c.Sound P) (fuel n : Nat) :
    Ends (putSingletonLoopWith (fun n => return IndexCall.add l n) fuel l key val n) c
      (fun r c' => c.Phase P r.2.toList c') (OnAbort (c.Phase P [])) := by
  have hsingle : Ends (putSingletonLoopWith (fun n => return IndexCall.add l n) fuel l key val n) c
      (fun _ c' => Onward c c') (OnAbort fun _ => False) :=
    putSingletonLoopWith_single (fun _ _ hc => hc.onward) (fun _ _ hc _ _ _ _ => (Ends_pure _).2 hc) n
      ⟨.refl hs, .refl c⟩
  have hsound : Ends (putSingletonLoopWith (fun n => return IndexCall.add l n) fuel l key val n) c
      (fun r c' => c'.storage = c.storage ∧
        (c'.shared.Sound fun l' k => (P l' k ∨ k ∈ c.storage.indexAdd l') ∨ .add l' k ∈ r.2.toList) ∧
        ∀ x ∈ r.2.toList, ∃ k, x = .add l k ∧ m ≤ k ∧ k < c'.shared.fresh ∧ c.shared.fresh ≤ k)
      (OnAbort fun _ => False) := by
    refine putSingletonLoopWith_sound hs.unlocked (fun _ c' hc => ⟨hc.storage, ?_, ?_⟩)
      (fun k c' hm hk hfresh hc hst => (Ends_pure _).2 ⟨hst, ?_, ?_⟩) n ⟨h, .refl c⟩
    · exact hc.sound.mono fun l' k hp => hp.resolve_right List.not_mem_nil
    · exact fun x hx => absurd hx List.not_mem_nil
    · refine hc.mono fun l' k' hp => hp.imp id fun hk => ?_
      obtain ⟨rfl, rfl⟩ := IndexCall.add.inj (List.mem_singleton.1 hk)
      exact ⟨rfl, rfl⟩
    · exact fun x hx => ⟨k, List.mem_singleton.1 hx, hm, hk, hfresh⟩
  refine (hsingle.and hsound).mono (fun r c' hc => ?_) fun e c' he => he.1.mono False.elim
  obtain ⟨ho, hst, hsh, hxs⟩ := hc
  have hadd : ∀ {l' k}, .add l' k ∈ r.2.toList → m ≤ k ∧ k < c'.shared.fresh ∧ c.shared.fresh ≤ k := by
    intro l' k hk
    obtain ⟨k', he, hk'⟩ := hxs _ hk
    obtain ⟨-, rfl⟩ := IndexCall.add.inj he
    exact hk'
  have hP : ∀ {l' k}, P l' k ∨ k ∈ c.storage.indexAdd l' → k < c.shared.fresh := fun hp =>
    hp.elim (fun hp => (h.apart _ _ hp).1) fun hp => (h.storage.pending _ _ hp).2
  refine ⟨ho.sane, ho.grows.any, ⟨hsh.mono fun l' k hp => ?_, ?_, fun l' k hp => ?_⟩,
    fun l' k hk => ⟨(hadd hk).1, fun hp => ?_⟩, fun l' k hk => ?_, ?_⟩
  · rw [hst] at hp
    exact hp.elim (fun hp => hp.imp .inl id) fun hp => .inl (.inr hp)
  · rw [hst]
    exact h.storage.grow ho.grows.fresh ho.grows.key
  · rw [hst]
    rcases hp with hp | hk
    · exact ⟨(h.apart l' k hp).1.trans_le ho.grows.fresh, (h.apart l' k hp).2⟩
    · exact ⟨(hadd hk).2.1, fun hp => absurd (hP (.inr hp)) (Nat.not_lt.2 (hadd hk).2.2)⟩
  · exact absurd (hP (.inl hp)) (Nat.not_lt.2 (hadd hk).2.2)
  · rw [hst] at hk
    exact hk.imp id fun hk => (hadd hk).2.2
  · cases r.2 with
    | none => exact List.nodup_nil
    | some x => exact List.Nodup.filter _ (List.nodup_singleton x)

/-- The list phase of a singleton's `remove`. -/
theorem remove_phase (hs : Sane c) (h : c.Sound P) (fuel n : Nat) :
    Ends (removeSingletonLoopWith (fun n => return IndexCall.remove l n) fuel l key n) c
      (fun r c' => c.Phase P r.2.toList c') (OnAbort (c.Phase P [])) := by
  have hsingle : Ends (removeSingletonLoopWith (fun n => return IndexCall.remove l n) fuel l key n) c
      (fun _ c' => Onward c c') (OnAbort fun _ => False) :=
    removeSingletonLoopWith_single (fun _ _ hc _ => hc.onward) (fun _ _ _ hc _ => (Ends_pure _).2 hc.onward) n
      ⟨.refl hs, .refl c⟩
  have hsound : Ends (removeSingletonLoopWith (fun n => return IndexCall.remove l n) fuel l key n) c
      (fun r c' => c.Alters P c' ∧ ∀ l' k, .add l' k ∉ r.2.toList) (OnAbort fun _ => False) := by
    refine removeSingletonLoopWith_sound hs.unlocked (fun _ c' hc => ⟨hc, ?_⟩)
      (fun x _ c' hc => (Ends_pure _).2 ⟨hc, ?_⟩) n ⟨h, .refl c⟩
    · exact fun l' k hk => absurd hk List.not_mem_nil
    · exact fun l' k hk => absurd (List.mem_singleton.1 hk) (by simp)
  refine (hsingle.and hsound).mono (fun r c' hc => ?_) fun e c' he => he.1.mono False.elim
  obtain ⟨ho, halt, hno⟩ := hc
  have hc' := halt.sound_of h ho
  refine ⟨ho.sane, ho.grows.any, ⟨hc'.shared.mono fun l' k hp => ?_, hc'.storage, fun l' k hp => ?_⟩,
    fun l' k hk => absurd hk (hno l' k), fun l' k hk => ?_, ?_⟩
  · exact hp.imp (fun hp => hp.resolve_right (hno l' k)) id
  · exact hc'.apart l' k (hp.resolve_right (hno l' k))
  · rw [halt.storage] at hk
    exact .inl (hk.resolve_right (hno l' k))
  · cases r.2 with
    | none => exact List.nodup_nil
    | some x => exact List.Nodup.filter _ (List.nodup_singleton x)

end Singleton

/-- The list phase of `TXend`. -/
theorem txEnd_phase (hs : Sane c) (h : c.Sound P) (ho : ch.Orders c.storage) :
    Ends (TXendWith (return ()) ch) c
      (fun _ c' => c.Phase P (if c.transaction.readOnly then [] else c.storage.indexCalls) c')
      (OnAbort (c.Phase P [])) := by
  have hkept : ∀ d : Ctx K V m, c.KeepsAdded d.cleaned := fun d l n hn => absurd hn List.not_mem_nil
  refine TXendWith_ends ho (fun _ _ hr => ?_) (fun _ _ hr => ?_) (fun _ => ?_)
    (fun n hn hw _ _ _ => ?_) (fun _ _ _ _ _ _ _ => trivial) fun _ _ => trivial
  · rw [hr]
    have hcommit := commit_onward hs
    refine ⟨hcommit.sane.cleaned, hcommit.grows.any,
      Ctx.sound_cleaned (h.commit.mono fun l n hp => ?_) fun l n hp => ?_, fun l n hn => ?_,
      fun l n hn => ?_, LocalStorage.adds_nodup h.storage.nodup⟩
    · exact hp.imp id LocalStorage.add_mem_indexCalls.1
    · exact hp.elim (fun hp => (h.apart l n hp).1) fun hp =>
        (h.storage.pending l n (LocalStorage.add_mem_indexCalls.1 hp)).2
    · have hn := LocalStorage.add_mem_indexCalls.1 hn
      exact ⟨(h.storage.pending l n hn).1, fun hp => (h.apart l n hp).2 hn⟩
    · exact .inl (hn.elim (fun hn => absurd hn List.not_mem_nil) LocalStorage.add_mem_indexCalls.1)
  · rw [hr]
    exact Ctx.phase_nil hs.cleaned (.refl _ : Grows (fun _ _ => True) _ _) h.cleaned (hkept c)
  · exact Ctx.phase_nil hs.cleaned (.refl _ : Grows (fun _ _ => True) _ _) h.cleaned (hkept c)
  · refine Ctx.phase_nil (hs.clearMark n).cleaned
      (grows_clearMark fun _ _ => trivial : Grows (fun _ _ => True) _ _) ?_ (hkept _)
    exact Ctx.sound_cleaned ((h.shared.clearMark (h.storage.written n hw)).mono fun _ _ hp => .inl hp)
      fun l n hp => (h.apart l n hp).1

theorem listPhase_ends (hs : Sane c) (h : c.Sound P) (ho : op = .txEnd → ch.Orders c.storage) :
    Ends (listPhase ch op) c (fun r c' => c.Phase P r.2 c') (OnAbort (c.Phase P [])) := by
  have hcall : op ≠ .txEnd → (∀ l key val, op = .put l key val → c.transaction.TX = true) →
      (∀ l key, op = .remove l key → c.transaction.TX = true) →
      Ends (call ch op) c (fun _ c' => c.Phase P [] c') (OnAbort (c.Phase P [])) := call_phase hs h
  cases op with
  | txBegin | get l key | containsKey l key | handleAbort =>
    simp only [listPhase, Ends_bind, Ends_pure]
    exact hcall (by simp) (by simp) (by simp)
  | put l key val =>
    simp only [listPhase]
    refine access_ends (fun hT => ?_) fun _ => ?_
    · have hc := hcall (by simp) (fun _ _ _ _ => hT) (by simp)
      simp only [call, put, Ends_bind, Ends_get, Ends_ite, Ends_pure] at hc ⊢
      exact hc.1 hT
    · simp only [Ends_bind, Ends_pure]
      exact put_phase hs h ch.fuel ch.fuel
  | remove l key =>
    simp only [listPhase]
    refine access_ends (fun hT => ?_) fun _ => ?_
    · have hc := hcall (by simp) (by simp) (fun _ _ _ => hT)
      simp only [call, remove, Ends_bind, Ends_get, Ends_ite, Ends_pure] at hc ⊢
      exact hc.1 hT
    · simp only [Ends_bind, Ends_pure]
      exact remove_phase hs h ch.fuel ch.fuel
  | txEnd =>
    simp only [listPhase, Ends_bind, Ends_get, Ends_pure]
    exact txEnd_phase hs h (ho rfl)

end List

/-! ## Steps -/

namespace Phased

variable {s s' : Phased K V m} {t u : ThreadId} {l : ListId m} {n : NodeId}

/-- Thread `u` is to add the node to the list's index. -/
def Awaits (s : Phased K V m) (u : ThreadId) (l : ListId m) (n : NodeId) : Prop :=
  n ∈ (s.sys.threads u).storage.indexAdd l ∨ .add l n ∈ s.todo u

/-- Both the `add` and the `remove` have returned. -/
def Forgotten (s : Phased K V m) (l : ListId m) (n : NodeId) : Prop :=
  .add l n ∈ s.returned ∧ .remove l n ∈ s.returned

/-- The index has not got the node. -/
def Barred (s : Phased K V m) (l : ListId m) (n : NodeId) : Prop :=
  (∃ u, s.Awaits u l n) ∨ s.Forgotten l n

/-- What is not in an index, and who is to add it. -/
structure Inv (s : Phased K V m) : Prop where
  sane : s.sys.Sane
  shared : s.sys.shared.Sound s.Barred
  storage : ∀ t, (s.sys.threads t).storage.Sound s.sys.shared
  todo : ∀ t, ((s.todo t).filter IndexCall.isAdd).Nodup
  pending : ∀ t l n, .add l n ∈ s.todo t →
    m ≤ n ∧ n < s.sys.shared.fresh ∧ n ∉ (s.sys.threads t).storage.indexAdd l
  apart : ∀ t u l n, s.Awaits t l n → s.Awaits u l n → t = u
  returned : ∀ l n, .add l n ∈ s.returned →
    m ≤ n ∧ n < s.sys.shared.fresh ∧ ∀ u, ¬ s.Awaits u l n

/-- What is not for thread `t` to add. -/
def Others (s : Phased K V m) (t : ThreadId) (l : ListId m) (n : NodeId) : Prop :=
  (∃ u, u ≠ t ∧ s.Awaits u l n) ∨ s.Forgotten l n

theorem Inv.lt (h : s.Inv) (hn : s.Awaits u l n) : n < s.sys.shared.fresh :=
  hn.elim (fun hn => ((h.storage u).pending l n hn).2) fun hn => (h.pending u l n hn).2.1

theorem Inv.ctx (h : s.Inv) (t : ThreadId) : (s.sys.ctx t).Sound (s.Others t) := by
  refine ⟨h.shared.mono fun l n hp => ?_, h.storage t, fun l n hp => ?_⟩
  · rcases hp with (⟨u, -, hu⟩ | hf) | hn
    · exact .inl ⟨u, hu⟩
    · exact .inr hf
    · exact .inl ⟨t, .inl hn⟩
  · rcases hp with ⟨u, hne, hu⟩ | hf
    · exact ⟨h.lt hu, fun hn => hne (h.apart u t l n hu (.inl hn))⟩
    · exact ⟨(h.returned l n hf.1).2.1, fun hn => (h.returned l n hf.1).2.2 t (.inl hn)⟩

/-- The state after a list phase. -/
def listed (s : Phased K V m) (t : ThreadId) (c : Ctx K V m) (xs : List (IndexCall m)) : Phased K V m :=
  { s with sys := s.sys.put t c, todo := Function.update s.todo t xs }

theorem Inv.phase (h : s.Inv) {c : Ctx K V m} {xs : List (IndexCall m)}
    (hc : (s.sys.ctx t).Phase (s.Others t) xs c) : (s.listed t c xs).Inv := by
  have hself : (s.listed t c xs).sys.threads t = ⟨c.storage, c.transaction⟩ := Sys.put_threads_self ..
  have hne : ∀ {u}, u ≠ t → (s.listed t c xs).sys.threads u = s.sys.threads u := fun hu =>
    s.sys.put_threads_ne c hu
  have htodo : (s.listed t c xs).todo t = xs := Function.update_self ..
  have htodo' : ∀ {u}, u ≠ t → (s.listed t c xs).todo u = s.todo u := fun hu => Function.update_of_ne hu _ _
  have hshared : (s.listed t c xs).sys.shared = c.shared := rfl
  have hawaits : ∀ {u l n}, u ≠ t → ((s.listed t c xs).Awaits u l n ↔ s.Awaits u l n) := by
    intro u l n hu
    unfold Awaits
    rw [hne hu, htodo' hu]
  have hawaitst : ∀ {l n}, (s.listed t c xs).Awaits t l n ↔ n ∈ c.storage.indexAdd l ∨ .add l n ∈ xs := by
    intro l n
    unfold Awaits
    rw [hself, htodo]
  -- what `t` is to add now it was to add before, or is new
  have hold : ∀ {l n}, (s.listed t c xs).Awaits t l n → s.Awaits t l n ∨ s.sys.shared.fresh ≤ n := fun hn =>
    (hc.kept _ _ (hawaitst.1 hn)).imp .inl id
  refine ⟨fun u => ?_, hc.sound.shared.mono fun l n hp => ?_, fun u => ?_, fun u => ?_,
    fun u l n hn => ?_, fun u v l n hu hv => ?_, fun l n hn => ?_⟩
  · by_cases hu : u = t
    · subst hu
      show Sane ((s.sys.put u c).ctx u)
      rw [Sys.ctx_put_self]
      exact hc.sane
    · show Sane ((s.sys.put t c).ctx u)
      rw [Sys.ctx_put_ne _ _ hu]
      exact (h.sane u).of_grows hc.sane rfl hc.grows
  · rcases hp with ⟨u, hu⟩ | hf
    · by_cases hut : u = t
      · subst hut
        exact (hawaitst.1 hu).elim .inr fun hn => .inl (.inr hn)
      · exact .inl (.inl (.inl ⟨u, hut, (hawaits hut).1 hu⟩))
    · exact .inl (.inl (.inr hf))
  · by_cases hu : u = t
    · subst hu
      rw [hself]
      exact hc.sound.storage
    · rw [hne hu]
      exact (h.storage u).grow hc.grows.fresh hc.grows.key
  · by_cases hu : u = t
    · subst hu
      rw [htodo]
      exact hc.nodup
    · rw [htodo' hu]
      exact h.todo u
  · by_cases hu : u = t
    · subst hu
      rw [htodo] at hn
      rw [hself]
      exact ⟨(hc.new l n hn).1, hc.sound.apart l n (.inr hn)⟩
    · rw [htodo' hu] at hn
      rw [hne hu]
      obtain ⟨h1, h2, h3⟩ := h.pending u l n hn
      exact ⟨h1, h2.trans_le hc.grows.fresh, h3⟩
  · have hother : ∀ {u}, u ≠ t → (s.listed t c xs).Awaits u l n → ¬ (s.listed t c xs).Awaits t l n := by
      intro u hu hu' ht'
      have hP : s.Others t l n := .inl ⟨u, hu, (hawaits hu).1 hu'⟩
      exact (hawaitst.1 ht').elim (hc.sound.apart l n (.inl hP)).2 fun hn => (hc.new l n hn).2 hP
    by_cases hut : u = t <;> by_cases hvt : v = t
    · rw [hut, hvt]
    · exact absurd (hut ▸ hu) (hother hvt hv)
    · exact absurd (hvt ▸ hv) (hother hut hu)
    · exact h.apart u v l n ((hawaits hut).1 hu) ((hawaits hvt).1 hv)
  · obtain ⟨h1, h2, h3⟩ := h.returned l n hn
    refine ⟨h1, h2.trans_le hc.grows.fresh, fun u hu => ?_⟩
    by_cases hut : u = t
    · subst hut
      exact (hold hu).elim (h3 u) fun hle => absurd h2 (Nat.not_lt.2 hle)
    · exact h3 u ((hawaits hut).1 hu)

/-- The state after the index call `x`. -/
def indexed (s : Phased K V m) (t : ThreadId) (c : Ctx K V m) (x : IndexCall m) (xs : List (IndexCall m)) :
    Phased K V m :=
  ⟨s.sys.put t c, Function.update s.todo t xs, x :: s.returned⟩

section Index

variable {c : Ctx K V m} {x : IndexCall m} {xs : List (IndexCall m)}

omit [LinearOrder K] in
theorem Inv.awaits_of_indexed (ht : s.todo t = x :: xs) (hst : c.storage = (s.sys.threads t).storage)
    (hn : (s.indexed t c x xs).Awaits u l n) : s.Awaits u l n := by
  unfold Awaits at hn ⊢
  by_cases hu : u = t
  · subst hu
    have hself : (s.indexed u c x xs).sys.threads u = ⟨c.storage, c.transaction⟩ := Sys.put_threads_self ..
    have htodo : (s.indexed u c x xs).todo u = xs := Function.update_self ..
    rw [hself, htodo, hst] at hn
    rw [ht]
    exact hn.imp id (List.mem_cons_of_mem _)
  · have hne : (s.indexed t c x xs).sys.threads u = s.sys.threads u := s.sys.put_threads_ne c hu
    have htodo : (s.indexed t c x xs).todo u = s.todo u := Function.update_of_ne hu _ _
    rwa [hne, htodo] at hn

/-- Once a node is being added, no one else is to add it. -/
theorem Inv.not_awaits_indexed (h : s.Inv) (ht : s.todo t = .add l n :: xs)
    (hst : c.storage = (s.sys.threads t).storage) (u : ThreadId) :
    ¬ (s.indexed t c (.add l n) xs).Awaits u l n := by
  intro hu
  have hmem : .add l n ∈ s.todo t := by rw [ht]; exact List.mem_cons_self
  obtain rfl := h.apart u t l n (Inv.awaits_of_indexed ht hst hu) (.inr hmem)
  have hself : (s.indexed u c (.add l n) xs).sys.threads u = ⟨c.storage, c.transaction⟩ :=
    Sys.put_threads_self ..
  have htodo : (s.indexed u c (.add l n) xs).todo u = xs := Function.update_self ..
  unfold Awaits at hu
  rw [hself, htodo, hst] at hu
  refine hu.elim (h.pending u l n hmem).2.2 fun hn => ?_
  have hnd := h.todo u
  rw [ht, List.filter_cons_of_pos rfl] at hnd
  exact (List.nodup_cons.1 hnd).1 (List.mem_filter.2 ⟨hn, rfl⟩)

theorem Inv.indexed (h : s.Inv) (ht : s.todo t = x :: xs) (hon : Onward (s.sys.ctx t) c)
    (hup : (s.sys.ctx t).Updated c) (hsound : c.shared.Sound (s.indexed t c x xs).Barred) :
    (s.indexed t c x xs).Inv := by
  have hst : c.storage = (s.sys.threads t).storage := hup.storage
  have hfresh : c.shared.fresh = s.sys.shared.fresh := hup.fresh
  have hthread : ∀ u, ((s.indexed t c x xs).sys.threads u).storage = (s.sys.threads u).storage := by
    intro u
    by_cases hu : u = t
    · subst hu
      have hself : (s.indexed u c x xs).sys.threads u = ⟨c.storage, c.transaction⟩ :=
        Sys.put_threads_self ..
      rw [hself, hst]
    · have hne : (s.indexed t c x xs).sys.threads u = s.sys.threads u := s.sys.put_threads_ne c hu
      rw [hne]
  have hsub : ∀ u, ((s.indexed t c x xs).todo u).Sublist (s.todo u) := by
    intro u
    by_cases hu : u = t
    · subst hu
      have htodo : (s.indexed u c x xs).todo u = xs := Function.update_self ..
      rw [htodo, ht]
      exact List.sublist_cons_self x xs
    · have htodo : (s.indexed t c x xs).todo u = s.todo u := Function.update_of_ne hu _ _
      rw [htodo]
  refine ⟨fun u => ?_, hsound, fun u => ?_, fun u => (h.todo u).sublist ((hsub u).filter _),
    fun u l n hn => ?_, fun u v l n hu hv => ?_, fun l n hn => ?_⟩
  · by_cases hu : u = t
    · subst hu
      show Sane ((s.sys.put u c).ctx u)
      rw [Sys.ctx_put_self]
      exact hon.sane
    · show Sane ((s.sys.put t c).ctx u)
      rw [Sys.ctx_put_ne _ _ hu]
      exact (h.sane u).of_grows hon.sane rfl hon.grows
  · rw [hthread]
    exact (h.storage u).grow hon.grows.fresh hon.grows.key
  · rw [hthread]
    obtain ⟨h1, h2, h3⟩ := h.pending u l n ((hsub u).subset hn)
    exact ⟨h1, hfresh ▸ h2, h3⟩
  · exact h.apart u v l n (Inv.awaits_of_indexed ht hst hu) (Inv.awaits_of_indexed ht hst hv)
  · rcases List.mem_cons.1 hn with rfl | hn
    · obtain ⟨h1, h2, -⟩ := h.pending t l n (by rw [ht]; exact List.mem_cons_self)
      exact ⟨h1, hfresh ▸ h2, h.not_awaits_indexed ht hst⟩
    · obtain ⟨h1, h2, h3⟩ := h.returned l n hn
      exact ⟨h1, hfresh ▸ h2, fun u hu => h3 u (Inv.awaits_of_indexed ht hst hu)⟩

end Index

section Calls

variable {ch : Choice} {c : Ctx K V m} {xs : List (IndexCall m)} {r : Unit}

theorem Inv.add (h : s.Inv) (ht : s.todo t = .add l n :: xs) (hno : .remove l n ∉ s.returned)
    (hrun : (IndexCall.add l n).run ch (s.sys.ctx t) = .ok r c) :
    (s.indexed t c (.add l n) xs).Inv := by
  have hmem : .add l n ∈ s.todo t := by rw [ht]; exact List.mem_cons_self
  obtain ⟨hm, hn, -⟩ := h.pending t l n hmem
  -- the set of the nodes that are barred afterwards depends on the storage alone
  have hbarred : ∀ d : Ctx K V m, d.storage = (s.sys.threads t).storage → ∀ l' k,
      (s.indexed t d (.add l n) xs).Barred l' k → s.Barred l' k ∧ ¬ (l' = l ∧ k = n) := by
    rintro d hd l' k (⟨u, hu⟩ | ⟨hadd, hrem⟩)
    · refine ⟨.inl ⟨u, Inv.awaits_of_indexed ht hd hu⟩, ?_⟩
      rintro ⟨rfl, rfl⟩
      exact h.not_awaits_indexed ht hd u hu
    · have hrem' : .remove l' k ∈ s.returned := (List.mem_cons.1 hrem).resolve_left (by simp)
      have hne : ¬ (l' = l ∧ k = n) := by
        rintro ⟨rfl, rfl⟩
        exact hno hrem'
      refine ⟨.inr ⟨(List.mem_cons.1 hadd).resolve_left fun he => ?_, hrem'⟩, hne⟩
      obtain ⟨rfl, rfl⟩ := IndexCall.add.inj he
      exact hne ⟨rfl, rfl⟩
  have hR : ∀ l' k, (s.Barred l' k ∧ ¬ (l' = l ∧ k = n)) ∨ l' = l ∧ k = n → s.Barred l' k := by
    rintro l' k (hk | ⟨rfl, rfl⟩)
    · exact hk.1
    · exact .inl ⟨t, .inr hmem⟩
  have hon : Ends ((IndexCall.add l n).run ch) (s.sys.ctx t)
      (fun _ c' => Onward (s.sys.ctx t) c' ∧ (s.sys.ctx t).Reindexed c') (OnAbort fun _ => False) :=
    onIndex_add_onward (.refl (h.sane t)) l hn
  have hset := ((indexAdd_settles (E := fun _ _ => False) ch.level hm hn
    (h.shared.mono hR : (s.sys.ctx t).shared.Sound _) fun hk => hk.2 ⟨rfl, rfl⟩).ends (d := .diverged)
    (fun hk => indexAdd_below hk n) (fun _ => id) ch.fuel).ok hrun
  exact h.indexed ht (hon.ok hrun).1 hset.updated (hset.sound.mono (hbarred c hset.updated.storage))

theorem Inv.remove (h : s.Inv) (ht : s.todo t = .remove l n :: xs)
    (hno : ¬ (s.sys.shared.index l).Keeps s.sys.shared.view n)
    (hrun : (IndexCall.remove l n).run ch (s.sys.ctx t) = .ok r c) :
    (s.indexed t c (.remove l n) xs).Inv := by
  have hon : Ends ((IndexCall.remove l n).run ch) (s.sys.ctx t) (fun _ c' => Onward (s.sys.ctx t) c')
      (OnAbort fun _ => False) := by
    simp only [IndexCall.run, Ends_bind]
    exact (onIndex_remove_onward (.refl (h.sane t)) l n).mono
      (fun _ c' hc => Ends_retire_node.2 (hc.1.retire _)) fun _ _ he => he
  have hset : Ends ((IndexCall.remove l n).run ch) (s.sys.ctx t) (fun _ c' => (s.sys.ctx t).Updating
      (fun l' k => s.Barred l' k ∨ l' = l ∧ k = n) c') (fun _ _ => True) := by
    simp only [IndexCall.run, Ends_bind]
    refine ((indexRemove_drops (E := fun _ _ => False) (l := l)
      (h.shared : (s.sys.ctx t).shared.Sound _) n).ends (d := .diverged)
      (fun hk => indexRemove_below hk n) (fun _ => id) ch.fuel).mono (fun _ c' hc => Ends_retire_node.2 ?_)
      fun _ _ _ => trivial
    refine ⟨(hc.sound.mono fun l' k hk => ?_).retire _, hc.updated.mem, hc.updated.gvc, hc.updated.fresh,
      hc.updated.storage, hc.updated.transaction⟩
    exact hk.imp id fun hk => ⟨hk.1, hk.2, hno⟩
  have hup := hset.ok hrun
  refine h.indexed ht (hon.ok hrun) hup.updated (hup.sound.mono fun l' k hk => ?_)
  rcases hk with ⟨u, hu⟩ | ⟨hadd, hrem⟩
  · exact .inl (.inl ⟨u, Inv.awaits_of_indexed ht hup.updated.storage hu⟩)
  · have hadd' : .add l' k ∈ s.returned := (List.mem_cons.1 hadd).resolve_left (by simp)
    rcases List.mem_cons.1 hrem with he | hrem
    · obtain ⟨rfl, rfl⟩ := IndexCall.remove.inj he
      exact .inr ⟨rfl, rfl⟩
    · exact .inl (.inr ⟨hadd', hrem⟩)

end Calls

/-! ## Runs -/

section Runs

variable {minKey : K} {dflt : V} {o : Option (Op K V m)}

theorem inv_init (minKey : K) (dflt : V) : (init minKey dflt : Phased K V m).Inv := by
  have hs : (Sys.init minKey dflt : Sys K V m).Sound := Sys.sound_init minKey dflt
  refine ⟨Sys.sane_init minKey dflt, hs.shared.mono fun l n hp => ?_, hs.storage, fun t => List.nodup_nil,
    fun t l n hn => absurd hn List.not_mem_nil, fun t u l n ht => ?_,
    fun l n hn => absurd hn List.not_mem_nil⟩
  · rcases hp with ⟨u, hu⟩ | hf
    · exact ⟨u, hu.resolve_right List.not_mem_nil⟩
    · exact absurd hf.1 List.not_mem_nil
  · exact absurd (ht.resolve_right List.not_mem_nil) List.not_mem_nil

theorem Inv.step (h : s.Inv) (hG : InTurn s t o) (hs : s.Step t o s') : s'.Inv := by
  cases hs with
  | @list op ch _ ht ho hstep =>
    have hph := listPhase_ends (h.sane t) (h.ctx t) ho
    unfold afterList at hstep
    rcases hr : listPhase ch op (s.sys.ctx t) with ⟨⟨ret, xs⟩, c⟩ | ⟨e, c⟩ <;> rw [hr] at hstep
    · obtain rfl := Option.some.inj hstep
      exact h.phase (hph.ok hr)
    · cases e with
      | txAbort =>
        obtain rfl := Option.some.inj hstep
        have hinv := h.phase (hph.error hr)
        unfold listed at hinv
        rwa [← ht, Function.update_eq_self] at hinv
      | _ => simp at hstep
  | @index ch _ hstep =>
    unfold afterIndex at hstep
    rcases ht : s.todo t with _ | ⟨x, xs⟩ <;> rw [ht] at hstep
    · simp at hstep
    simp only at hstep
    rcases hr : x.run ch (s.sys.ctx t) with ⟨r, c⟩ | ⟨e, c⟩ <;> rw [hr] at hstep
    · obtain rfl := Option.some.inj hstep
      obtain ⟨hadd, hremove⟩ := hG rfl xs
      cases x with
      | add l n => exact h.add ht (hadd l n ht) hr
      | remove l n => exact h.remove ht (hremove l n ht) hr
    · simp at hstep

theorem Reach.inv (hr : Reach minKey dflt InTurn s) : s.Inv := by
  induction hr with
  | init => exact inv_init _ _
  | step _ hG hs ih => exact ih.step hG hs

/-- Once a node's `add` and its `remove` have returned, its index does not hold it. -/
theorem Reach.forgets (hr : Reach minKey dflt InTurn s) : s.Forgets := by
  intro l n hadd hrem hholds
  have h := hr.inv
  obtain ⟨A, ⟨seq, z, -, hI⟩, hb⟩ := h.shared.index l
  obtain ⟨hm, -, -⟩ := h.returned l n hadd
  rcases Finset.mem_insert.1 (hI.mem_of_holds hholds) with rfl | hn
  · exact absurd (head_lt l) (Nat.not_lt.2 hm)
  · exact (hb n hn).2 (.inr ⟨hadd, hrem⟩)

/-! ## Runs by turns -/

instance (v : NodeView K) (ix : Index) (n : NodeId) : Decidable (ix.Keeps v n) :=
  decidable_of_iff (n ∈ ix.bottomLevel ∧ (v.live n = true ∨ ∃ r ∈ ix.bottomLevel,
      [r, n].Sublist ix.bottomLevel ∧ v.live r = true ∧ v.key r = v.key n)) <|
    and_congr_right fun _ => or_congr_right ⟨fun h => h.imp fun _ hr => hr.2, fun h => h.imp fun _ hr =>
      ⟨hr.1.subset List.mem_cons_self, hr⟩⟩

/-- The thread's next index call is in turn. -/
def inTurn (s : Phased K V m) (t : ThreadId) : Bool :=
  match s.todo t with
  | [] => true
  | .add l n :: _ => decide (.remove l n ∉ s.returned)
  | .remove l n :: _ => decide (¬ (s.sys.shared.index l).Keeps s.sys.shared.view n)

theorem inTurn_spec (h : s.inTurn t = true) : InTurn s t o := by
  intro _ xs
  unfold inTurn at h
  constructor <;> intro l n ht <;> rw [ht] at h <;> exact of_decide_eq_true h

/-- Make the list phases and the index calls in turn, as long as `g` allows them. -/
def play (g : Phased K V m → ThreadId → Bool) :
    Phased K V m → List (ThreadId × Option (Op K V m)) → Option (Phased K V m)
  | s, [] => some s
  | s, (t, some op) :: moves =>
    if s.todo t = [] ∧ op.isWhole = true then
      (s.afterList t op { fuel := 9 }).bind fun s' => s'.play g moves
    else none
  | s, (t, none) :: moves =>
    if g s t then (s.afterIndex t { fuel := 9 }).bind fun s' => s'.play g moves else none

theorem Reach.play {G : Guard K V m} {g : Phased K V m → ThreadId → Bool}
    (hlist : ∀ s t op, G s t (some op)) (hindex : ∀ s t, g s t = true → G s t none) :
    ∀ {moves : List (ThreadId × Option (Op K V m))} {s s' : Phased K V m}, Reach minKey dflt G s →
      s.play g moves = some s' → Reach minKey dflt G s'
  | [], s, s', hr, h => by
    obtain rfl : s = s' := by simpa [Phased.play] using h
    exact hr
  | (t, some op) :: moves, s, s', hr, h => by
    rw [Phased.play, Option.ite_none_right_eq_some] at h
    obtain ⟨⟨ht, hop⟩, h⟩ := h
    obtain ⟨s₁, hs, h⟩ := Option.bind_eq_some_iff.1 h
    have hno : op ≠ .txEnd := by
      rintro rfl
      simp [Op.isWhole] at hop
    exact Reach.play hlist hindex (hr.step (hlist s t op) (.list ht (fun he => absurd he hno) hs)) h
  | (t, none) :: moves, s, s', hr, h => by
    rw [Phased.play, Option.ite_none_right_eq_some] at h
    obtain ⟨hg, h⟩ := h
    obtain ⟨s₁, hs, h⟩ := Option.bind_eq_some_iff.1 h
    exact Reach.play hlist hindex (hr.step (hindex s t hg) (.index hs)) h

end Runs

/-- Two threads insert and remove a node each, and the index calls come late but in turn. -/
theorem forgets_two : ∃ s : Phased Nat Nat 1, s.returned = [.remove 0 2, .remove 0 1, .add 0 1, .add 0 2] ∧
    s.Forgets := by
  have h : ((init 0 0 : Phased Nat Nat 1).play inTurn [(0, some (.put 0 5 3)), (1, some (.put 0 7 4)),
      (1, none), (0, none), (1, some (.remove 0 5)), (0, some (.remove 0 7)), (1, none), (0, none)]).any
        (fun s : Phased Nat Nat 1 => decide (s.returned = [.remove 0 2, .remove 0 1, .add 0 1, .add 0 2]))
        = true := by
    decide +kernel
  obtain ⟨s, hs, hdec⟩ := Option.any_eq_true _ _ |>.1 h
  have hr : Reach 0 0 InTurn s :=
    Reach.init.play (fun _ _ _ he => by simp at he) (fun _ _ hg => inTurn_spec hg) hs
  exact ⟨s, of_decide_eq_true hdec, hr.forgets⟩

/-- A `remove` overtakes the insertion's `add`, which then puts the dead node into the index. -/
theorem late_add : ∃ s : Phased Nat Nat 1, Reach 0 0 (fun _ _ _ => True) s ∧
    .add 0 1 ∈ s.returned ∧ .remove 0 1 ∈ s.returned ∧ (s.sys.shared.mem 1).val = none ∧
    (s.sys.shared.mem 1).isDeleted = true ∧ 1 ∉ s.sys.shared.chain 0 ∧ (s.sys.shared.index 0).Holds 1 := by
  have h : ((init 0 0 : Phased Nat Nat 1).play (fun _ _ => true) [(0, some (.put 0 5 3)),
      (1, some (.remove 0 5)), (1, none), (0, none)]).any
        (fun s : Phased Nat Nat 1 => decide (s.returned = [.add 0 1, .remove 0 1] ∧
          (s.sys.shared.mem 1).val = none ∧ (s.sys.shared.mem 1).isDeleted = true ∧
          1 ∉ s.sys.shared.chain 0 ∧ ((s.sys.shared.index 0).nodes (s.sys.shared.index 0).headTop).right =
            some 1 ∧ ((s.sys.shared.index 0).nodes 1).node = 1)) = true := by
    decide +kernel
  obtain ⟨s, hs, hdec⟩ := Option.any_eq_true _ _ |>.1 h
  obtain ⟨hret, hval, hdel, hchain, hright, hnode⟩ := of_decide_eq_true hdec
  have hr : Reach 0 0 (fun _ _ _ => True) s :=
    Reach.init.play (fun _ _ _ => trivial) (fun _ _ _ => trivial) hs
  exact ⟨s, hr, by simp [hret], by simp [hret], hval, hdel, hchain, 1, .right (.head .top) hright, hnode⟩

end Phased

end TxList
