import TxList.Proofs.Accounts
import TxList.Proofs.Scripts

/-!
# What a singleton has put stays

A singleton's insertion changes the pointer of the node before the new one and leaves that node's
version word alone. A transaction that is to write to that node does not notice, and its commit
puts back a pointer that leads past the new node. In safe runs this cannot happen, and what a
singleton has inserted stays until someone updates the key.
-/

namespace TxList

open Prog Chain

variable {K V : Type} {m : Nat} [LinearOrder K]

section Acts

variable {S : ListId m → Finset NodeId} {c c' : Ctx K V m} {op : Op K V m} {ret : Ret V}
  {l : ListId m} {key : K}

/-- A change of the nodes with another key leaves the key's value. -/
theorem Mutates.lookup_eq_of {s s' : Shared K V m} {D F : ListId m → Finset NodeId} {W : Set NodeId}
    (hL : Lists s S) (hM : Mutates s s' S D F W) (hD : ∀ n ∈ D l, s.rank n ≠ key)
    (hF : ∀ n ∈ F l, s'.rank n ≠ key)
    (hv : ∀ n ∈ S l, s.rank n = key → (s'.mem n).val = (s.mem n).val) :
    s'.lookup l key = s.lookup l key := by
  refine hM.lists.lookup_eq ((hL.reads_lookup l key).congr (fun n => ?_) hv)
  rw [mem_patched]
  constructor
  · rintro ⟨⟨hn, -⟩ | hn, hk⟩
    · exact ⟨hn, (hM.rank (hL.bound l n hn).2).symm.trans hk⟩
    · exact absurd hk (hF n hn)
  · rintro ⟨hn, hk⟩
    exact ⟨.inl ⟨hn, fun hd => hD n hd hk⟩, (hM.rank (hL.bound l n hn).2).trans hk⟩

/-- A call that does not update the key leaves its value. -/
theorem Act.lookup_of_leaves {C C' : Conf K V m} {t : ThreadId}
    (h : Act S (C.sys.ctx t) op ret c') (hst : C.Step t op ret C') (hI : Inv C S)
    (hG : LeavesKey l key C t op) :
    c'.shared.lookup l key = C.sys.shared.lookup l key := by
  have hL : Lists (C.sys.ctx t).shared S := hI.lists
  have hs := hI.sane t
  have hquiet : Quiet C.sys.shared c'.shared →
      c'.shared.lookup l key = C.sys.shared.lookup l key := fun hq =>
    (hL.mutates_of_quiet hs.heads hq).lookup_eq_of hL (fun n hn => by simp at hn)
      (fun n hn => by simp at hn) fun n hn _ => by rw [hq.mem n (hL.bound l n hn).2]
  -- a singleton's update is of another key
  have hother : ∀ {l' : ListId m} {key' : K}, (C.inTX t = true ∨ l' ≠ l ∨ key' ≠ key) →
      C.inTX t = false → l' = l → (key : WithBot K) ≠ key' := by
    rintro l' key' (hT | hne) hF rfl he
    · rw [hT] at hF
      simp at hF
    · rcases hne with hne | hne
      · exact hne rfl
      · exact hne (WithBot.coe_inj.1 he).symm
  cases h with
  | opened => rfl
  | handled r => exact hquiet ⟨le_rfl, fun _ _ => rfl, fun _ => .inl rfl, rfl⟩
  | rejected => rfl
  | @cleared n _ _ =>
    have hM := hL.clearMark_mutates hs.heads n
    exact hM.lookup_eq_of hL (fun n hn => by simp at hn) (fun n hn => by simp at hn)
      fun k hk _ => (hM.same k (hL.bound l k hk).2 (by simp)).2.1
  | finished => rfl
  | committed hl _ hu hM =>
    have hU := (hI.viewed t hl).untouched l key (hG C' hst)
    refine hM.lookup_eq_of hL (fun n hn hk => ?_) (fun n hn hk => ?_) fun n hn hk => ?_
    · obtain ⟨hn, hd⟩ := LocalStorage.mem_gone.1 hn
      rw [(hU.kept n hn hk).1] at hd
      simp at hd
    · have hn := (LocalStorage.mem_added.1 hn).1
      exact hU.added n hn ((hM.rank ((hI.viewed t hl).overlay.new l n hn).2.1).symm.trans hk)
    · rw [Ctx.cleaned, hu.mem, Ctx.written, commit_val, (hU.kept n hn hk).1]
      exact (hU.kept n hn hk).2
  | thrown _ _ ht => exact hquiet ht.quiet
  | strayed _ _ _ hq => exact hquiet hq.quiet
  | overwrote => rfl
  | inserted _ _ _ hx => exact hquiet (.alloc _ (by rw [hx]))
  | unlinked => rfl
  | missed => rfl
  | read => rfl
  | contained => rfl
  | @stamped l' key' val y hF hy hk =>
    refine (hL.stampValue_mutates hs.heads hy val).lookup_eq_of hL (fun n hn => by simp at hn)
      (fun n hn => by simp at hn) fun n hn hnk => ?_
    have hne : n ≠ y := by
      rintro rfl
      exact hother hG hF (hL.unique_list (Finset.mem_insert_of_mem hy) (Finset.mem_insert_of_mem hn))
        (hnk.symm.trans hk)
    simp [Shared.stampValue, hne, Sys.ctx]
  | @linked l' key' val p s' hF hp habs hmem hM =>
    have hpf := hL.lt_fresh hs.heads hp.1
    refine hM.lookup_eq_of hL (fun n hn => by simp at hn) (fun n hn hk => ?_) fun n hn hk => ?_
    · obtain ⟨hl, hn'⟩ := mem_only.1 hn
      refine hother hG hF hl.symm (hk.symm.trans ?_)
      rw [Finset.mem_singleton.1 hn', Shared.rank_of_le _ hs.heads]
      simp [hmem, Shared.insertStamped, Function.update_of_ne (show _ ≠ p from hpf.ne')]
    · show (s'.mem n).val = (C.sys.shared.mem n).val
      have hnf : n ≠ C.sys.shared.fresh := (hL.bound l n hn).2.ne
      rw [hmem]
      by_cases hnp : n = p
      · subst hnp
        simp [Shared.insertStamped, Sys.ctx]
      · simp [Shared.insertStamped, hnp, Sys.ctx, hnf]
  | @cut l' key' p x s' hF hp hx hk hmem hM =>
    have hne : p ≠ x := fun he => ((hL.threads l').lt_next hp hx).ne (by rw [he])
    have hxS := (hL.threads l').next_mem hp hx
    have hnx : ∀ n ∈ S l, C.sys.shared.rank n = key → n ≠ x := by
      rintro n hn hnk rfl
      exact hother hG hF (hL.unique_list (Finset.mem_insert_of_mem hxS)
        (Finset.mem_insert_of_mem hn)) (hnk.symm.trans hk)
    refine hM.lookup_eq_of hL (fun n hn hnk => ?_) (fun n hn => by simp at hn) fun n hn hnk => ?_
    · obtain ⟨hl, hn'⟩ := mem_only.1 hn
      obtain rfl := Finset.mem_singleton.1 hn'
      exact hnx n (hl ▸ hxS) hnk rfl
    · show (s'.mem n).val = _
      rw [hmem]
      by_cases hnp : n = p
      · subst hnp
        simp [Shared.unlinkStamped, hne, Sys.ctx]
      · simp [Shared.unlinkStamped, hnp, hnx n hn hnk, Sys.ctx]
  | absent => rfl
  | gotten => rfl
  | checked => rfl

/-- A singleton `put` has put the value. -/
theorem Act.lookup_put {val : V} (h : Act S c (.put l key val) ret c') (hL : Lists c.shared S)
    (hs : Sane c) (hF : c.transaction.TX = false) : c'.shared.lookup l key = some val := by
  have hno : ∀ {P : Prop}, c.transaction.TX = true → P := fun hT => by
    rw [hT] at hF
    simp at hF
  cases h with
  | thrown _ hT => exact hno hT
  | strayed _ hT => exact hno hT
  | overwrote hl => exact hno hl.1
  | inserted hl => exact hno hl.1
  | @stamped _ _ _ y _ hy hk =>
    have hM := hL.stampValue_mutates hs.heads hy val
    refine hM.lists.lookup_eq ⟨y, mem_patched.2 (.inl ⟨hy, by simp⟩), ?_, ?_⟩
    · rw [hM.rank (hL.bound l y hy).2]
      exact hk
    · simp [Shared.stampValue]
  | @linked _ _ _ p s' _ hp _ hmem hM =>
    have hpf : c.shared.fresh ≠ p := (hL.lt_fresh hs.heads hp.1).ne'
    refine hM.lists.lookup_eq ⟨c.shared.fresh, ?_, ?_, ?_⟩
    · exact mem_patched.2 (.inr (mem_only.2 ⟨rfl, Finset.mem_singleton_self _⟩))
    · rw [Shared.rank_of_le _ hs.heads, hmem]
      simp [Shared.insertStamped, hpf]
    · rw [hmem]
      simp [Shared.insertStamped, hpf]

end Acts

section Runs

variable {C C₀ C₁ C₂ : Conf K V m} {S : ListId m → Finset NodeId} {s t : ThreadId} {l : ListId m}
  {key : K} {val : V} {minKey : K} {dflt : V}

/-- A singleton `get` reads the list's map. -/
theorem Act.lookup_get {c c' : Ctx K V m} {ret : Ret V} (h : Act S c (.get l key) ret c')
    (hF : c.transaction.TX = false) : ret = .val (c.shared.lookup l key) := by
  have hno : ∀ {P : Prop}, c.transaction.TX = true → P := fun hT => by
    rw [hT] at hF
    simp at hF
  cases h with
  | thrown _ hT => exact hno hT
  | strayed _ hT => exact hno hT
  | read hl => exact hno hl.1
  | gotten => rfl

/-- `get` of a singleton returns what the list's map holds. -/
theorem Inv.gets (h : Inv C S) (hF : C.inTX t = false) (l : ListId m) (key : K) :
    C.Gets t l key (C.sys.shared.lookup l key) := by
  have hF : (C.sys.ctx t).transaction.TX = false := hF
  refine ⟨?_, fun hst => ?_⟩
  · obtain ⟨N, hN⟩ := Lists.not_starved (c := C.sys.ctx t) h.lists l key
    refine ⟨N, fun ch hch => ?_⟩
    have hends : Ends (call ch (.get l key)) (C.sys.ctx t)
        (fun ret _ => ret = .val (C.sys.shared.lookup l key)) fun _ _ => False := by
      simp only [call, getKey, Ends_bind, Ends_get, hF, Bool.false_eq_true, if_false]
      refine Lists.getSingleton_ends h.lists (h.sane t).unlocked ?_ fun hst => hN ch.fuel hch hst
      simp only [Ends_pure]
      rfl
    simp only [Sys.step]
    rcases hc : call ch (.get l key) (C.sys.ctx t) with ⟨r, c⟩ | ⟨e, c⟩
    · exact ⟨_, by rw [hends.ok hc]⟩
    · exact (hends.error hc).elim
  · obtain ⟨c', -, hact, -, -⟩ := h.step_act hst
    exact hact.lookup_get hF

/-- In safe runs, after a singleton has inserted a value, a singleton `get` returns it until the
key is updated. -/
theorem singleton_put_stays (hr : Conf.Reach minKey dflt Safe C₀) (hF : C₀.inTX s = false)
    (hG : Safe C₀ s (.put l key val)) (hst : C₀.Step s (.put l key val) (.val none) C₁)
    (hrun : C₁.Run (fun C t op => Safe C t op ∧ LeavesKey l key C t op) C₂)
    (hT : C₂.inTX t = false) : C₂.Gets t l key (some val) := by
  obtain ⟨S₀, h₀⟩ := Inv.of_reach hr
  have h₁ : ∃ S, Inv C₁ S ∧ C₁.sys.shared.lookup l key = some val := by
    obtain ⟨c', D, F, W, hc', hact, -, -, hInv⟩ := h₀.step hG hst
    refine ⟨_, hInv, ?_⟩
    rw [hc']
    exact hact.lookup_put h₀.lists (h₀.sane s) hF
  -- along the run the key keeps its value
  obtain ⟨S, h, hlook⟩ : ∃ S, Inv C₂ S ∧ C₂.sys.shared.lookup l key = some val := by
    refine hrun.keeps (J := fun C => ∃ S, Inv C S ∧ C.sys.shared.lookup l key = some val) h₁ ?_
    rintro C t op ret C' ⟨S, h, hlook⟩ ⟨hsafe, hleave⟩ hst
    obtain ⟨c', D, F, W, hc', hact, -, -, hInv⟩ := h.step hsafe hst
    refine ⟨_, hInv, ?_⟩
    rw [hc', ← hlook]
    exact hact.lookup_of_leaves hst h hleave
  rw [← hlook]
  exact h.gets hT l key

/-- A script's test that a step leaves the key alone. -/
def leavesKey [DecidableEq V] (l : ListId m) (key : K) (C : Conf K V m) (t : ThreadId)
    (op : Op K V m) : Bool :=
  match op with
  | .put l' key' _ | .remove l' key' => C.inTX t || l' != l || decide (key' ≠ key)
  | .txEnd => (C.hist.current t).all fun r => !decide (r.Updates l key)
  | .get _ _ | .containsKey _ _ | .txBegin | .handleAbort => true

theorem LeavesKey.of_leavesKey [DecidableEq V] {op : Op K V m}
    (h : leavesKey l key C t op = true) : LeavesKey l key C t op := by
  cases op with
  | put l' key' val => simpa [leavesKey, LeavesKey, or_assoc] using h
  | remove l' key' => simpa [leavesKey, LeavesKey, or_assoc] using h
  | txEnd =>
    intro C' _ r hr
    have := List.all_eq_true.1 h r hr
    simpa using this
  | _ => trivial

theorem singleton_put_stays_after_commit : ∃ C₀ C₁ C₂ : Conf Nat Nat 1,
    Conf.Reach 0 0 Safe C₀ ∧ C₀.Step 1 (.put 0 7 7) (.val none) C₁ ∧
    C₁.Run (fun C t op => Safe C t op ∧ LeavesKey 0 7 C t op) C₂ ∧
    C₂.sys.shared.lookup 0 5 = some 3 ∧ C₂.Gets 1 0 7 (some 7) := by
  obtain ⟨C₀, h₀, hI, hp⟩ := Conf.exists_reach (G := Safe) (B := 2) 0 0 []
    (fun C : Conf Nat Nat 1 => !C.inTX 1 && C.safeAlone 2 1 (.put 0 7 7) &&
      C.after 1 (.put 0 7 7) (.val none) fun C =>
        (C.script (fun C t op => C.safeAlone 2 t op && leavesKey 0 7 C t op) 2
          [(0, .txBegin), (0, .put 0 5 3), (0, .txEnd), (0, .txBegin), (0, .put 0 5 3),
            (0, .txEnd)]).any fun C : Conf Nat Nat 1 =>
          !C.inTX 1 && decide (C.sys.shared.lookup 0 5 = some 3))
    (fun _ _ _ hI => Safe.of_safeAlone hI) (by decide +kernel)
  rw [Bool.and_eq_true, Bool.and_eq_true, Bool.not_eq_true'] at hp
  obtain ⟨⟨hF, hsafe⟩, hp⟩ := hp
  obtain ⟨C₁, hst, hI₁, hp₁⟩ := Conf.exists_step hI (by decide) hp
  obtain ⟨C₂, hr, -, hp₂⟩ := Conf.exists_run (G := fun C t op => Safe C t op ∧ LeavesKey 0 7 C t op)
    hI₁ _ _ (fun C t op hI hg => by
      rw [Bool.and_eq_true] at hg
      exact ⟨Safe.of_safeAlone hI hg.1, LeavesKey.of_leavesKey hg.2⟩) hp₁
  rw [Bool.and_eq_true, Bool.not_eq_true', decide_eq_true_eq] at hp₂
  exact ⟨C₀, C₁, C₂, h₀, hst, hr, hp₂.2,
    singleton_put_stays h₀ hF (Safe.of_safeAlone hI hsafe) hst hr hp₂.1⟩

/-- A transaction is to write to the node a singleton inserts after; its commit loses the
insertion. -/
theorem singleton_put_lost : ¬ ∀ (C₀ C₁ C₂ : Conf Nat Nat 1) (s t : ThreadId) (key val : Nat),
    Conf.Reach 0 0 Conf.anyStep C₀ → C₀.inTX s = false →
    C₀.Step s (.put 0 key val) (.val none) C₁ → C₁.Run (LeavesKey 0 key) C₂ →
    C₂.inTX t = false → C₂.Gets t 0 key (some val) := by
  intro h
  obtain ⟨C₀, h₀, hI, hp⟩ := Conf.exists_reach_of_decidable (G := Conf.anyStep) 0 0 2
    [(0, .txBegin), (0, .put 0 5 3)]
    (fun C : Conf Nat Nat 1 => !C.inTX 1 && C.after 1 (.put 0 7 7) (.val none) fun C =>
      (C.script (leavesKey 0 7) 2 [(0, .txEnd)]).any fun C =>
        !C.inTX 1 && C.returns 1 (.get 0 7) (.val none)) (by decide +kernel)
  rw [Bool.and_eq_true, Bool.not_eq_true'] at hp
  obtain ⟨C₁, hst, hI₁, hp₁⟩ := Conf.exists_step hI (by decide) hp.2
  obtain ⟨C₂, hr, -, hp₂⟩ := Conf.exists_run hI₁ _ _
    (fun _ _ _ _ hg => LeavesKey.of_leavesKey hg) hp₁
  rw [Bool.and_eq_true, Bool.not_eq_true'] at hp₂
  obtain ⟨C₃, hget⟩ := Conf.step_of_returns hp₂.2
  have := (h C₀ C₁ C₂ 1 1 7 7 h₀ hp.1 hst hr hp₂.1).only hget
  simp at this

end Runs

end TxList
