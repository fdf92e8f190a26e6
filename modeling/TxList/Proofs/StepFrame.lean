import TxList.Proofs.TXend

/-!
# What every step keeps

The frame of whole calls, and of a step of a run: the other threads' state stays, and a thread's
read set only grows between its `TXbegin` and the call that ends its transaction.
-/

namespace TxList

open Prog

variable {K V : Type} {m : Nat}

section TXend

variable {c₀ c : Ctx K V m}

/-- The marks an aborting `TXend` may clear: one of its own written nodes with its read version. -/
def Clears (c : Ctx K V m) (n : NodeId) (rv : Nat) : Prop :=
  n ∈ c.storage.readSet ∧ n ∈ c.storage.writeSet ∧ c.transaction.TX = true ∧
    rv = c.transaction.readVersion ∧ (c.shared.mem n).word.version = rv

theorem commit_onward (h : Sane c) : Onward c { c with
    shared := c.shared.commit c.storage.writeSet
    transaction := { c.transaction with writeVersion := c.shared.gvc + 1 } } := by
  have hkey : ∀ n, ((c.shared.commit c.storage.writeSet).mem n).key = (c.shared.mem n).key := by
    intro n
    simp only [Shared.commit]
    split
    · simp only [LNode.writeBack]
      split_ifs <;> rfl
    · rfl
  have hlock : ∀ n, ((c.shared.commit c.storage.writeSet).mem n).isLocked
      = (c.shared.mem n).isLocked := by
    intro n
    simp only [Shared.commit]
    split
    · simp only [LNode.writeBack]
      split_ifs <;> rfl
    · rfl
  have hver : ∀ n ∈ c.storage.writeSet,
      ((c.shared.commit c.storage.writeSet).mem n).word.version = c.shared.gvc + 1 := by
    intro n hn
    obtain ⟨we, hwe⟩ := Option.isSome_iff_exists.1 (AList.lookup_isSome.2 hn)
    rw [Shared.commit_mem _ hwe]
    rfl
  refine ⟨⟨h.heads, fun n y hy => ?_, h.index, fun n => ?_, fun n => ?_, ?_, h.readSet,
    h.write_read, h.write_next, h.indexAdd⟩, ⟨Nat.le_succ _, le_rfl, fun n _ => hkey n,
    fun n _ => ?_, fun n _ rv hrv _ hm => ?_⟩, fun _ h => h, rfl, id⟩
  · by_cases hn : n ∈ c.storage.writeSet
    · obtain ⟨we, hwe⟩ := Option.isSome_iff_exists.1 (AList.lookup_isSome.2 hn)
      rw [Shared.commit_mem _ hwe] at hy
      refine h.write_next n we y hwe ?_
      simp only [LNode.writeBack] at hy
      split_ifs at hy <;> exact hy
    · rw [Shared.commit_mem_of_notMem _ hn] at hy
      exact h.next n y hy
  · by_cases hn : n ∈ c.storage.writeSet
    · exact (hver n hn).le
    · simp only [Shared.commit_mem_of_notMem _ hn]
      exact (h.version n).trans (Nat.le_succ _)
  · simp only [hlock]
    exact h.unlocked n
  · exact h.readVersion.trans (Nat.le_succ _)
  · by_cases hn : n ∈ c.storage.writeSet
    · rw [hver n hn]
      exact (h.version n).trans (Nat.le_succ _)
    · rw [Shared.commit_mem_of_notMem _ hn]
  · by_cases hn : n ∈ c.storage.writeSet
    · refine .inl ?_
      simp only [hver n hn]
      omega
    · simp only [Shared.commit_mem_of_notMem _ hn]
      exact hm

theorem Sane.cleaned (h : Sane c) : Sane c.cleaned :=
  ⟨h.heads, h.next, h.index, h.version, h.unlocked, h.readVersion,
    fun n hn => by simp [Ctx.cleaned] at hn, fun n hn => absurd hn (AList.notMem_empty n),
    fun n we y hn => by simp [Ctx.cleaned] at hn, fun l n hn => by simp [Ctx.cleaned] at hn⟩

theorem Sane.clearMark (h : Sane c) (n : NodeId) :
    Sane { c with shared := c.shared.clearMark n } := by
  have hmem : ∀ k, (c.shared.clearMark n).mem k = c.shared.mem k ∨
      (c.shared.clearMark n).mem k = (c.shared.mem k).setSingleton false := by
    intro k
    by_cases hk : k = n
    · subst hk
      exact .inr (by simp [Shared.clearMark])
    · exact .inl (by simp [Shared.clearMark, hk])
  refine ⟨h.heads, fun k y hy => ?_, h.index, fun k => ?_, fun k => ?_, ?_, h.readSet, h.write_read,
    h.write_next, h.indexAdd⟩
  · refine h.next k y ?_
    rcases hmem k with hk | hk <;> simpa only [hk, LNode.setSingleton] using hy
  · refine le_trans ?_ (Nat.le_succ_of_le (h.version k))
    rcases hmem k with hk | hk <;> simp only [hk, LNode.setSingleton] <;> exact le_rfl
  · rcases hmem k with hk | hk <;> simp only [hk] <;> exact h.unlocked k
  · exact h.readVersion.trans (Nat.le_succ _)

theorem grows_clearMark {s : Shared K V m} {X : NodeId → Nat → Prop} {n : NodeId}
    (hX : ∀ rv, (s.mem n).word.version = rv → X n rv) : Grows X s (s.clearMark n) := by
  refine ⟨Nat.le_succ _, le_rfl, fun k _ => ?_, fun k _ => ?_, fun k _ rv _ hx hm => ?_⟩
  · by_cases hk : k = n
    · subst hk
      simp [Shared.clearMark, LNode.setSingleton]
    · simp [Shared.clearMark, hk]
  · by_cases hk : k = n
    · subst hk
      simp [Shared.clearMark, LNode.setSingleton]
    · simp [Shared.clearMark, hk]
  · by_cases hk : k = n
    · subst hk
      rcases hm with hm | hm
      · exact .inl (by simpa [Shared.clearMark, LNode.setSingleton] using hm)
      · exact absurd (hX rv hm.1) hx
    · simpa [Shared.clearMark, hk] using hm

theorem Grows.weaken {s s' : Shared K V m} {X : NodeId → Nat → Prop}
    (h : Grows (fun _ _ => False) s s') : Grows X s s' :=
  ⟨h.gvc, h.fresh, h.key, h.version, fun n hn rv hrv _ hm => h.marked n hn rv hrv id hm⟩

variable [LinearOrder K]

theorem addToIndex_onward {fuel : Nat} {level : NodeId → Nat} {l : ListId m} :
    ∀ (ns : List NodeId) {c : Ctx K V m}, Onward c₀ c → (∀ n ∈ ns, n < c.shared.fresh) →
      Ends (addToIndex fuel level l ns) c (fun _ c' => Onward c₀ c' ∧ c.Reindexed c')
        (OnAbort fun _ => False)
  | [], c, h, _ => by simpa [addToIndex] using ⟨h, Ctx.Reindexed.refl c⟩
  | n :: ns, c, h, hn => by
    simp only [addToIndex, Ends_bind]
    refine (onIndex_add_onward h l (hn n (by simp))).mono (fun _ c₁ h₁ => ?_) fun _ _ he => he
    refine (addToIndex_onward ns h₁.1 fun k hk => ?_).mono
      (fun _ c₂ h₂ => ⟨h₂.1, h₁.2.trans h₂.2⟩) fun _ _ he => he
    rw [h₁.2.fresh]
    exact hn k (by simp [hk])

theorem removeFromIndex_onward {fuel : Nat} {l : ListId m} :
    ∀ (ns : List NodeId) {c : Ctx K V m}, Onward c₀ c →
      Ends (removeFromIndex fuel l ns) c (fun _ c' => Onward c₀ c') (OnAbort fun _ => False)
  | [], c, h => by simpa [removeFromIndex] using h
  | n :: ns, c, h => by
    simp only [removeFromIndex, Ends_bind, Ends_retire_node]
    refine (onIndex_remove_onward h l n).mono (fun _ c₁ h₁ => ?_) fun _ _ he => he
    exact removeFromIndex_onward ns (h₁.1.retire _)

theorem updateIndex_onward {ch : Choice} (h : Onward c₀ c) :
    Ends (updateIndex ch) c (fun _ c' => Onward c₀ c') (OnAbort fun _ => False) := by
  have hadd : ∀ (ls : List (ListId m)) {c' : Ctx K V m}, Onward c₀ c' → c.Reindexed c' →
      Ends (forLists (fun l => addToIndex ch.fuel ch.level l (c.storage.indexAdd l)) ls) c'
        (fun _ c'' => Onward c₀ c'' ∧ c.Reindexed c'') (OnAbort fun _ => False) := by
    intro ls
    induction ls with
    | nil => intro c' h' hr; simpa [forLists] using ⟨h', hr⟩
    | cons l ls ih =>
      intro c' h' hr
      simp only [forLists, Ends_bind]
      refine (addToIndex_onward _ h' fun n hn => ?_).mono (fun _ c₁ h₁ => ih h₁.1 (hr.trans h₁.2))
        fun _ _ he => he
      rw [hr.fresh]
      exact h.sane.indexAdd l n hn
  have hrem : ∀ (ls : List (ListId m)) {c' : Ctx K V m}, Onward c₀ c' →
      Ends (forLists (fun l => removeFromIndex ch.fuel l (c.storage.indexRemove l)) ls) c'
        (fun _ c'' => Onward c₀ c'') (OnAbort fun _ => False) := by
    intro ls
    induction ls with
    | nil => intro c' h'; simpa [forLists] using h'
    | cons l ls ih =>
      intro c' h'
      simp only [forLists, Ends_bind]
      exact (removeFromIndex_onward _ h').mono (fun _ c₁ h₁ => ih h₁) fun _ _ he => he
  simp only [updateIndex, Ends_bind, Ends_get]
  exact (hadd _ h (.refl c)).mono (fun _ c₁ h₁ => hrem _ h₁.1) fun _ _ he => he

end TXend

section Call

/-- What a call of `op` keeps, but for the marks in `X`. -/
structure Framed (op : Op K V m) (X : NodeId → Nat → Prop) (c c' : Ctx K V m) : Prop where
  sane : Sane c'
  grows : Grows X c.shared c'.shared
  access : op.isAccess = true → c.storage.readSet ⊆ c'.storage.readSet ∧
    c'.transaction.readVersion = c.transaction.readVersion ∧
    (c'.transaction.TX = true → c.transaction.TX = true)

theorem Onward.framed {c c' : Ctx K V m} {op : Op K V m} {X : NodeId → Nat → Prop}
    (h : Onward c c') : Framed op X c c' :=
  ⟨h.sane, h.grows.weaken, fun _ => ⟨h.readSet, h.readVersion, h.open_of_open⟩⟩

/-- What the end of a transaction keeps of what came before it. -/
theorem Framed.cleaned {c c' : Ctx K V m} {op : Op K V m} {X : NodeId → Nat → Prop}
    (hop : op.isAccess = false) (hs : Sane c') (hg : Grows X c.shared c'.shared) :
    Framed op X c c'.cleaned :=
  ⟨hs.cleaned, hg, fun h => by simp [hop] at h⟩

variable {c : Ctx K V m}

/-- The nodes to add to the indexes, list by list. -/
def LocalStorage.toAdd (s : LocalStorage V m) : List NodeId := (List.finRange m).flatMap s.indexAdd

/-- `handle_abort` retires the nodes that were to be added and empties the storage. -/
theorem handle_abort_retires {Q : Unit → Ctx K V m → Prop} {E : Err → Ctx K V m → Prop}
    (h : Q () ({ c with shared := { c.shared with
      retired := c.storage.toAdd.reverse ++ c.shared.retired } } : Ctx K V m).cleaned) :
    Ends handle_abort c Q E := by
  have hretire : ∀ (ns : List NodeId) {c' : Ctx K V m} {Q' : Unit → Ctx K V m → Prop},
      Q' () { c' with shared := { c'.shared with retired := ns.reverse ++ c'.shared.retired } } →
      Ends (retireAll ns) c' Q' E := by
    intro ns
    induction ns with
    | nil => intro c' Q' h'; exact h'
    | cons n ns ih =>
      intro c' Q' h'
      simp only [retireAll, Ends_bind, Ends_retire_node]
      refine ih ?_
      simpa only [List.reverse_cons, List.append_assoc, List.singleton_append] using h'
  have hall : ∀ (ls : List (ListId m)) {c' : Ctx K V m} {Q' : Unit → Ctx K V m → Prop},
      Q' () { c' with shared := { c'.shared with
        retired := (ls.flatMap c.storage.indexAdd).reverse ++ c'.shared.retired } } →
      Ends (forLists (fun l => retireAll (c.storage.indexAdd l)) ls) c' Q' E := by
    intro ls
    induction ls with
    | nil => intro c' Q' h'; exact h'
    | cons l ls ih =>
      intro c' Q' h'
      simp only [forLists, Ends_bind]
      refine hretire _ (ih ?_)
      simpa only [List.flatMap_cons, List.reverse_append, List.append_assoc] using h'
  simp only [handle_abort, Ends_bind, Ends_get]
  refine hall _ ?_
  simp only [cleanup, Ends_bind, Ends_modifyStorage, Ends_modifyTransaction]
  exact h

theorem handle_abort_ends {Q : Unit → Ctx K V m → Prop} {E : Err → Ctx K V m → Prop}
    (h : ∀ r, Q () ({ c with shared := { c.shared with retired := r } } : Ctx K V m).cleaned) :
    Ends handle_abort c Q E := handle_abort_retires (h _)

/-- The list operations, whether they run in a transaction or as singletons. -/
theorem access_ends {α : Type} {Q : α → Ctx K V m → Prop} {E : Err → Ctx K V m → Prop}
    {x y : Call K V m α} (hx : c.transaction.TX = true → Ends x c Q E)
    (hy : c.transaction.TX = false → Ends y c Q E) :
    Ends (do if (← get).transaction.TX then x else y) c Q E := by
  simp only [Ends_bind, Ends_get, Ends_ite, Bool.not_eq_true]
  exact ⟨hx, hy⟩

variable [LinearOrder K] {ch : Choice}

theorem call_framed (op : Op K V m) (h : Sane c) (ho : op = .txEnd → ch.Orders c.storage) :
    Ends (call ch op) c
      (fun _ c' => Framed op (fun _ _ => False) c c' ∧ (op = .txEnd → c.transaction.TX = true ∧
        ∀ n ∈ c.storage.readSet, ¬ Marked (c.shared.mem n) c.transaction.readVersion))
      (OnAbort fun c' =>
        Framed op (fun n rv => op = .txEnd ∧ Clears c n rv) c c') := by
  have hstart : Searching c c c := ⟨.refl h, .refl c⟩
  have hacc : ∀ {α : Type} {op : Op K V m} {x : Call K V m α}, op ≠ .txEnd →
      Ends x c (fun _ => Onward c) (OnAbort (Onward c)) → Ends x c
        (fun _ c' => Framed op (fun _ _ => False) c c' ∧ (op = .txEnd → c.transaction.TX = true ∧
          ∀ n ∈ c.storage.readSet, ¬ Marked (c.shared.mem n) c.transaction.readVersion))
        (OnAbort fun c' =>
          Framed op (fun n rv => op = .txEnd ∧ Clears c n rv) c c') := by
    intro α op x hne hx
    refine hx.mono (fun _ c' h' => ⟨h'.framed, fun he => absurd he hne⟩) fun e c' h' => ?_
    rcases e with _ | _ | _ | _
    · exact Onward.framed h'
    all_goals trivial
  cases op with
  | txBegin =>
    simp only [call, TXbegin, Ends_bind, Ends_getVersion, Ends_modifyTransaction, Ends_pure]
    refine ⟨⟨⟨h.heads, h.next, h.index, h.version, h.unlocked, le_rfl, h.readSet, h.write_read,
      h.write_next, h.indexAdd⟩, .refl _, fun he => by simp [Op.isAccess] at he⟩,
      fun he => by simp at he⟩
  | put l key val =>
    simp only [call, Ends_bind, Ends_pure]
    refine hacc (by simp) (access_ends (fun _ => (Onward.stable c).putTX (.refl h) val) fun _ => ?_)
    exact (putSingletonLoop_single ch.fuel hstart).mono (fun _ _ h' => h'.onward)
      fun _ _ he => he.mono False.elim
  | remove l key =>
    simp only [call, Ends_bind, Ends_pure]
    refine hacc (by simp) (access_ends (fun _ => (Onward.stable c).removeTX (.refl h)) fun _ => ?_)
    exact (removeSingletonLoop_single ch.fuel hstart).mono (fun _ _ h' => h'.1.onward)
      fun _ _ he => he.mono False.elim
  | get l key =>
    simp only [call, Ends_bind, Ends_pure]
    refine hacc (by simp) (access_ends (fun _ => (Onward.stable c).getTX (.refl h)) fun _ => ?_)
    exact (getSingleton_single hstart).mono (fun _ _ h' => h'.onward)
      fun _ _ he => he.mono False.elim
  | containsKey l key =>
    simp only [call, containsKey, Ends_bind, Ends_pure]
    refine hacc (by simp) (access_ends (fun _ => (Onward.stable c).getTX (.refl h)) fun _ => ?_)
    exact (getSingleton_single hstart).mono (fun _ _ h' => h'.onward)
      fun _ _ he => he.mono False.elim
  | txEnd =>
    simp only [call, Ends_bind, Ends_pure]
    refine TXend_ends (ho rfl) (fun hT hm _ => ?_) (fun hT hm _ => ?_) (fun _ => ?_)
      (fun n hr hw hT hv _ => ?_) (fun _ _ _ _ _ _ _ => trivial) fun _ _ => trivial
    · exact (updateIndex_onward (commit_onward h)).mono
        (fun _ c' h' => ⟨.cleaned rfl h'.sane h'.grows, fun _ => ⟨hT, hm⟩⟩)
        fun _ _ he => he.mono False.elim
    · exact ⟨.cleaned rfl h (.refl _), fun _ => ⟨hT, hm⟩⟩
    · exact .cleaned rfl h (.refl _)
    · exact .cleaned rfl (h.clearMark n)
        (grows_clearMark fun rv he => ⟨trivial, hr, hw, hT, he.symm.trans hv, he⟩)
  | handleAbort =>
    simp only [call, Ends_bind, Ends_pure]
    refine handle_abort_ends fun r => ⟨?_, fun he => by simp at he⟩
    exact .cleaned rfl ((Onward.refl h).retire r).sane ((Onward.refl h).retire r).grows

end Call

/-! ## Steps -/

section Step

/-- Every thread's state is sane. -/
def Sys.Sane (σ : Sys K V m) : Prop := ∀ t, TxList.Sane (σ.ctx t)

theorem Sys.sane_init (minKey : K) (dflt : V) : (Sys.init minKey dflt : Sys K V m).Sane := by
  intro t
  refine ⟨le_rfl, fun n y hy => by simp [Sys.ctx, Sys.init] at hy, fun l i => l.isLt,
    fun n => le_rfl, fun n => rfl, le_rfl, fun n hn => by simp [Sys.ctx, Sys.init] at hn,
    fun n hn => absurd hn (AList.notMem_empty n), fun n we y hn => by simp [Sys.ctx, Sys.init] at hn,
    fun l n hn => by simp [Sys.ctx, Sys.init] at hn⟩

/-- The other threads' state is sane as before when the shared memory moves on. -/
theorem Sane.of_grows {c : Ctx K V m} {s : Shared K V m} {X : NodeId → Nat → Prop} (h : TxList.Sane c)
    {c' : Ctx K V m} (h' : TxList.Sane c') (hs : c'.shared = s) (hg : Grows X c.shared s) :
    TxList.Sane { c with shared := s } := by
  subst hs
  exact ⟨h'.heads, h'.next, h'.index, h'.version, h'.unlocked, h.readVersion.trans hg.gvc,
    fun n hn => (h.readSet n hn).trans_le hg.fresh, h.write_read,
    fun n we y hn hy => (h.write_next n we y hn hy).trans_le hg.fresh,
    fun l n hn => (h.indexAdd l n hn).trans_le hg.fresh⟩

@[simp] theorem Sys.ctx_put_self (σ : Sys K V m) (t : ThreadId) (c : Ctx K V m) :
    (σ.put t c).ctx t = c := by
  simp [Sys.ctx]

theorem Sys.ctx_put_ne (σ : Sys K V m) {t u : ThreadId} (c : Ctx K V m) (h : u ≠ t) :
    (σ.put t c).ctx u = { σ.ctx u with shared := c.shared } := by
  simp [Sys.ctx, Sys.put_threads_ne σ c h]

/-- The frame of a step of thread `t`. -/
structure StepFramed (σ σ' : Sys K V m) (t : ThreadId) (op : Op K V m) (ret : Ret V) : Prop where
  sane : σ'.Sane
  threads : ∀ u, u ≠ t → σ'.threads u = σ.threads u
  framed : Framed op (fun n rv => ret = .aborted ∧ op = .txEnd ∧
    Clears (σ.ctx t) n rv) (σ.ctx t) (σ'.ctx t)
  valid : op = .txEnd → ret ≠ .aborted → (σ.threads t).transaction.TX = true ∧
    ∀ n ∈ (σ.threads t).storage.readSet,
      ¬ Marked (σ.shared.mem n) (σ.threads t).transaction.readVersion

/-- The frame of the thread's own state is the frame of the step. -/
theorem Framed.step {σ : Sys K V m} {t : ThreadId} {op : Op K V m} {ret : Ret V} {c : Ctx K V m}
    (hf : Framed op (fun n rv => ret = .aborted ∧ op = .txEnd ∧ Clears (σ.ctx t) n rv) (σ.ctx t) c)
    (h : σ.Sane) (hv : op = .txEnd → ret ≠ .aborted → (σ.threads t).transaction.TX = true ∧
      ∀ n ∈ (σ.threads t).storage.readSet,
        ¬ Marked (σ.shared.mem n) (σ.threads t).transaction.readVersion) :
    StepFramed σ (σ.put t c) t op ret := by
  refine ⟨fun u => ?_, fun u hu => Sys.put_threads_ne σ c hu, by rw [Sys.ctx_put_self]; exact hf, hv⟩
  by_cases hu : u = t
  · subst hu
    rw [Sys.ctx_put_self]
    exact hf.sane
  · rw [Sys.ctx_put_ne σ c hu]
    exact (h u).of_grows hf.sane rfl hf.grows

theorem Sys.step_framed [LinearOrder K] {σ σ' : Sys K V m} {t : ThreadId} {op : Op K V m}
    {ch : Choice} {ret : Ret V} (h : σ.Sane) (ho : op = .txEnd → ch.Orders (σ.threads t).storage)
    (hs : σ.step t op ch = some (σ', ret)) : StepFramed σ σ' t op ret := by
  obtain ⟨c, rfl, hc⟩ := Sys.step_of_ends (call_framed op (h t) ho) hs
  have hfr : Framed op (fun n rv => ret = .aborted ∧ op = .txEnd ∧
      Clears (σ.ctx t) n rv) (σ.ctx t) c := by
    rcases hc with ⟨hc, -⟩ | ⟨hr, hc⟩
    · exact ⟨hc.sane, hc.grows.weaken, hc.access⟩
    · exact ⟨hc.sane, ⟨hc.grows.gvc, hc.grows.fresh, hc.grows.key, hc.grows.version, fun n hn rv hrv hX =>
        hc.grows.marked n hn rv hrv fun hX' => hX ⟨hr, hX'⟩⟩, hc.access⟩
  refine hfr.step h fun hop hret => ?_
  rcases hc with ⟨-, hc⟩ | ⟨hr, -⟩
  · exact hc hop
  · exact absurd hr hret

end Step

end TxList
