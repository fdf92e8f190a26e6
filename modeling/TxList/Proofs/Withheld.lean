import TxList.Proofs.Regions
import TxList.Proofs.SoundStep

/-!
# Nodes that only their thread leads to

Until its transaction commits, a node that `put` has allocated is led to by its own thread alone: no
pointer in shared memory, in an index or in another thread's storage leads to it. So no other thread's
call touches it or retires it, and it is not on a list.
-/

namespace TxList

open Prog

variable {K V : Type} {m : Nat}

/-- All nodes but these, and all lists. -/
def Region.off (X : Set NodeId) : Region m where
  nodes := {n | n ∉ X}
  lists := Set.univ

/-- The nodes below a number, and all lists. -/
def Region.below (N : Nat) : Region m where
  nodes := {n | n < N}
  lists := Set.univ

/-- The nodes that the thread is to add to an index. -/
def Local.pending (x : Local V m) : Set NodeId := {n | ∃ l, n ∈ x.storage.indexAdd l}

/-- Only thread `t` leads to these nodes, if any does. -/
structure Sys.Hides (σ : Sys K V m) (t : ThreadId) (X : Set NodeId) : Prop where
  allocated : ∀ n ∈ X, n < σ.shared.fresh
  shared : (Region.off X).Closes σ.shared
  others : ∀ u, u ≠ t → (Region.off X).Holds (σ.threads u).storage

section Regions

variable {D : Region m} {s : Shared K V m} {ls : LocalStorage V m}

theorem Region.takes_of_univ (hD : D.lists = Set.univ) (op : Op K V m) : D.Takes op := by
  cases op <;> simp [Region.Takes, hD]

/-- A step of a thread whose storage has pointers into a region only. -/
theorem Sys.step_apart [LinearOrder K] {σ σ' : Sys K V m} {t : ThreadId} {op : Op K V m} {ch : Choice}
    {ret : Ret V} (hD : D.Closes σ.shared) (hH : D.Holds (σ.threads t).storage) (hop : D.Takes op)
    (hk : op.inserts = true → σ.shared.fresh ∈ D.nodes)
    (ho : op = .txEnd → ch.Orders (σ.threads t).storage) (hs : σ.step t op ch = some (σ', ret)) :
    D.Closes σ'.shared ∧ D.Holds (σ'.threads t).storage ∧ D.Spares σ.shared σ'.shared := by
  have hroom : ∀ i < (if op.inserts then 1 else 0), (σ.ctx t).shared.fresh + i ∈ D.nodes := by
    intro i hi
    rcases hins : op.inserts with _ | _
    · simp [hins] at hi
    · obtain rfl : i = 0 := by simpa [hins] using hi
      exact hk hins
  have h := (Apart.refl (W := False) (c := σ.ctx t) (P := D.Held) hD hroom hH).call hop (by
    intro hins
    simp [hins]) ho
  obtain ⟨c, rfl, hc⟩ := Sys.step_of_ends (h.ends.mono (fun _ _ hc => hc) fun e c hc => by
    rcases e with _ | _ | _ | _
    · exact hc
    all_goals trivial) hs
  have hc : Apart False D σ.shared σ.shared D.Held 0 c c := hc.elim id fun hc => hc.2
  refine ⟨hc.closes, ?_, hc.spares⟩
  rw [Sys.put_threads_self]
  exact hc.own

end Regions

/-! ## What an access in a transaction takes from the memory -/

/-- Only the indexes' links, the clock and the transaction's own state may differ. -/
structure Ctx.Looked (c c' : Ctx K V m) : Prop where
  shared : c'.shared = { c.shared with gvc := c'.shared.gvc, index := c'.shared.index }
  index : ∀ l, (c.shared.index l).SameNodes (c'.shared.index l)
  storage : c'.storage = c.storage

namespace Ctx.Looked

variable {c c' : Ctx K V m}

theorem refl (c : Ctx K V m) : c.Looked c := ⟨rfl, fun _ => .refl _, rfl⟩

theorem mem (h : c.Looked c') : c'.shared.mem = c.shared.mem := by rw [h.shared]

theorem fresh (h : c.Looked c') : c'.shared.fresh = c.shared.fresh := by rw [h.shared]

theorem retired (h : c.Looked c') : c'.shared.retired = c.shared.retired := by rw [h.shared]

theorem setIndex (h : c.Looked c') {l : ListId m} {ix : Index} (hix : (c'.shared.index l).SameNodes ix) :
    c.Looked { c' with
      shared := { c'.shared with index := Function.update c'.shared.index l ix } } := by
  refine ⟨by rw [h.shared], fun l' => ?_, h.storage⟩
  by_cases hl : l' = l
  · subst hl
    simpa only [Function.update_self] using (h.index l').trans hix
  · simpa only [Function.update_of_ne hl] using h.index l'

theorem close (h : c.Looked c') (gvc : Nat) (t : LocalTransaction) :
    c.Looked { c' with shared := { c'.shared with gvc := gvc }, transaction := t } :=
  ⟨by rw [h.shared], h.index, h.storage⟩

end Ctx.Looked

/-- A search that goes on: the transaction is open as before. -/
structure Ctx.Looking (c c' : Ctx K V m) : Prop extends c.Looked c' where
  TX : c'.transaction.TX = c.transaction.TX

section Search

variable {c₀ c : Ctx K V m} {n : NodeId}

theorem checkNode_looking (h : c₀.Looking c) : Ends (checkNode n) c (fun _ c' => c' = c)
    (OnAbort c₀.Looked) :=
  checkNode_rule (fun _ => h.toLooked.close c.shared.gvc _) (fun _ => h.toLooked.close _ _) fun _ => rfl

theorem getNext_looking (h : c₀.Looking c) : Ends (getNext n) c (fun _ c' => c' = c)
    (OnAbort c₀.Looked) :=
  getNext_rule (fun _ => h.toLooked.close c.shared.gvc _) (fun _ _ => h.toLooked.close _ _) fun _ => rfl

variable [LinearOrder K] {l : ListId m} {key : K} {fuel : Nat}

theorem indexGetPred_looking (h : c₀.Looking c) : Ends (indexGetPred fuel l key) c
    (fun _ => c₀.Looking) (OnAbort c₀.Looked) := by
  simp only [indexGetPred, Ends_onIndex, OnAbort_diverged, implies_true, true_and]
  intro ix p hp
  exact ⟨h.toLooked.setIndex (Index.sameNodes_getPredLoop hp).1, h.TX⟩

theorem getPredLoop_looking : ∀ (j : Nat) {c : Ctx K V m} {pred : NodeId}, c₀.Looking c →
    Ends (getPredLoop fuel l j pred) c (fun _ => c₀.Looking) (OnAbort c₀.Looked)
  | 0, _, _, _ => by simp [getPredLoop]
  | j + 1, c, pred, h => by
    simp only [getPredLoop, Ends_bind]
    refine (checkNode_looking h).mono (fun _ c' he => ?_) fun _ _ he => he
    subst he
    simp only [Ends_node, Ends_get, Ends_ite, Ends_pure, Ends_bind, Ends_assert,
      OnAbort_assertFailed, implies_true, and_true]
    exact ⟨fun _ _ => (indexGetPred_looking h).mono (fun p c' hc => getPredLoop_looking j hc)
      fun _ _ he => he, fun _ => h⟩

theorem findLoop_looking (h : c₀.Looking c) : ∀ (j : Nat) {pred : NodeId} {next : Option NodeId},
    Ends (findLoop key j pred next) c (fun _ => c₀.Looking) (OnAbort c₀.Looked)
  | 0, _, _ => by simp [findLoop]
  | j + 1, pred, none => by simpa [findLoop] using h
  | j + 1, pred, some next => by
    simp only [findLoop, Ends_bind, Ends_node, Ends_ite, Ends_pure]
    refine ⟨fun _ => h, fun _ => ⟨fun _ => h, fun _ => ?_⟩⟩
    refine (getNext_looking h).mono (fun o c' he => ?_) fun _ _ he => he
    rw [he]
    exact findLoop_looking h j

theorem find_node_looking (h : c₀.Looking c) : Ends (find_node fuel l key) c (fun _ => c₀.Looking)
    (OnAbort c₀.Looked) := by
  simp only [find_node, getPred, Ends_bind]
  refine (indexGetPred_looking h).mono (fun p c₁ h₁ => ?_) fun _ _ he => he
  refine (getPredLoop_looking fuel h₁).mono (fun pred c₂ h₂ => ?_) fun _ _ he => he
  refine (getNext_looking h₂).mono (fun next c₃ h₃ => ?_) fun _ _ he => he
  rw [h₃]
  exact findLoop_looking h₂ fuel

end Search

/-- What an access in a transaction does to the memory: it may allocate one node, which the thread is
to add to an index. -/
structure Ctx.Accessed (c c' : Ctx K V m) : Prop where
  retired : c'.shared.retired = c.shared.retired
  mem : ∀ n, c'.shared.mem n = c.shared.mem n ∨
    n = c.shared.fresh ∧ c'.shared.fresh = c.shared.fresh + 1 ∧ (c'.shared.mem n).word = {}
  index : ∀ l, (c.shared.index l).SameNodes (c'.shared.index l)
  added : c'.shared.fresh = c.shared.fresh ∧ c'.storage.indexAdd = c.storage.indexAdd ∨
    c'.shared.fresh = c.shared.fresh + 1 ∧ ∃ l, c'.storage.indexAdd =
      Function.update c.storage.indexAdd l (c.storage.indexAdd l ++ [c.shared.fresh])

section Access

variable {c c' : Ctx K V m}

/-- A node to be added is one of before, or the new one on its list. -/
theorem Ctx.Accessed.mem_added (h : c.Accessed c') {l : ListId m} {n : NodeId}
    (hn : n ∈ c'.storage.indexAdd l) : n ∈ c.storage.indexAdd l ∨ n = c.shared.fresh ∧
      c'.shared.fresh = c.shared.fresh + 1 ∧ c'.storage.indexAdd =
        Function.update c.storage.indexAdd l (c.storage.indexAdd l ++ [c.shared.fresh]) := by
  rcases h.added with ⟨-, hadd⟩ | ⟨hf, l', hadd⟩
  · rw [hadd] at hn
    exact .inl hn
  · by_cases hl : l = l'
    · subst hl
      rw [hadd, Function.update_self] at hn
      exact (List.mem_append.1 hn).imp id fun hn => ⟨List.mem_singleton.1 hn, hf, hadd⟩
    · rw [hadd, Function.update_of_ne hl] at hn
      exact .inl hn

theorem Ctx.Accessed.keeps_added (h : c.Accessed c') {l : ListId m} {n : NodeId}
    (hn : n ∈ c.storage.indexAdd l) : n ∈ c'.storage.indexAdd l := by
  rcases h.added with ⟨-, hadd⟩ | ⟨-, l', hadd⟩
  · rwa [hadd]
  · by_cases hl : l = l'
    · subst hl
      rw [hadd, Function.update_self]
      exact List.mem_append_left _ hn
    · rwa [hadd, Function.update_of_ne hl]

theorem Ctx.Accessed.adds_new (h : c.Accessed c') (hf : c'.shared.fresh ≠ c.shared.fresh) :
    c'.shared.fresh = c.shared.fresh + 1 ∧ ∃ l, c.shared.fresh ∈ c'.storage.indexAdd l := by
  rcases h.added with ⟨hf', -⟩ | ⟨hf', l, hadd⟩
  · exact absurd hf' hf
  · refine ⟨hf', l, ?_⟩
    rw [hadd, Function.update_self]
    exact List.mem_append_right _ (List.mem_singleton_self _)

theorem Ctx.Looked.accessed (h : c.Looked c') {ls : LocalStorage V m}
    (hls : ls.indexAdd = c'.storage.indexAdd) : c.Accessed { c' with storage := ls } :=
  ⟨h.retired, fun n => .inl (by rw [h.mem]), h.index, .inl ⟨h.fresh, by rw [hls, h.storage]⟩⟩

variable [LinearOrder K] {l : ListId m} {key : K} {fuel : Nat}

/-- What such an access does, returning or not; it leaves the transaction open when it returns. -/
theorem putTX_accessed (val : V) : Ends (putTX fuel l key val) c
    (fun _ c' => (c.Accessed c' ∧ c'.storage.indexRemove = c.storage.indexRemove) ∧
      c'.transaction.TX = c.transaction.TX) (OnAbort fun c' => c.Accessed c' ∧ c'.storage = c.storage) := by
  have hstart : c.Looking { c with transaction := { c.transaction with readOnly := false } } :=
    ⟨(Ctx.Looked.refl c).close c.shared.gvc _, rfl⟩
  refine putTX_ends ((find_node_looking hstart).mono (fun _ _ h => h) fun _ c' he => he.mono fun h =>
    ⟨h.accessed rfl, h.storage⟩) (fun pred x c' h => ?_) fun found pred next c' h _ => ?_
  · exact ⟨⟨h.toLooked.accessed rfl, by rw [← h.storage]; rfl⟩, h.TX⟩
  · refine ⟨⟨⟨h.retired, fun n => ?_, h.index, .inr ⟨?_, l, ?_⟩⟩, by rw [← h.storage]; rfl⟩, h.TX⟩
    · by_cases hn : n = c.shared.fresh
      · exact .inr ⟨hn, by rw [← h.fresh]; rfl, by rw [hn, ← h.fresh, Shared.alloc_mem, Function.update_self]⟩
      · refine .inl ?_
        rw [← h.fresh] at hn
        rw [Shared.alloc_mem, Function.update_of_ne hn, h.mem]
    · rw [← h.fresh]
      rfl
    · rw [← h.storage, ← h.fresh]
      rfl

theorem removeTX_accessed : Ends (removeTX fuel l key) c
    (fun _ c' => c.Accessed c' ∧ c'.transaction.TX = c.transaction.TX) (OnAbort c.Accessed) := by
  have hstart : c.Looking { c with transaction := { c.transaction with readOnly := false } } :=
    ⟨(Ctx.Looked.refl c).close c.shared.gvc _, rfl⟩
  refine removeTX_ends (N := fun _ _ _ _ => True) (R := fun _ => c.Looking)
    ((find_node_looking hstart).mono (fun _ _ h => h) fun _ c' he => he.mono fun h =>
      h.accessed rfl) (fun pred x c' h => ?_) (fun pred x o c' h _ => ?_)
    fun found pred next c' h _ => ⟨h.toLooked.accessed rfl, h.TX⟩
  · have hnext : ({ c' with storage := c'.storage.addToReadSet pred } : Ctx K V m).Looking
        { c' with storage := c'.storage.addToReadSet pred } := ⟨.refl _, rfl⟩
    refine (getNext_looking hnext).mono (fun o d hd => ⟨hd, trivial⟩) fun _ d he => he.mono fun hd => ?_
    have hadd : d.storage.indexAdd = c'.storage.indexAdd := by
      rw [hd.storage]
      rfl
    refine ⟨hd.retired.trans h.retired, fun n => .inl ?_, fun l => (h.index l).trans (hd.index l),
      .inl ⟨hd.fresh.trans h.fresh, by rw [hadd, h.storage]⟩⟩
    rw [hd.mem, ← h.mem]
  · exact ⟨h.toLooked.accessed rfl, h.TX⟩

theorem getTX_accessed : Ends (getTX fuel l key) c
    (fun _ c' => c.Accessed c' ∧ c'.transaction.TX = c.transaction.TX) (OnAbort c.Accessed) :=
  getTX_ends ((find_node_looking ⟨.refl c, rfl⟩).mono (fun _ _ h => h) fun _ _ he => he.mono fun h =>
      h.accessed rfl)
    (fun _ _ _ h => ⟨h.toLooked.accessed rfl, h.TX⟩) fun _ _ _ _ h _ => ⟨h.toLooked.accessed rfl, h.TX⟩

end Access

section Call

variable [LinearOrder K] {c : Ctx K V m} {ch : Choice}

/-- An access in a transaction, returning or not. -/
theorem call_accessed {op : Op K V m} (hop : op.isAccess = true) (hT : c.transaction.TX = true) :
    Ends (call ch op) c (fun _ c' => c.Accessed c' ∧ c'.transaction.TX = true) (OnAbort c.Accessed) := by
  have hno : ∀ {α : Type} {x : Call K V m α} {Q : α → Ctx K V m → Prop}
      {E : Err → Ctx K V m → Prop}, c.transaction.TX = false → Ends x c Q E := by
    intro α x Q E hF
    simp [hT] at hF
  have hret : ∀ {α : Type} {x : Call K V m α} {Q : α → Ctx K V m → Prop}, (∀ a c', Q a c' →
      c.Accessed c' ∧ c'.transaction.TX = c.transaction.TX) → Ends x c Q (OnAbort c.Accessed) →
      Ends x c (fun _ c' => c.Accessed c' ∧ c'.transaction.TX = true) (OnAbort c.Accessed) :=
    fun hQ hx => hx.mono (fun a c' h => ⟨(hQ a c' h).1, (hQ a c' h).2.trans hT⟩) fun _ _ he => he
  cases op with
  | put l key val =>
    simp only [call, Ends_bind, Ends_pure]
    refine access_ends (fun _ => ?_) hno
    exact (putTX_accessed val).mono (fun _ c' h => ⟨h.1.1, h.2.trans hT⟩)
      fun _ _ he => he.mono And.left
  | remove l key =>
    simp only [call, Ends_bind, Ends_pure]
    exact access_ends (fun _ => hret (fun _ _ h => h) removeTX_accessed) hno
  | get l key =>
    simp only [call, Ends_bind, Ends_pure]
    exact access_ends (fun _ => hret (fun _ _ h => h) getTX_accessed) hno
  | containsKey l key =>
    simp only [call, containsKey, Ends_bind, Ends_pure]
    exact access_ends (fun _ => hret (fun _ _ h => h) getTX_accessed) hno
  | txBegin | txEnd | handleAbort => simp [Op.isAccess] at hop

theorem putSingletonLoop_retired {fuel : Nat} {level : NodeId → Nat} {l : ListId m} {key : K} {val : V} :
    ∀ (n : Nat) {c' : Ctx K V m}, Searching c c c' → Ends (putSingletonLoop fuel level l key val n) c'
      (fun _ c'' => c''.shared.retired = c.shared.retired) (OnAbort fun _ => False)
  | 0, _, _ => by simp [putSingletonLoop, putSingletonLoopWith]
  | n + 1, c', h => by
    refine putSingletonLoop_ends (find_node_singelton_searching fuel h)
      (fun r c₁ hr _ => putSingletonLoop_retired n hr.1) (fun pred y c₁ hr _ _ _ _ => ?_)
      (fun pred c₁ hr hl _ => ?_) fun _ _ _ _ _ => trivial
    · rw [hr.1.same.shared]
      rfl
    · refine insertSingleton_ends hl hr.2.1.ne ?_
      simp only [Ends_onIndex, OnAbort_diverged, implies_true, true_and]
      intro ix _ _
      show c₁.shared.retired = c.shared.retired
      rw [hr.1.same.shared]

/-- `put` retires no node, and queues none for it. -/
theorem put_retires_none {l : ListId m} {key : K} {val : V} (h : Sane c) :
    Ends (call ch (.put l key val)) c (fun _ c' => c'.shared.retired = c.shared.retired ∧
      c'.storage.indexRemove = c.storage.indexRemove) (OnAbort fun c' =>
        c'.shared.retired = c.shared.retired ∧ c'.storage.indexRemove = c.storage.indexRemove) := by
  simp only [call, Ends_bind, Ends_pure]
  refine access_ends (fun _ => ?_) fun _ => ?_
  · exact (putTX_accessed val).mono (fun _ c' h => ⟨h.1.1.retired, h.1.2⟩)
      fun _ _ he => he.mono fun h => ⟨h.1.retired, by rw [h.2]⟩
  · have hstart : Searching c c c := ⟨.refl h, .refl c⟩
    exact ((putSingletonLoop_retired ch.fuel hstart).and (putSingletonLoop_single ch.fuel hstart)).mono
      (fun _ c' h => ⟨h.1, by rw [h.2.storage]⟩) fun _ _ he => he.1.mono False.elim

/-- However it ends, `TXend` empties the storage. -/
theorem TXend_empties (h : Sane c) (ho : ch.Orders c.storage) : Ends (TXend ch) c
    (fun _ c' => c'.storage = {}) (OnAbort fun c' => c'.storage = {}) := by
  refine TXend_ends ho (fun _ _ _ => ?_) (fun _ _ _ => rfl) (fun _ => rfl) (fun _ _ _ _ _ _ => rfl)
    (fun _ _ _ _ _ _ _ => trivial) fun _ _ => trivial
  exact (updateIndex_onward (commit_onward h)).mono (fun _ _ _ => rfl) fun _ _ he => he.mono False.elim

end Call

/-! ## Steps -/

section Step

variable [LinearOrder K] {σ σ' : Sys K V m} {t u : ThreadId} {op : Op K V m} {ch : Choice} {ret : Ret V}
  {X : Set NodeId}

/-- Another thread's step leaves the nodes hidden and does not retire them. -/
theorem Sys.Hides.other (h : σ.Hides t X) (hs : σ.Sane) (hu : u ≠ t)
    (ho : op = .txEnd → ch.Orders (σ.threads u).storage) (hst : σ.step u op ch = some (σ', ret)) :
    σ'.Hides t X ∧ ∃ rs, σ'.shared.retired = rs ++ σ.shared.retired ∧ ∀ n ∈ rs, n ∉ X := by
  have hfr := Sys.step_framed hs ho hst
  obtain ⟨hclose, hhold, hspare⟩ := Sys.step_apart h.shared (h.others u hu)
    (Region.takes_of_univ rfl op) (fun _ hn => lt_irrefl _ (h.allocated _ hn)) ho hst
  refine ⟨⟨fun n hn => (h.allocated n hn).trans_le hfr.framed.grows.fresh, hclose, fun v hv => ?_⟩,
    hspare.retired⟩
  by_cases hvu : v = u
  · subst hvu
    exact hhold
  · rw [hfr.threads v hvu]
    exact h.others v hv

/-- What is kept about the nodes that one thread is to add. -/
structure Sys.Withholds (σ : Sys K V m) (t : ThreadId) : Prop where
  hides : σ.Hides t (σ.threads t).pending
  unretired : ∀ n ∈ (σ.threads t).pending, n ∉ σ.shared.retired
  once : ∀ l l', l ≠ l' → ∀ n ∈ (σ.threads t).storage.indexAdd l,
    n ∉ (σ.threads t).storage.indexAdd l'

/-- What is kept about the nodes that the threads are to add and those retired or queued for it. -/
structure Sys.Withheld (σ : Sys K V m) : Prop where
  withholds : ∀ t, σ.Withholds t
  retired : ∀ n ∈ σ.shared.retired, n < σ.shared.fresh
  removed : ∀ t l, ∀ n ∈ (σ.threads t).storage.indexRemove l, n < σ.shared.fresh

omit [LinearOrder K] in
theorem Sys.Sane.closes (h : σ.Sane) (t : ThreadId) : (Region.below σ.shared.fresh).Closes σ.shared :=
  ⟨fun l _ => (head_lt l).trans_le (h t).heads, fun n _ => (h t).next n,
    fun l _ => Region.closes_index_of _ ((h t).index l)⟩

omit [LinearOrder K] in
theorem Sys.Sane.holds (h : σ.Sane) (t : ThreadId)
    (hr : ∀ l, ∀ n ∈ (σ.threads t).storage.indexRemove l, n < σ.shared.fresh) :
    (Region.below σ.shared.fresh).Holds (σ.threads t).storage where
  written n we hn := ⟨(h t).readSet n ((h t).write_read n (AList.lookup_isSome.1 (by
    show ((σ.threads t).storage.writeSet.lookup n).isSome = true
    rw [hn]
    rfl))), fun y hy => (h t).write_next n we y hn hy⟩
  read := (h t).readSet
  added l n hn := ⟨trivial, (h t).indexAdd l n hn⟩
  removed l n hn := ⟨trivial, hr l n hn⟩

/-- What is retired or queued for it has been allocated. -/
theorem Sys.Withheld.below (h : σ.Withheld) (hs : σ.Sane)
    (ho : op = .txEnd → ch.Orders (σ.threads t).storage) (hst : σ.step t op ch = some (σ', ret)) :
    (∀ n ∈ σ'.shared.retired, n < σ'.shared.fresh) ∧
      ∀ u l, ∀ n ∈ (σ'.threads u).storage.indexRemove l, n < σ'.shared.fresh := by
  have hfr := Sys.step_framed hs ho hst
  have hfresh := hfr.framed.grows.fresh
  have hown : (∀ n ∈ σ'.shared.retired, n < σ.shared.fresh) ∧
      ∀ l, ∀ n ∈ (σ'.threads t).storage.indexRemove l, n < σ.shared.fresh := by
    rcases hins : op.inserts with _ | _
    · obtain ⟨-, hhold, hspare⟩ := Sys.step_apart (hs.closes t) (hs.holds t (h.removed t))
        (Region.takes_of_univ rfl op) (fun hk => by simp [hins] at hk) ho hst
      obtain ⟨rs, hrs, hlt⟩ := hspare.retired
      refine ⟨fun n hn => ?_, fun l n hn => (hhold.removed l n hn).2⟩
      rw [hrs] at hn
      exact (List.mem_append.1 hn).elim (hlt n) (h.retired n)
    · obtain ⟨l, key, val, rfl⟩ : ∃ l key val, op = .put l key val := by
        cases op <;> simp [Op.inserts] at hins
        exact ⟨_, _, _, rfl⟩
      obtain ⟨c, rfl, hc⟩ := Sys.step_of_ends (put_retires_none (hs t)) hst
      have hc := hc.elim id And.right
      rw [Sys.put_threads_self, Sys.put_shared, hc.1]
      refine ⟨h.retired, fun l n hn => ?_⟩
      rw [hc.2] at hn
      exact h.removed t l n hn
  refine ⟨fun n hn => (hown.1 n hn).trans_le hfresh, fun u l n hn => ?_⟩
  by_cases hu : u = t
  · subst hu
    exact (hown.2 l n hn).trans_le hfresh
  · rw [hfr.threads u hu] at hn
    exact (h.removed u l n hn).trans_le hfresh

omit [LinearOrder K] in
/-- An access in a transaction hides the node it allocates. -/
theorem Sys.Withheld.accessed {c : Ctx K V m} (h : σ.Withheld) (hs : σ.Sane)
    (ha : (σ.ctx t).Accessed c) : (σ.put t c).Hides t {n | ∃ l, n ∈ c.storage.indexAdd l} := by
  have hmem : ∀ l n, n ∈ c.storage.indexAdd l → n ∈ (σ.threads t).pending ∨
      n = σ.shared.fresh ∧ c.shared.fresh = σ.shared.fresh + 1 := fun l n hn =>
    (ha.mem_added hn).imp (fun hn => ⟨l, hn⟩) fun hn => ⟨hn.1, hn.2.1⟩
  have hfresh : σ.shared.fresh ≤ c.shared.fresh := by
    rcases ha.added with ⟨hf, -⟩ | ⟨hf, -⟩
    · exact hf.ge
    · exact hf.symm ▸ Nat.le_succ _
  -- a node that was allocated before and did not belong to the thread
  have hout : ∀ y, y < σ.shared.fresh → y ∉ (σ.threads t).pending →
      y ∉ {n | ∃ l, n ∈ c.storage.indexAdd l} := by
    rintro y hy hno ⟨l, hn⟩
    rcases hmem l y hn with hn | ⟨rfl, -⟩
    · exact hno hn
    · exact lt_irrefl _ hy
  refine ⟨?_, ⟨fun l _ => ?_, fun n hn y hy => ?_, fun l _ => Region.closes_index_of _ fun i => ?_⟩,
    fun u hu => ?_⟩
  · rintro n ⟨l, hn⟩
    rcases hmem l n hn with hn | ⟨rfl, hf⟩
    · exact ((h.withholds t).hides.allocated n hn).trans_le hfresh
    · rw [Sys.put_shared, hf]
      exact Nat.lt_succ_self _
  · exact hout _ ((head_lt l).trans_le (hs t).heads) ((h.withholds t).hides.shared.head l trivial)
  · have hn' : n ∉ (σ.threads t).pending := fun hp =>
      hn (hp.imp fun l hp => ha.keeps_added hp)
    rcases ha.mem n with he | ⟨rfl, hf, -⟩
    · rw [Sys.put_shared, he] at hy
      exact hout y ((hs t).next n y hy) ((h.withholds t).hides.shared.next n hn' y hy)
    · exact absurd (ha.adds_new (hf.trans_ne (Nat.succ_ne_self _))).2 hn
  · rw [Sys.put_shared, (ha.index l).node i]
    exact hout _ ((hs t).index l i) ((h.withholds t).hides.shared.node trivial rfl i)
  · rw [Sys.put_threads_ne _ _ hu]
    have hb := hs.holds u (h.removed u)
    have hx := (h.withholds t).hides.others u hu
    exact ⟨fun n we hn => ⟨hout n (hb.written n we hn).1 (hx.written n we hn).1, fun y hy =>
        hout y ((hb.written n we hn).2 y hy) ((hx.written n we hn).2 y hy)⟩,
      fun n hn => hout n (hb.read n hn) (hx.read n hn),
      fun l n hn => ⟨trivial, hout n (hb.added l n hn).2 (hx.added l n hn).2⟩,
      fun l n hn => ⟨trivial, hout n (hb.removed l n hn).2 (hx.removed l n hn).2⟩⟩

omit [LinearOrder K] in
theorem Sys.hides_empty (σ : Sys K V m) (t : ThreadId) : σ.Hides t ∅ :=
  have hin : ∀ n, n ∈ (Region.off ∅ : Region m).nodes := Set.notMem_empty
  ⟨fun n hn => absurd hn (hin n),
    ⟨fun _ _ => hin _, fun _ _ y _ => hin y, fun _ _ => Region.closes_index_of _ fun _ => hin _⟩,
    fun _ _ => ⟨fun n _ _ => ⟨hin n, fun y _ => hin y⟩, fun n _ => hin n,
      fun _ n _ => ⟨trivial, hin n⟩, fun _ n _ => ⟨trivial, hin n⟩⟩⟩

/-- After a thread's own step. -/
theorem Sys.Withheld.own (h : σ.Withheld) (hs : σ.Sane)
    (ho : op = .txEnd → ch.Orders (σ.threads t).storage) (hst : σ.step t op ch = some (σ', ret)) :
    σ'.Withholds t := by
  have hempty : (σ'.threads t).storage = {} → σ'.Withholds t := by
    intro he
    have hp : (σ'.threads t).pending = ∅ := by
      ext n
      simp [Local.pending, he]
    refine ⟨hp ▸ σ'.hides_empty t, by simp [hp], fun l l' _ n hn => ?_⟩
    simp [he] at hn
  -- the storage and what has been retired are as they were
  have hsame : σ'.Hides t (σ.threads t).pending → (σ'.threads t).storage = (σ.threads t).storage →
      (∀ n ∈ (σ.threads t).pending, n ∉ σ'.shared.retired) → σ'.Withholds t := by
    intro hh he hr
    have hp : (σ'.threads t).pending = (σ.threads t).pending := by rw [Local.pending, he]; rfl
    exact ⟨hp ▸ hh, hp ▸ hr, he ▸ (h.withholds t).once⟩
  rcases hacc : op.isAccess with _ | _
  · cases op with
    | txBegin =>
      obtain ⟨c, rfl, hc⟩ := Sys.step_of_ends (Q := fun _ c => c.shared = σ.shared ∧
        c.storage = (σ.threads t).storage) (P := fun _ => False) (by
          simp only [call, TXbegin, Ends_bind, Ends_getVersion, Ends_modifyTransaction, Ends_pure]
          exact ⟨rfl, rfl⟩) hst
      obtain ⟨hsh, hstor⟩ := hc.resolve_right And.right
      refine hsame ⟨fun n hn => ?_, ?_, fun u hu => ?_⟩ (by simpa using hstor) fun n hn => ?_
      · simpa [hsh] using (h.withholds t).hides.allocated n hn
      · simpa [hsh] using (h.withholds t).hides.shared
      · rw [Sys.put_threads_ne _ _ hu]
        exact (h.withholds t).hides.others u hu
      · simpa [hsh] using (h.withholds t).unretired n hn
    | txEnd =>
      obtain ⟨c, rfl, hc⟩ := Sys.step_of_ends (P := fun c => c.storage = {})
        (Q := fun _ c => c.storage = {}) (by
          simp only [call, Ends_bind, Ends_pure]
          exact TXend_empties (hs t) (ho rfl)) hst
      exact hempty (by simpa using hc.elim id And.right)
    | handleAbort =>
      obtain ⟨c, rfl, hc⟩ := Sys.step_of_ends (Q := fun _ c => c.storage = {}) (P := fun _ => False) (by
        simp only [call, Ends_bind, Ends_pure]
        exact handle_abort_ends fun r => rfl) hst
      exact hempty (by simpa using hc.resolve_right And.right)
    | put | remove | get | containsKey => simp [Op.isAccess] at hacc
  · rcases hT : (σ.threads t).transaction.TX with _ | _
    · have hw := (h.withholds t).hides
      have hsing : EndsAlike (call ch op) (σ.ctx t) (σ.ctx t) _ _ := (Apart.refl (W := False) (c := σ.ctx t) (k := 1)
        (P := fun ls _ => ls = (σ.threads t).storage) hw.shared (fun i hi hn =>
          absurd (hw.allocated _ hn) (not_lt.2 (Nat.le_add_right _ _))) rfl).singleton hacc
        (fun _ => zero_lt_one) hT (Region.takes_of_univ rfl op)
      obtain ⟨c, rfl, hc⟩ := Sys.step_of_ends (hsing.ends.mono (fun _ _ hc => hc) fun e c hc => by
        rcases e with _ | _ | _ | _
        · exact hc
        all_goals trivial) hst
      have hc : Apart False _ _ _ _ _ c c := hc.elim id And.right
      have hfr := Sys.step_framed hs ho hst
      obtain ⟨rs, hrs, hout⟩ := hc.spares.retired
      refine hsame ⟨fun n hn => ?_, hc.closes, fun u hu => ?_⟩ (by simpa using hc.own) fun n hn hr => ?_
      · exact (hw.allocated n hn).trans_le hfr.framed.grows.fresh
      · rw [Sys.put_threads_ne _ _ hu]
        exact hw.others u hu
      · rw [Sys.put_shared, hrs] at hr
        exact (List.mem_append.1 hr).elim (fun hr => hout n hr hn) ((h.withholds t).unretired n hn)
    · obtain ⟨c, rfl, hc⟩ := Sys.step_of_ends
        (call_accessed hacc (show (σ.ctx t).transaction.TX = true from hT)) hst
      have hc : (σ.ctx t).Accessed c := hc.elim And.left And.right
      have hnew : ∀ l, σ.shared.fresh ∉ (σ.threads t).storage.indexAdd l := fun l hn =>
        lt_irrefl _ ((hs t).indexAdd l _ hn)
      have hp : ((σ.put t c).threads t).storage = c.storage := by simp
      refine ⟨?_, fun n hn hr => ?_, fun l l' hne n hn hn' => ?_⟩
      · rw [Local.pending, hp]
        exact h.accessed hs hc
      · rw [Sys.put_shared, hc.retired] at hr
        rw [Local.pending, hp] at hn
        obtain ⟨l, hn⟩ := hn
        rcases hc.mem_added hn with hn | ⟨rfl, -⟩
        · exact (h.withholds t).unretired n ⟨l, hn⟩ hr
        · exact lt_irrefl _ (h.retired _ hr)
      · rw [hp] at hn hn'
        rcases hc.mem_added hn with hn | ⟨rfl, -, hadd⟩
        · rcases hc.mem_added hn' with hn' | ⟨rfl, -⟩
          · exact (h.withholds t).once l l' hne n hn hn'
          · exact hnew l hn
        · rw [hadd, Function.update_of_ne hne.symm] at hn'
          exact hnew l' hn'

/-- Every step keeps this. -/
theorem Sys.Withheld.step (h : σ.Withheld) (hs : σ.Sane)
    (ho : op = .txEnd → ch.Orders (σ.threads t).storage) (hst : σ.step t op ch = some (σ', ret)) :
    σ'.Withheld := by
  obtain ⟨hret, hrem⟩ := h.below hs ho hst
  refine ⟨fun u => ?_, hret, hrem⟩
  by_cases hu : u = t
  · subst hu
    exact h.own hs ho hst
  · have hw := h.withholds u
    obtain ⟨hhide, rs, hrs, hout⟩ := hw.hides.other hs (Ne.symm hu) ho hst
    have he := (Sys.step_framed hs ho hst).threads u hu
    have hp : (σ'.threads u).pending = (σ.threads u).pending := by rw [he]
    refine ⟨hp ▸ hhide, fun n hn hr => ?_, he ▸ hw.once⟩
    rw [hp] at hn
    rw [hrs] at hr
    exact (List.mem_append.1 hr).elim (fun hr => hout n hr hn) (hw.unretired n hn)

omit [LinearOrder K] in
theorem Sys.withheld_init (minKey : K) (dflt : V) : (Sys.init minKey dflt : Sys K V m).Withheld := by
  refine ⟨fun t => ?_, fun n hn => by simp [Sys.init] at hn, fun t l n hn => by simp [Sys.init] at hn⟩
  have hp : ((Sys.init minKey dflt : Sys K V m).threads t).pending = ∅ := by
    ext n
    simp [Local.pending, Sys.init]
  exact ⟨hp ▸ Sys.hides_empty _ t, by simp [hp], fun l l' _ n hn => by simp [Sys.init] at hn⟩

end Step

/-! ## Runs -/

/-- All that holds in every reachable state. -/
structure Sys.Steady [LinearOrder K] (σ : Sys K V m) : Prop where
  sane : σ.Sane
  sound : σ.Sound
  withheld : σ.Withheld

section Run

variable [LinearOrder K] {C C' : Conf K V m} {t : ThreadId} {op : Op K V m} {ret : Ret V}
  {G : Conf.Guard K V m}

theorem Conf.Step.steady (hst : C.Step t op ret C') (h : C.sys.Steady) : C'.sys.Steady := by
  refine ⟨(hst.framed h.sane).sane, hst.sound h.sane h.sound, ?_⟩
  obtain ⟨ch, ho, hs, -⟩ := hst
  exact h.withheld.step h.sane ho hs

theorem Conf.Run.steady (hr : C.Run G C') (h : C.sys.Steady) : C'.sys.Steady :=
  hr.keeps (J := fun C => C.sys.Steady) h fun h _ hst => hst.steady h

theorem Conf.Reach.steady {minKey : K} {dflt : V} (hr : Conf.Reach minKey dflt G C) : C.sys.Steady :=
  Conf.Run.steady hr ⟨Sys.sane_init minKey dflt, Sys.sound_init minKey dflt, Sys.withheld_init minKey dflt⟩

end Run

end TxList
