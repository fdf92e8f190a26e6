import TxList.Lib.Alike
import TxList.Proofs.Marks

/-!
# Starting over after an abort

A list operation that throws `TxAbortException` closes the transaction and leaves the thread's local
storage as it is, and `TXbegin` opens the next transaction over it. What the aborted attempt has
read is then validated, and what it was to write is committed, by the next one. Only when the
attempt threw before it recorded anything does it leave no trace; the flag `readOnly`, which a `put`
or `remove` clears before it searches, makes no difference but to the clock.
-/

namespace TxList

open Prog

variable {K V : Type} {m : Nat}

/-! ## What the operations do not look at -/

/-- The relation says nothing that reading, or adding to the read set, could tell apart. -/
structure Invisible (R : Ctx K V m → Ctx K V m → Prop) : Prop where
  shared : ∀ {c c'}, R c c' → c'.shared = c.shared
  writeSet : ∀ {c c'}, R c c' → c'.storage.writeSet = c.storage.writeSet
  readVersion : ∀ {c c'}, R c c' → c'.transaction.readVersion = c.transaction.readVersion
  set : ∀ {c c'} (s : Shared K V m), R c c' → R { c with shared := s } { c' with shared := s }
  close : ∀ {c c'}, R c c' → R { c with transaction := { c.transaction with TX := false } }
    { c' with transaction := { c'.transaction with TX := false } }
  read : ∀ {c c'} (n : NodeId), R c c' → R { c with storage := c.storage.addToReadSet n }
    { c' with storage := c'.storage.addToReadSet n }

namespace Invisible

variable {R : Ctx K V m → Ctx K V m → Prop} (h : Invisible R) {α : Type}

include h

theorem onShared (g : Shared K V m → Shared K V m) :
    Steady R (modify fun c : Ctx K V m => { c with shared := g c.shared } : Call K V m PUnit) :=
  .modify fun c c' hc => by
    rw [h.shared hc]
    exact h.set _ hc

theorem node (n : NodeId) : Steady R (node n : Call K V m (LNode K V)) :=
  .get_bind (fun c c' hc => by rw [h.shared hc]) fun _ => .pure _

theorem modifyNode (n : NodeId) (f : LNode K V → LNode K V) :
    Steady R (modifyNode n f : Call K V m Unit) :=
  h.onShared fun s => s.setNode n (f (s.mem n))

omit h in
theorem assert (b : Bool) : Steady R (assert b : Call K V m Unit) :=
  .ite (.pure _) (.throw _)

theorem tryLock (n : NodeId) : Steady R (tryLock n : Call K V m Bool) :=
  .bind (h.node n) fun _ => .ite (.pure _) (.bind (h.modifyNode n _) fun _ => .pure _)

theorem unlock (n : NodeId) : Steady R (unlock n : Call K V m Unit) :=
  .bind (h.node n) fun _ => .bind (assert _) fun _ => h.modifyNode n _

theorem lockedUpdate (n : NodeId) (f : LNode K V → LNode K V) :
    Steady R (lockedUpdate n f : Call K V m Unit) :=
  .bind (h.node n) fun _ => .bind (assert _) fun _ => h.modifyNode n f

theorem getVersion : Steady R (getVersion : Call K V m Nat) :=
  .get_bind (fun c c' hc => by rw [h.shared hc]) fun _ => .pure _

theorem incrementAndGetVersion : Steady R (incrementAndGetVersion : Call K V m Nat) :=
  .bind (h.onShared fun s => { s with gvc := s.gvc + 1 }) fun _ => h.getVersion

theorem abortTX : Steady R (abortTX : Call K V m α) :=
  .bind (.modify fun _ _ hc => h.close hc) fun _ => .throw _

theorem addToReadSet (n : NodeId) :
    Steady R (modifyStorage (·.addToReadSet n) : Call K V m Unit) :=
  .modify fun _ _ hc => h.read n hc

theorem get_new_node (key : K) (val : V) : Steady R (get_new_node key val : Call K V m NodeId) := by
  refine .get_bind (fun c c' hc => by rw [h.shared hc]) fun c => .bind ?_ fun _ => .pure _
  exact h.onShared fun s =>
    { s.setNode c.shared.fresh { key := key, val := some val } with fresh := c.shared.fresh + 1 }

theorem retire_node (n : NodeId) : Steady R (retire_node n : Call K V m Unit) :=
  h.onShared fun s => { s with retired := n :: s.retired }

theorem onIndex (l : ListId m) (f : NodeView K → Index → Option (Index × α)) :
    Steady R (onIndex l f : Call K V m α) := by
  intro c c' hc
  simp only [Alike, TxList.onIndex, bind, EStateM.bind, get_apply,
    h.shared hc]
  rcases f c.shared.view (c.shared.index l) with _ | ⟨ix, a⟩
  · exact ⟨rfl, hc⟩
  · exact ⟨rfl, h.set _ hc⟩

variable [LinearOrder K] (fuel : Nat) (l : ListId m) (key : K)

omit [LinearOrder K] in
theorem checkNode (n : NodeId) : Steady R (checkNode n : Call K V m Unit) := by
  refine .bind (h.node n) fun x => .get_bind (fun c c' hc => ?_) fun c => ?_
  · have ht : tooNew x c'.transaction = tooNew x c.transaction := by
      simp only [tooNew, h.readVersion hc]
    simp only [ht, h.readVersion hc]
  · refine .ite (.bind h.abortTX fun _ => ?_) ?_
    all_goals exact .ite (.bind h.incrementAndGetVersion fun _ => h.abortTX) (.pure _)

theorem getPredLoop : ∀ (n : Nat) (pred : NodeId),
    Steady R (getPredLoop fuel l n pred : Call K V m NodeId)
  | 0, _ => .throw _
  | n + 1, pred => by
    refine .bind (h.checkNode pred) fun _ => .bind (h.node pred) fun x =>
      .get_bind (fun c c' hc => by rw [h.writeSet hc]) fun c => .ite ?_ (.pure _)
    exact .bind (assert _) fun _ => .bind (h.onIndex l _) fun p => getPredLoop n p

omit [LinearOrder K] in
theorem getNext (n : NodeId) : Steady R (getNext n : Call K V m (Option NodeId)) := by
  refine .get_bind (fun c c' hc => by rw [h.writeSet hc]) fun c => ?_
  split
  · exact .pure _
  · refine .bind (h.node n) fun x => .ite (.bind h.abortTX fun _ => ?_) ?_
    all_goals
      refine .bind (h.node n) fun y => .bind (h.checkNode n) fun _ => ?_
      split
      · exact .pure _
      · exact .bind (h.checkNode _) fun _ => .pure _

omit [LinearOrder K] in
theorem getVal (n : NodeId) : Steady R (getVal n : Call K V m (Option V)) := by
  refine .get_bind (fun c c' hc => by rw [h.writeSet hc]) fun c => ?_
  split
  · exact .pure _
  · exact .bind (h.node n) fun _ => .pure _

theorem findLoop : ∀ (n : Nat) (pred : NodeId) (next : Option NodeId),
    Steady R (findLoop key n pred next : Call K V m (Bool × NodeId × Option NodeId))
  | 0, _, _ => .throw _
  | _ + 1, _, none => .pure _
  | n + 1, pred, some next => by
    refine .bind (h.node next) fun x => .ite (.pure _) (.ite (.pure _) ?_)
    exact .bind (h.getNext next) fun y => findLoop n next y

theorem find_node : Steady R (find_node fuel l key : Call K V m (Bool × NodeId × Option NodeId)) :=
  .bind (.bind (h.onIndex l _) fun p => h.getPredLoop fuel l fuel p) fun pred =>
    .bind (h.getNext pred) fun next => h.findLoop key fuel pred next

theorem getTX : Steady R (getTX fuel l key : Call K V m (Option V)) := by
  refine .bind (h.find_node fuel l key) fun r => ?_
  obtain ⟨found, pred, next⟩ := r
  refine .bind (h.addToReadSet pred) fun _ => ?_
  split
  · exact h.getVal _
  · exact .pure _

theorem getPredSingletonLoop : ∀ (n : Nat) (pred : NodeId),
    Steady R (getPredSingletonLoop fuel l n pred : Call K V m NodeId)
  | 0, _ => .throw _
  | n + 1, pred => by
    refine .bind (h.node pred) fun x => .ite (.ite (.pure _) ?_) (.pure _)
    exact .bind (h.onIndex l _) fun p => getPredSingletonLoop n p

theorem findSingletonLoop : ∀ (n : Nat) (pred : NodeId) (next : Option NodeId),
    Steady R (findSingletonLoop key n pred next :
      Call K V m (Option (Bool × NodeId × Option NodeId)))
  | 0, _, _ => .throw _
  | _ + 1, _, none => .pure _
  | n + 1, pred, some next => by
    refine .bind (h.node next) fun x => .ite (.pure _)
      (.ite (.bind (h.node pred) fun _ => .pure _) (.ite (.pure _) ?_))
    refine .bind (h.node pred) fun p => .ite (.pure _) (.bind (h.node pred) fun p' => ?_)
    split
    · exact .pure _
    · exact .bind (h.node _) fun p => .ite (.pure _) (findSingletonLoop n _ _)

theorem find_node_singelton : ∀ n : Nat,
    Steady R (find_node_singelton fuel l key n : Call K V m (Bool × NodeId × Option NodeId))
  | 0 => .throw _
  | n + 1 => by
    refine .bind (.bind (h.onIndex l _) fun p => h.getPredSingletonLoop fuel l fuel p) fun pred =>
      .bind (h.node pred) fun x => .ite (find_node_singelton n) (.ite (find_node_singelton n) ?_)
    refine .bind (h.findSingletonLoop key fuel pred x.next) fun r => ?_
    split
    · exact find_node_singelton n
    · exact .pure _

section Update

variable {α : Type} {update : NodeId → Call K V m α} (hu : ∀ n, Steady R (update n))

include hu

omit [LinearOrder K] in
theorem insertSingletonWith (val : V) (pred : NodeId) (next : Option NodeId) :
    Steady R (insertSingletonWith update key val pred next) :=
  .bind (h.get_new_node key val) fun n => .bind (h.modifyNode n _) fun _ =>
    .bind (h.modifyNode pred _) fun _ => .bind h.getVersion fun _ =>
      .bind (h.modifyNode n _) fun _ => .bind (h.unlock pred) fun _ => hu n

theorem putSingletonLoopWith (val : V) : ∀ n : Nat,
    Steady R (putSingletonLoopWith update fuel l key val n)
  | 0 => .throw _
  | n + 1 => by
    have hretry : ∀ k, Steady R (do TxList.unlock k; TxList.putSingletonLoopWith update fuel l key val n) :=
      fun k => .bind (h.unlock k) fun _ => putSingletonLoopWith val n
    refine .bind (h.find_node_singelton fuel l key fuel) fun r => ?_
    split
    · refine .bind (h.node _) fun p => ?_
      split
      · refine .bind (h.tryLock _) fun _ => .ite ?_ (putSingletonLoopWith val n)
        refine .bind (h.node _) fun _ => .bind (h.node _) fun _ => .ite (hretry _) ?_
        exact .bind (h.node _) fun _ => .bind (h.modifyNode _ _) fun _ =>
          .bind (h.lockedUpdate _ _) fun _ => .bind h.getVersion fun _ =>
            .bind (h.lockedUpdate _ _) fun _ => .bind (h.unlock _) fun _ => .pure _
      · exact .throw _
    all_goals
      refine .bind (h.tryLock _) fun _ => .ite ?_ (putSingletonLoopWith val n)
      refine .bind (h.node _) fun _ => .ite (hretry _) ?_
      exact .bind (h.insertSingletonWith key hu val _ _) fun _ => .pure _

theorem removeSingletonLoopWith : ∀ n : Nat, Steady R (removeSingletonLoopWith update fuel l key n)
  | 0 => .throw _
  | n + 1 => by
    have hretry : ∀ k, Steady R (do TxList.unlock k; TxList.removeSingletonLoopWith update fuel l key n) :=
      fun k => .bind (h.unlock k) fun _ => removeSingletonLoopWith n
    refine .bind (h.find_node_singelton fuel l key fuel) fun r => ?_
    split
    · exact .pure _
    · refine .bind (h.tryLock _) fun _ => .ite ?_ (removeSingletonLoopWith n)
      refine .bind (h.node _) fun _ => .ite (hretry _) ?_
      split
      · exact .throw _
      · refine .bind (h.tryLock _) fun _ => .ite ?_ (hretry _)
        refine .bind (h.node _) fun _ => .bind (h.modifyNode _ _) fun _ =>
          .bind (h.node _) fun _ => ?_
        split
        · exact .throw _
        · exact .bind (h.node _) fun _ => .bind (h.modifyNode _ _) fun _ =>
            .bind h.getVersion fun _ => .bind (h.lockedUpdate _ _) fun _ =>
            .bind (h.lockedUpdate _ _) fun _ => .bind (h.unlock _) fun _ =>
            .bind (h.unlock _) fun _ => .bind (hu _) fun _ => .pure _

end Update

theorem putSingletonLoop (level : NodeId → Nat) (val : V) (n : Nat) :
    Steady R (putSingletonLoop fuel level l key val n : Call K V m (Option V)) :=
  (h.putSingletonLoopWith fuel l key (fun _ => h.onIndex l _) val n).map _

theorem removeSingletonLoop (n : Nat) :
    Steady R (removeSingletonLoop fuel l key n : Call K V m (Option V)) :=
  (h.removeSingletonLoopWith fuel l key
    (fun _ => .bind (h.onIndex l _) fun _ => h.retire_node _) n).map _

theorem getSingleton : Steady R (getSingleton fuel l key : Call K V m (Option V)) := by
  refine .bind (h.find_node_singelton fuel l key fuel) fun r => ?_
  split
  · exact .bind (h.node _) fun _ => .pure _
  · exact .throw _
  · exact .pure _

end Invisible

/-! ## The local storage is empty when nothing was read -/

/-- Nothing is recorded but reads. -/
def Ctx.Tied (c : Ctx K V m) : Prop := c.storage.readSet = ∅ → c.storage.IsEmpty

/-- What is to be written is as in `ls`, and what was read is too, or more. -/
def Recorded (ls : LocalStorage V m) (c c' : Ctx K V m) : Prop :=
  c' = c ∧ c.storage.writeSet = ls.writeSet ∧ c.storage.indexAdd = ls.indexAdd ∧
    c.storage.indexRemove = ls.indexRemove ∧ ls.readSet ⊆ c.storage.readSet

theorem Recorded.invisible (ls : LocalStorage V m) :
    Invisible (Recorded ls : Ctx K V m → Ctx K V m → Prop) where
  shared h := by rw [h.1]
  writeSet h := by rw [h.1]
  readVersion h := by rw [h.1]
  set s h := ⟨by rw [h.1], h.2⟩
  close h := ⟨by rw [h.1], h.2⟩
  read n h := ⟨by rw [h.1], h.2.1, h.2.2.1, h.2.2.2.1,
    h.2.2.2.2.trans (Finset.subset_insert _ _)⟩

section Calls

variable {c d : Ctx K V m} {α : Type} {x : Call K V m α}

theorem Recorded.tied (h : Recorded c.storage d d) (hc : c.Tied) : d.Tied := by
  intro hd
  obtain ⟨-, hw, ha, hr, hsub⟩ := h
  rw [hd] at hsub
  obtain ⟨ew, -, ea, er⟩ := hc (Finset.subset_empty.1 hsub)
  exact ⟨hw.trans ew, hd, fun l => by rw [ha, ea l], fun l => by rw [hr, er l]⟩

theorem Ctx.tied_of_mem {n : NodeId} (hn : n ∈ c.storage.readSet) : c.Tied := fun he => by
  rw [he] at hn
  simp at hn

theorem Ctx.Tied.ends (hc : c.Tied)
    (hx : ∀ {R : Ctx K V m → Ctx K V m → Prop}, Invisible R → Steady R x) :
    Ends x c (fun _ => Ctx.Tied) (OnAbort Ctx.Tied) := by
  have h := (hx (Recorded.invisible c.storage)).ends ⟨rfl, rfl, rfl, rfl, Finset.Subset.refl _⟩
  refine h.mono (fun _ d hd => hd.tied hc) fun e d hd => ?_
  rcases e with _ | _ | _ | _
  · exact hd.tied hc
  all_goals trivial

variable [LinearOrder K] {ch : Choice}

theorem call_tied (op : Op K V m) (h : Sane c) (ho : op = .txEnd → ch.Orders c.storage)
    (hc : c.Tied) : Ends (call ch op) c (fun _ => Ctx.Tied) (OnAbort Ctx.Tied) := by
  have hw : c.writing.Tied := hc
  have hempty : ∀ d : Ctx K V m, d.cleaned.Tied := fun d _ => Ctx.cleaned_isEmpty d
  cases op with
  | txBegin =>
    simp only [call, TXbegin, Ends_bind, Ends_getVersion, Ends_modifyTransaction, Ends_pure]
    exact hc
  | put l key val =>
    simp only [call, Ends_bind, Ends_pure]
    refine access_ends (fun _ => ?_) fun _ => hc.ends fun hR => hR.putSingletonLoop _ l key _ val _
    refine putTX_ends (R := fun _ _ => True) ((hw.ends fun hR => hR.find_node _ l key).mono
      (fun _ _ _ => trivial) fun _ _ he => he) (fun pred x c' _ => ?_) fun found pred next c' _ _ => ?_
    · exact Ctx.tied_of_mem (n := x) (by simp [LocalStorage.overwrite])
    · exact Ctx.tied_of_mem (n := pred) (by simp [LocalStorage.insertAfter])
  | remove l key =>
    simp only [call, Ends_bind, Ends_pure]
    refine access_ends (fun _ => ?_) fun _ => hc.ends fun hR => hR.removeSingletonLoop _ l key _
    refine removeTX_ends (R := fun _ _ => True) (N := fun _ _ _ _ => True)
      ((hw.ends fun hR => hR.find_node _ l key).mono (fun _ _ _ => trivial) fun _ _ he => he)
      (fun pred x c' _ => ?_) (fun pred x o c' _ _ => ?_) fun found pred next c' _ _ => ?_
    · have hp : Ctx.Tied { c' with storage := c'.storage.addToReadSet pred } :=
        Ctx.tied_of_mem (n := pred) (by simp)
      exact ((getNext_ends fun _ => rfl).and (hp.ends fun hR => hR.getNext x)).mono
        (fun _ _ he => ⟨he.1, trivial⟩) fun _ _ he => he.2
    · exact Ctx.tied_of_mem (n := x) (by simp [LocalStorage.unlink])
    · exact Ctx.tied_of_mem (n := pred) (by simp)
  | get l key =>
    simp only [call, Ends_bind, Ends_pure]
    exact access_ends (fun _ => hc.ends fun hR => hR.getTX _ l key)
      fun _ => hc.ends fun hR => hR.getSingleton _ l key
  | containsKey l key =>
    simp only [call, containsKey, Ends_bind, Ends_pure]
    exact access_ends (fun _ => hc.ends fun hR => hR.getTX _ l key)
      fun _ => hc.ends fun hR => hR.getSingleton _ l key
  | txEnd =>
    simp only [call, Ends_bind, Ends_pure]
    refine TXend_ends (ho rfl) (fun _ _ _ => ?_) (fun _ _ _ => hempty _) (fun _ => hempty _)
      (fun n _ _ _ _ _ => hempty _) (fun _ _ _ _ _ _ _ => trivial) fun _ _ => trivial
    exact (updateIndex_onward (commit_onward h)).mono (fun _ c' _ => hempty _)
      fun _ _ he => he.mono False.elim
  | handleAbort =>
    simp only [call, Ends_bind, Ends_pure]
    exact handle_abort_ends fun r => hempty _

end Calls

theorem LocalStorage.IsEmpty.eq {ls : LocalStorage V m} (h : ls.IsEmpty) : ls = {} := by
  obtain ⟨hw, hr, ha, hrm⟩ := h
  cases ls
  simp only at hw hr ha hrm
  simp only [LocalStorage.mk.injEq]
  exact ⟨hw, hr, funext ha, funext hrm⟩

/-! ## The flag `readOnly` -/

/-- The two differ in `readOnly` only, and nothing is to be written. -/
structure Twins (c c' : Ctx K V m) : Prop where
  shared : c'.shared = c.shared
  storage : c'.storage = c.storage
  transaction : c'.transaction = { c.transaction with readOnly := c'.transaction.readOnly }
  writeSet : c.storage.writeSet = ∅
  indexAdd : ∀ l, c.storage.indexAdd l = []
  indexRemove : ∀ l, c.storage.indexRemove l = []

theorem Twins.invisible : Invisible (Twins : Ctx K V m → Ctx K V m → Prop) where
  shared h := h.shared
  writeSet h := by rw [h.storage]
  readVersion h := by rw [h.transaction]
  set s h := ⟨rfl, h.storage, h.transaction, h.writeSet, h.indexAdd, h.indexRemove⟩
  close h := ⟨h.shared, h.storage, by rw [h.transaction], h.writeSet, h.indexAdd, h.indexRemove⟩
  read n h := ⟨h.shared, by rw [h.storage], h.transaction, h.writeSet, h.indexAdd, h.indexRemove⟩

/-- The two are the same, but for `readOnly` as long as nothing is to be written. -/
def Twinned (c c' : Ctx K V m) : Prop := c' = c ∨ Twins c c'

section Twins

variable {c c' : Ctx K V m} [LinearOrder K] {ch : Choice}

omit [LinearOrder K] in
theorem Twins.of_steady {α : Type} {x : Call K V m α} (h : Twins c c') (hx : Steady Twins x) :
    Alike Twinned x c c' :=
  (hx c c' h).mono fun _ _ ht => .inr ht

omit [LinearOrder K] in
theorem Twins.writing (h : Twins c c') : c'.writing = c.writing := by
  simp only [Ctx.writing, h.shared, h.storage]
  rw [h.transaction]

omit [LinearOrder K] in
theorem Twins.access {α : Type} {x y : Call K V m α} (h : Twins c c')
    (hx : Alike Twinned x c c') (hy : Alike Twinned y c c') :
    Alike Twinned (do if (← get).transaction.TX then x else y) c c' := by
  have hT : c'.transaction.TX = c.transaction.TX := by rw [h.transaction]
  have hget : ∀ d : Ctx K V m, (do if (← get).transaction.TX then x else y : Call K V m α) d
      = if d.transaction.TX then x d else y d := by
    intro d
    simp only [bind, EStateM.bind, get_apply]
    split_ifs <;> rfl
  simp only [Alike, hget, hT] at hx hy ⊢
  split_ifs
  · exact hx
  · exact hy

/-- A list operation of the thread ends alike. -/
theorem Twins.call_alike {op : Op K V m} (h : Twins c c') (hop : op.isAccess = true) :
    Alike Twinned (call ch op) c c' := by
  have hret : ∀ {α β : Type} {x : Call K V m α} {f : α → β}, Alike Twinned x c c' →
      Alike Twinned (do return f (← x)) c c' := fun hx =>
    hx.bind fun _ _ _ ht => ⟨rfl, ht⟩
  have hwrite : ∀ {α : Type} {x : Call K V m α}, Alike Twinned
      (do modifyTransaction ({ · with readOnly := false }); x) c c' := by
    intro α x
    show Alike Twinned x c.writing c'.writing
    rw [h.writing]
    exact .refl fun _ => .inl rfl
  have hT := Twins.invisible (K := K) (V := V) (m := m)
  cases op with
  | txBegin | txEnd | handleAbort => simp [Op.isAccess] at hop
  | put l key val =>
    exact hret (h.access hwrite (h.of_steady (hT.putSingletonLoop _ l key _ val _)))
  | remove l key => exact hret (h.access hwrite (h.of_steady (hT.removeSingletonLoop _ l key _)))
  | get l key =>
    exact hret (h.access (h.of_steady (hT.getTX _ l key)) (h.of_steady (hT.getSingleton _ l key)))
  | containsKey l key =>
    refine hret (hret ?_)
    exact h.access (h.of_steady (hT.getTX _ l key)) (h.of_steady (hT.getSingleton _ l key))

omit [LinearOrder K] in
theorem Invisible.validateReadSet {R : Ctx K V m → Ctx K V m → Prop} (h : Invisible R)
    (locked : List NodeId) : ∀ ns : List NodeId,
    Steady R (validateReadSet locked ns : Call K V m Bool)
  | [] => .pure _
  | n :: ns => by
    refine .bind (h.node n) fun x => .get_bind (fun c c' hc => by simp only [h.readVersion hc])
      fun c => .ite (.pure _) (.ite (.pure _) (.ite ?_ (Invisible.validateReadSet h locked ns)))
    exact .bind h.incrementAndGetVersion fun _ => .bind (h.lockedUpdate n _) fun _ => .pure _

omit [LinearOrder K] in
theorem forLists_nothing {f : ListId m → Call K V m Unit} (hf : ∀ l, f l = pure ()) :
    ∀ ls : List (ListId m), forLists f ls = pure ()
  | [] => rfl
  | l :: ls => by
    simp only [forLists, hf l, forLists_nothing hf ls]
    rfl

theorem updateIndex_nothing (ha : ∀ l, c.storage.indexAdd l = [])
    (hr : ∀ l, c.storage.indexRemove l = []) : updateIndex ch c = .ok () c := by
  have hadd : forLists (K := K) (V := V)
      (fun l => addToIndex ch.fuel ch.level l (c.storage.indexAdd l)) (List.finRange m) = pure () :=
    forLists_nothing (fun l => by rw [ha l]; rfl) _
  have hrem : forLists (K := K) (V := V)
      (fun l => removeFromIndex ch.fuel l (c.storage.indexRemove l)) (List.finRange m) = pure () :=
    forLists_nothing (fun l => by rw [hr l]; rfl) _
  simp only [updateIndex, bind, EStateM.bind, get_apply, hadd, hrem]
  rfl

/-- `TXend` when nothing is to be written. -/
theorem TXend_of_unwritten (ho : ch.Orders c.storage) (hw : c.storage.writeSet = ∅)
    (ha : ∀ l, c.storage.indexAdd l = []) (hr : ∀ l, c.storage.indexRemove l = [])
    (hT : c.transaction.TX = true) (hrv : c.transaction.readVersion ≤ c.shared.gvc) :
    TXend ch c = match validateReadSet [] ch.readOrder c with
      | .error e d => .error e d
      | .ok true d => .error .txAbort d.cleaned
      | .ok false d => .ok true (if c.transaction.readOnly then d else
          { d with
            shared := { d.shared with gvc := d.shared.gvc + 1 }
            transaction := { d.transaction with writeVersion := d.shared.gvc + 1 } }).cleaned := by
  have hnil : ch.writeOrder = [] := by
    have := ho.1
    rw [hw] at this
    exact List.perm_nil.1 this
  simp only [TXend, TXendWith, hnil, bind, EStateM.bind, get_apply, hT, if_true,
    lockWriteSet, pure, EStateM.pure, Bool.false_eq_true, if_false, unlockAll]
  rcases hv : validateReadSet [] ch.readOrder c with ⟨_ | _, d⟩ | ⟨e, d⟩
  · have hd : Ends (validateReadSet [] ch.readOrder) c (fun b d => b = false → d = c)
        fun _ _ => True :=
      validateReadSet_ends ch.readOrder (fun _ _ => rfl) (by simp) (by simp) (by simp)
    obtain rfl := hd.ok hv rfl
    rcases hro : d.transaction.readOnly with _ | _
    · have hcommit : commitWrites ch d = .ok () { d with
          shared := { d.shared with gvc := d.shared.gvc + 1 }
          transaction := { d.transaction with writeVersion := d.shared.gvc + 1 } } := by
        have hlt : d.transaction.readVersion < d.shared.gvc + 1 := by omega
        simp only [commitWrites, hnil, bind, EStateM.bind, incrementAndGetVersion, modify_apply,
          getVersion, get_apply, pure, EStateM.pure, assert, hlt, decide_true, if_true, modifyTransaction,
          writeBackSet]
      have hidx : ∀ (s : Shared K V m) (t : LocalTransaction),
          updateIndex ch ⟨s, d.storage, t⟩ = .ok () ⟨s, d.storage, t⟩ := fun s t =>
        updateIndex_nothing ha hr
      simp only [hro, Bool.not_false, Bool.and_self, if_true, EStateM.bind, hcommit, EStateM.pure]
      rw [hidx]
      rfl
    · rfl
  · rfl
  · rfl

/-- What is shared is the same but for the clock. -/
def SameBut (c c' : Ctx K V m) : Prop := c'.shared = { c.shared with gvc := c'.shared.gvc }

/-- `TXend` ends alike, but for the clock. -/
theorem Twins.TXend_alike (h : Twins c c') (ho : ch.Orders c.storage)
    (hrv : c.transaction.readVersion ≤ c.shared.gvc) :
    Alike SameBut (TXend ch) c c' := by
  have hT : c'.transaction.TX = c.transaction.TX := by rw [h.transaction]
  rcases hTX : c.transaction.TX with _ | _
  · rw [hTX] at hT
    simp only [Alike, TXend, TXendWith, bind, EStateM.bind, get_apply, hTX, hT]
    refine ⟨rfl, ?_⟩
    show c'.shared = { c.shared with gvc := c'.shared.gvc }
    rw [h.shared]
  rw [hTX] at hT
  have hv := Twins.invisible.validateReadSet [] ch.readOrder c c' h
  have ho' : ch.Orders c'.storage := by rwa [h.storage]
  simp only [Alike] at hv ⊢
  rw [TXend_of_unwritten ho h.writeSet h.indexAdd h.indexRemove hTX hrv,
    TXend_of_unwritten ho' (by rw [h.storage]; exact h.writeSet) (by rw [h.storage]; exact h.indexAdd)
      (by rw [h.storage]; exact h.indexRemove) hT (by rw [h.transaction, h.shared]; exact hrv)]
  rcases hd : validateReadSet [] ch.readOrder c with ⟨b, d⟩ | ⟨e, d⟩ <;>
    rcases hd' : validateReadSet [] ch.readOrder c' with ⟨b', d'⟩ | ⟨e', d'⟩ <;>
    simp only [hd, hd'] at hv ⊢
  · obtain ⟨rfl, hv⟩ := hv
    rcases b' with _ | _
    · refine ⟨rfl, ?_⟩
      simp only [SameBut, Ctx.cleaned]
      split_ifs <;> simp only [hv.shared]
    · refine ⟨rfl, ?_⟩
      simp only [SameBut, Ctx.cleaned, hv.shared]
  · refine ⟨hv.1, ?_⟩
    simp only [SameBut, hv.2.shared]

end Twins

/-! ## Runs after `TXbegin` -/

section Runs

variable [LinearOrder K]

/-- The calls in turn, as far as they return, with what they return. -/
def Sys.exec : Sys K V m → List (ThreadId × Op K V m × Choice) → Option (Sys K V m × List (Ret V))
  | σ, [] => some (σ, [])
  | σ, (t, op, ch) :: calls => do
    let (σ₁, ret) ← σ.step t op ch
    let (σ₂, rets) ← exec σ₁ calls
    return (σ₂, ret :: rets)

/-- The calls are ones of thread `t`'s open transaction, and calls of the other threads. -/
def Within (t : ThreadId) : Sys K V m → List (ThreadId × Op K V m × Choice) → Prop
  | _, [] => True
  | σ, (u, op, ch) :: calls => (u = t → op.isAccess = true) ∧
    (op = .txEnd → ch.Orders (σ.threads u).storage) ∧
    ∀ σ₁ ret, σ.step u op ch = some (σ₁, ret) → Within t σ₁ calls

/-- Thread `t`'s transaction goes the same way from both: the same calls, of `t` and of the others
between them, return the same, and so does `TXend` after them, which validates the same nodes and
leaves the same in the shared memory but for the clock. -/
def NoTrace (t : ThreadId) (σ σ' : Sys K V m) : Prop :=
  ∀ calls, Within t σ calls → Option.Rel (fun x x' => x'.2 = x.2 ∧
    (x'.1.threads t).storage.readSet = (x.1.threads t).storage.readSet ∧
    ∀ ch : Choice, ch.Orders (x.1.threads t).storage → Option.Rel (fun y y' => y'.2 = y.2 ∧
      y'.1.shared = { y.1.shared with gvc := y'.1.shared.gvc })
      (x.1.step t .txEnd ch) (x'.1.step t .txEnd ch)) (σ.exec calls) (σ'.exec calls)

/-- Thread `t` with nothing in its local storage. -/
def Sys.forget (σ : Sys K V m) (t : ThreadId) : Sys K V m :=
  σ.put t ⟨σ.shared, {}, { (σ.threads t).transaction with readOnly := true }⟩

/-- The two differ in thread `t`, if at all, as twins do. -/
structure SysTwins (t : ThreadId) (σ σ' : Sys K V m) : Prop where
  shared : σ'.shared = σ.shared
  others : ∀ u, u ≠ t → σ'.threads u = σ.threads u
  own : Twinned (σ.ctx t) (σ'.ctx t)

variable {σ σ' : Sys K V m} {t u : ThreadId} {op : Op K V m} {ch : Choice}

omit [LinearOrder K] in
theorem rel_mono {α β : Type} {r r' : α → β → Prop} {o : Option α} {o' : Option β}
    (h : Option.Rel r o o') (hr : ∀ x y, r x y → r' x y) : Option.Rel r' o o' := by
  cases h with
  | some h => exact .some (hr _ _ h)
  | none => exact .none

omit [LinearOrder K] in
theorem rel_bind {α α' β β' : Type} {r : α → α' → Prop} {r' : β → β' → Prop} {o : Option α}
    {o' : Option α'} {f : α → Option β} {g : α' → Option β'} (h : Option.Rel r o o')
    (hf : ∀ x y, o = some x → r x y → Option.Rel r' (f x) (g y)) :
    Option.Rel r' (o >>= f) (o' >>= g) := by
  cases h with
  | some h => exact hf _ _ rfl h
  | none => exact .none

theorem Sys.step_alike {R : Ctx K V m → Ctx K V m → Prop}
    (h : Alike R (call ch op) (σ.ctx u) (σ'.ctx u)) : Option.Rel (fun x x' => x'.2 = x.2 ∧
      ∃ d d', R d d' ∧ x.1 = σ.put u d ∧ x'.1 = σ'.put u d') (σ.step u op ch) (σ'.step u op ch) := by
  simp only [Alike] at h
  simp only [Sys.step]
  rcases hc : call ch op (σ.ctx u) with ⟨r, d⟩ | ⟨e, d⟩ <;>
    rcases hc' : call ch op (σ'.ctx u) with ⟨r', d'⟩ | ⟨e', d'⟩ <;> simp only [hc, hc'] at h
  · exact .some ⟨h.1, d, d', h.2, rfl, rfl⟩
  · obtain ⟨rfl, h⟩ := h
    rcases e' with _ | _ | _ | _
    · exact .some ⟨rfl, d, d', h, rfl, rfl⟩
    all_goals exact .none

/-- A step keeps the two alike. -/
theorem SysTwins.step (h : SysTwins t σ σ') (hop : u = t → op.isAccess = true) :
    Option.Rel (fun x x' => x'.2 = x.2 ∧ SysTwins t x.1 x'.1) (σ.step u op ch) (σ'.step u op ch) := by
  have halike : Alike (fun d d' => d'.shared = d.shared ∧ (u ≠ t → d' = d) ∧
      (u = t → Twinned d d')) (call ch op) (σ.ctx u) (σ'.ctx u) := by
    by_cases hu : u = t
    · subst hu
      rcases h.own with he | ht
      · rw [he]
        exact .refl fun d => ⟨rfl, fun _ => rfl, fun _ => .inl rfl⟩
      · refine (ht.call_alike (hop rfl)).mono fun d d' hd => ⟨?_, fun hne => absurd rfl hne, fun _ => hd⟩
        rcases hd with rfl | hd
        · rfl
        · exact hd.shared
    · have he : σ'.ctx u = σ.ctx u := by simp only [Sys.ctx, h.shared, h.others u hu]
      rw [he]
      exact .refl fun d => ⟨rfl, fun _ => rfl, fun he => absurd he hu⟩
  refine rel_mono (Sys.step_alike halike) ?_
  rintro ⟨τ, r⟩ ⟨τ', r'⟩ ⟨hr, d, d', ⟨hs, hne, heq⟩, rfl, rfl⟩
  refine ⟨hr, hs, fun v hv => ?_, ?_⟩
  · by_cases hvu : v = u
    · subst hvu
      rw [hne hv]
      simp
    · rw [Sys.put_threads_ne _ _ hvu, Sys.put_threads_ne _ _ hvu]
      exact h.others v hv
  · by_cases hu : u = t
    · subst hu
      simpa using heq rfl
    · rw [Sys.ctx_put_ne _ _ (Ne.symm hu), Sys.ctx_put_ne _ _ (Ne.symm hu), hs]
      rcases h.own with he | ht
      · exact .inl (by rw [he])
      · exact .inr (Twins.invisible.set _ ht)

/-- So does a whole run. -/
theorem SysTwins.exec : ∀ (calls : List (ThreadId × Op K V m × Choice)) {σ σ' : Sys K V m},
    SysTwins t σ σ' → σ.Sane → Within t σ calls → Option.Rel (fun x x' => x'.2 = x.2 ∧
      SysTwins t x.1 x'.1 ∧ x.1.Sane) (σ.exec calls) (σ'.exec calls)
  | [], σ, σ', h, hs, _ => .some ⟨rfl, h, hs⟩
  | (u, op, ch) :: calls, σ, σ', h, hs, ⟨hop, ho, hw⟩ => by
    refine rel_bind (h.step hop) ?_
    rintro ⟨σ₁, r⟩ ⟨σ₁', r'⟩ h₁ ⟨hr, hT⟩
    refine rel_bind (SysTwins.exec calls hT (Sys.step_framed hs ho h₁).sane (hw σ₁ r h₁)) ?_
    rintro ⟨τ, rs⟩ ⟨τ', rs'⟩ - ⟨hrs, hT', hs'⟩
    exact .some ⟨by rw [show r' = r from hr, show rs' = rs from hrs], hT', hs'⟩

theorem SysTwins.noTrace (h : SysTwins t σ σ') (hs : σ.Sane) : NoTrace t σ σ' := by
  intro calls hw
  refine rel_mono (h.exec calls hs hw) ?_
  rintro ⟨τ, rs⟩ ⟨τ', rs'⟩ ⟨hrs, hT, hsane⟩
  have hst : (τ'.threads t).storage = (τ.threads t).storage := by
    rcases hT.own with he | ht
    · exact congrArg Ctx.storage he
    · exact ht.storage
  refine ⟨hrs, by rw [hst], fun ch ho => ?_⟩
  have halike : Alike SameBut (call ch .txEnd) (τ.ctx t) (τ'.ctx t) := by
    rcases hT.own with he | ht
    · rw [he]
      exact .refl fun _ => rfl
    · exact (ht.TXend_alike ho (hsane t).readVersion).bind fun _ _ _ hd => ⟨rfl, hd⟩
  refine rel_mono (Sys.step_alike halike) ?_
  rintro ⟨ω, r⟩ ⟨ω', r'⟩ ⟨hr, d, d', hd, rfl, rfl⟩
  exact ⟨hr, hd⟩

variable {C C₁ C₂ C₃ : Conf K V m} {ret : Ret V} {minKey : K} {dflt : V}

theorem Conf.Step.tied (hst : C.Step u op ret C₁) (hs : C.sys.Sane) (h : ∀ t, (C.sys.ctx t).Tied) :
    ∀ t, (C₁.sys.ctx t).Tied := by
  obtain ⟨ch, ho, hstep, -⟩ := hst
  intro t
  by_cases hu : t = u
  · subst hu
    obtain ⟨c, hc, hT | ⟨-, hT⟩⟩ := Sys.step_of_ends (call_tied op (hs t) ho (h t)) hstep
    · rw [hc, Sys.ctx_put_self]
      exact hT
    · rw [hc, Sys.ctx_put_self]
      exact hT
  · have hthr := (Sys.step_framed hs ho hstep).threads t hu
    intro he
    simp only [Sys.ctx, hthr] at he ⊢
    exact h t he

/-- The transaction that `TXbegin` opens after an aborted attempt goes as if the thread had nothing
in its local storage, if and only if nothing is in its read set then. -/
theorem retry_noTrace_iff (hr : Conf.Reach minKey dflt Conf.anyStep C)
    (hst : C.Step t op .aborted C₁) (hrun : C₁.Run (fun _ u _ => u ≠ t) C₂)
    (hb : C₂.Step t .txBegin ret C₃) :
    NoTrace t C₃.sys (C₃.sys.forget t) ↔ (C₂.sys.threads t).storage.readSet = ∅ := by
  have hJ : ∀ {G : Conf.Guard K V m} {C C' : Conf K V m}, C.Run G C' →
      (C.sys.Sane ∧ ∀ t, (C.sys.ctx t).Tied) → C'.sys.Sane ∧ ∀ t, (C'.sys.ctx t).Tied :=
    fun hr h => hr.keeps (J := fun C => C.sys.Sane ∧ ∀ t, (C.sys.ctx t).Tied) h
      fun h _ hst => ⟨(hst.framed h.1).sane, hst.tied h.1 h.2⟩
  have h₀ := hJ hr ⟨Sys.sane_init minKey dflt, fun t _ => ⟨rfl, rfl, fun _ => rfl, fun _ => rfl⟩⟩
  have h₂ := hJ hrun ⟨(hst.framed h₀.1).sane, hst.tied h₀.1 h₀.2⟩
  have h₃ : C₃.sys.Sane := (hb.framed h₂.1).sane
  have hstore : (C₃.sys.threads t).storage = (C₂.sys.threads t).storage := by
    obtain ⟨ch, -, hs, -⟩ := hb
    have hends : Ends (call ch .txBegin) (C₂.sys.ctx t)
        (fun _ c => c.storage = (C₂.sys.threads t).storage) (OnAbort fun _ => False) := by
      simp only [call, TXbegin, Ends_bind, Ends_getVersion, Ends_modifyTransaction, Ends_pure]
      rfl
    obtain ⟨c, hc, hE | ⟨-, hE⟩⟩ := Sys.step_of_ends hends hs
    · rw [hc]
      simpa using hE
    · exact hE.elim
  constructor
  · intro h
    rcases h [] trivial with ⟨-, hread, -⟩
    rw [← hstore, ← hread]
    simp [Sys.forget]
  · intro he
    have hempty : (C₃.sys.threads t).storage.IsEmpty := by
      rw [hstore]
      exact h₂.2 t he
    refine SysTwins.noTrace ⟨rfl, fun u hu => Sys.put_threads_ne _ _ hu, .inr ?_⟩ h₃
    rw [Sys.forget, Sys.ctx_put_self]
    exact ⟨rfl, hempty.eq.symm, rfl, hempty.1, hempty.2.2.1, hempty.2.2.2⟩

/-- A `put` whose search meets a commit throws before it records anything; the retry starts clean. -/
theorem retry_noTrace_iff_first_call : ∃ C C₁ C₂ : Conf Nat Nat 1,
    Conf.Reach 0 0 Conf.anyStep C ∧ C.Step 0 (.put 0 5 9) .aborted C₁ ∧
    C₁.Step 0 .txBegin .unit C₂ ∧ NoTrace 0 C₂.sys (C₂.sys.forget 0) := by
  obtain ⟨C, hr, hI, hp⟩ := Conf.exists_reach_of_decidable (G := Conf.anyStep) 0 0 2
    [(0, .txBegin), (1, .txBegin), (1, .put 0 5 3), (1, .txEnd)]
    (fun C : Conf Nat Nat 1 => C.after 0 (.put 0 5 9) .aborted fun C₁ : Conf Nat Nat 1 =>
      decide ((C₁.sys.threads 0).storage.readSet = ∅) && C₁.returns 0 .txBegin .unit)
    (by decide +kernel)
  obtain ⟨C₁, hst, -, hp₁⟩ := Conf.exists_step hI (by decide) hp
  rw [Bool.and_eq_true, decide_eq_true_eq] at hp₁
  obtain ⟨C₂, hb⟩ := Conf.step_of_returns hp₁.2
  exact ⟨C, C₁, C₂, hr, hst, hb, (retry_noTrace_iff hr hst .refl hb).2 hp₁.1⟩

/-- An attempt has put a key when its next call throws. The retry calls `TXend` right away, which
commits the aborted attempt's `put`. -/
theorem retry_commits_aborted : ∃ C C₁ C₂ C₃ : Conf Nat Nat 1,
    Conf.Reach 0 0 Conf.anyStep C ∧ C.inTX 0 = true ∧ C.Step 0 (.get 0 8) .aborted C₁ ∧
    C₁.Step 0 .txBegin .unit C₂ ∧ C₂.Step 0 .txEnd (.bool true) C₃ ∧
    C₂.sys.shared.lookup 0 5 = none ∧ C₃.sys.shared.lookup 0 5 = some 3 ∧
    ¬ NoTrace 0 C₂.sys (C₂.sys.forget 0) := by
  obtain ⟨C, hr, hI, hp⟩ := Conf.exists_reach_of_decidable (G := Conf.anyStep) 0 0 2
    [(1, .txBegin), (1, .put 0 7 7), (1, .txEnd), (0, .txBegin), (0, .put 0 5 3), (1, .txBegin),
      (1, .put 0 8 8), (1, .txEnd)]
    (fun C : Conf Nat Nat 1 => C.inTX 0 && C.after 0 (.get 0 8) .aborted fun C₁ : Conf Nat Nat 1 =>
      C₁.after 0 .txBegin .unit fun C₂ : Conf Nat Nat 1 =>
        decide (C₂.sys.shared.lookup 0 5 = none) && decide (0 ∈ (C₂.sys.threads 0).storage.readSet) &&
        C₂.after 0 .txEnd (.bool true) fun C₃ : Conf Nat Nat 1 =>
          decide (C₃.sys.shared.lookup 0 5 = some 3)) (by decide +kernel)
  rw [Bool.and_eq_true] at hp
  obtain ⟨C₁, hst, hI₁, hp₁⟩ := Conf.exists_step hI (by decide) hp.2
  obtain ⟨C₂, hb, hI₂, hp₂⟩ := Conf.exists_step hI₁ (by decide) hp₁
  simp only [Bool.and_eq_true, decide_eq_true_eq] at hp₂
  obtain ⟨⟨hnone, hread⟩, hp₂⟩ := hp₂
  obtain ⟨C₃, hend, -, hp₃⟩ := Conf.exists_step hI₂ (by decide) hp₂
  refine ⟨C, C₁, C₂, C₃, hr, hp.1, hst, hb, hend, hnone, of_decide_eq_true hp₃, fun h => ?_⟩
  rcases h [] trivial with ⟨-, he, -⟩
  rw [← he] at hread
  simp [Sys.forget] at hread

end Runs

end TxList
