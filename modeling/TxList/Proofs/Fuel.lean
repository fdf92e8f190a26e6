import TxList.System
import TxList.Lib.Fuel

/-!
# A call with more fuel

Fuel bounds the loops of a call and nothing else: a call that does not run out of it does the same
with more. So the fuel a call needs can be found step by step.
-/

namespace TxList

open Prog

variable {K V : Type} [LinearOrder K] {m : Nat}

/-! ## The index -/

namespace Index

variable {v : NodeView K} {key : K} {fuel fuel' : Nat}

theorem walkLevel_fuel : ∀ {fuel fuel' : Nat} {ix : Index} {q : IdxId}
    {r : Index × Option (IdxId × Option IdxId)}, fuel ≤ fuel' →
    walkLevel v key fuel ix q = some r → walkLevel v key fuel' ix q = some r
  | 0, _, _, _, _, _, h => by simp [walkLevel] at h
  | fuel + 1, 0, _, _, _, hle, _ => by omega
  | fuel + 1, fuel' + 1, ix, q, r, hle, h => by
    have hle : fuel ≤ fuel' := by omega
    simp only [walkLevel] at h ⊢
    split at h
    · exact h
    · split_ifs at h ⊢
      · split at h
        · exact walkLevel_fuel hle h
        · exact h
      · exact walkLevel_fuel hle h
      · exact h

theorem walkUntil_fuel (hf : fuel ≤ fuel') {levelHead : IdxId} : ∀ {n n' : Nat} {ix : Index}
    {curr : IdxId} {r : Index × IdxId × IdxId × Option IdxId}, n ≤ n' →
    walkUntil v key fuel levelHead n ix curr = some r →
    walkUntil v key fuel' levelHead n' ix curr = some r
  | 0, _, _, _, _, _, h => by simp [walkUntil] at h
  | n + 1, 0, _, _, _, hle, _ => by omega
  | n + 1, n' + 1, ix, curr, r, hle, h => by
    have hle : n ≤ n' := by omega
    simp only [walkUntil] at h ⊢
    rcases hw : walkLevel v key fuel ix curr with _ | ⟨ix₁, _ | ⟨prev, next⟩⟩
    · simp [hw] at h
    · rw [walkLevel_fuel hf hw]
      simp only [hw] at h
      exact walkUntil_fuel hf hle h
    · rw [walkLevel_fuel hf hw]
      simpa only [hw] using h

theorem descend_fuel (hf : fuel ≤ fuel') : ∀ {n n' : Nat} {ix : Index} {levelHead curr : IdxId}
    {level : Nat} {points : List (IdxId × Option IdxId)}
    {r : Index × List (IdxId × Option IdxId)}, n ≤ n' →
    descend v key fuel n ix levelHead curr level points = some r →
    descend v key fuel' n' ix levelHead curr level points = some r
  | 0, _, _, _, _, _, _, _, _, h => by simp [descend] at h
  | n + 1, 0, _, _, _, _, _, _, hle, _ => by omega
  | n + 1, n' + 1, ix, levelHead, curr, level, points, r, hle, h => by
    have hle : n ≤ n' := by omega
    simp only [descend] at h ⊢
    split_ifs at h ⊢
    · exact descend_fuel hf hle h
    · rcases hw : walkUntil v key fuel levelHead fuel ix curr with _ | ⟨ix₁, curr₁, prev, next⟩
      · simp [hw] at h
      · rw [walkUntil_fuel hf hf hw]
        simp only [hw] at h ⊢
        split_ifs at h ⊢
        · exact descend_fuel hf hle h
        · split at h
          · exact h
          · simp at h
          · exact descend_fuel hf hle h
          · exact descend_fuel hf hle h

theorem findInsertionPoints_fuel (hf : fuel ≤ fuel') {ix : Index}
    {r : Index × List (IdxId × Option IdxId)} (h : findInsertionPoints v key fuel ix = some r) :
    findInsertionPoints v key fuel' ix = some r :=
  descend_fuel hf hf h

theorem findPredecessor_fuel (hf : fuel ≤ fuel') {ix : Index} {r : Index × NodeId}
    (h : findPredecessor v key fuel ix = some r) : findPredecessor v key fuel' ix = some r := by
  simp only [findPredecessor] at h ⊢
  rcases hw : findInsertionPoints v key fuel ix with _ | x
  · simp [hw] at h
  · rw [findInsertionPoints_fuel hf hw]
    simpa only [hw] using h

theorem getPredLoop_fuel (hf : fuel ≤ fuel') : ∀ {n n' : Nat} {ix : Index} {r : Index × NodeId},
    n ≤ n' → getPredLoop v key fuel n ix = some r → getPredLoop v key fuel' n' ix = some r
  | 0, _, _, _, _, h => by simp [getPredLoop] at h
  | n + 1, 0, _, _, hle, _ => by omega
  | n + 1, n' + 1, ix, r, hle, h => by
    have hle : n ≤ n' := by omega
    simp only [getPredLoop] at h ⊢
    rcases hw : findPredecessor v key fuel ix with _ | ⟨ix₁, b⟩
    · simp [hw] at h
    · rw [findPredecessor_fuel hf hw]
      simp only [hw] at h ⊢
      split_ifs at h ⊢
      · exact h
      · exact getPredLoop_fuel hf hle h

theorem insertInLevel_fuel (hf : fuel ≤ fuel') {newNode head : IdxId} : ∀ {n n' : Nat} {ix : Index}
    {prev : IdxId} {next : Option IdxId} {r : Index × Bool}, n ≤ n' →
    insertInLevel v fuel newNode head n ix prev next = some r →
    insertInLevel v fuel' newNode head n' ix prev next = some r
  | 0, _, _, _, _, _, _, h => by simp [insertInLevel] at h
  | n + 1, 0, _, _, _, _, hle, _ => by omega
  | n + 1, n' + 1, ix, prev, next, r, hle, h => by
    have hle : n ≤ n' := by omega
    simp only [insertInLevel] at h ⊢
    split at h
    · exact h
    · rename_i ix₁ _
      split_ifs at h ⊢
      · exact h
      · rcases hw : walkUntil v (v.key (ix₁.nodes newNode).node) fuel head fuel ix₁ head with
          _ | ⟨ix₂, c, prev₁, next₁⟩
        · simp [hw] at h
        · rw [walkUntil_fuel hf hf hw]
          simp only [hw] at h ⊢
          exact insertInLevel_fuel hf hle h

theorem insertLevels_fuel (hf : fuel ≤ fuel') {idxs : List IdxId}
    {points : List (IdxId × Option IdxId)} {level : Nat} : ∀ {n n' : Nat} {ix : Index}
    {head : Option IdxId} {linked : Nat} {r : Index × Option Nat}, n ≤ n' →
    insertLevels v fuel idxs points level n ix head linked = some r →
    insertLevels v fuel' idxs points level n' ix head linked = some r
  | 0, _, _, _, _, _, _, h => by simp [insertLevels] at h
  | n + 1, 0, _, _, _, _, hle, _ => by omega
  | n + 1, n' + 1, ix, none, linked, r, hle, h => by simpa only [insertLevels] using h
  | n + 1, n' + 1, ix, some head, linked, r, hle, h => by
    have hle : n ≤ n' := by omega
    simp only [insertLevels] at h ⊢
    split_ifs at h ⊢
    · split at h
      · rename_i i prev next _ _
        rcases hw : insertInLevel v fuel i head fuel ix prev next with _ | ⟨ix₁, _ | _⟩
        · simp [hw] at h
        · rw [insertInLevel_fuel hf hf hw]
          simpa only [hw] using h
        · rw [insertInLevel_fuel hf hf hw]
          simp only [hw] at h ⊢
          exact insertLevels_fuel hf hle h
      · simp at h
    · exact h

theorem add_fuel (hf : fuel ≤ fuel') {drawn : Nat} {n : NodeId} {ix ix' : Index}
    (h : add v fuel drawn n ix = some ix') : add v fuel' drawn n ix = some ix' := by
  simp only [add] at h ⊢
  rcases hw : findInsertionPoints v (v.key n) fuel ix with _ | ⟨ix₁, points⟩
  · simp [hw] at h
  · rw [findInsertionPoints_fuel hf hw]
    simp only [hw] at h ⊢
    generalize hc : createNewIndexNodes n (min drawn (points.length + 1) + 1) none ix₁ = x at h ⊢
    obtain ⟨ix₂, idxs⟩ := x
    simp only at h ⊢
    rcases hi : insertLevels v fuel idxs points (min drawn (points.length + 1)) fuel ix₂
      (some ix₂.headBottom) 0 with _ | y
    · simp [hi] at h
    · rw [insertLevels_fuel hf hf hi]
      simpa only [hi] using h

theorem remove_fuel (hf : fuel ≤ fuel') {n : NodeId} {ix ix' : Index}
    (h : remove v fuel n ix = some ix') : remove v fuel' n ix = some ix' := by
  simp only [remove] at h ⊢
  rcases hw : findPredecessor v (v.key n) fuel ix with _ | x
  · simp [hw] at h
  · rw [findPredecessor_fuel hf hw]
    simpa only [hw] using h

end Index

/-! ## The calls -/

section Calls

variable {l : ListId m} {key : K} {val : V} {level : NodeId → Nat} {fuel fuel' : Nat}

omit [LinearOrder K] in
theorem onIndex_below {α : Type} {f g : NodeView K → Index → Option (Index × α)}
    (h : ∀ v ix x, f v ix = some x → g v ix = some x) :
    Below .diverged (onIndex l f : Call K V m α) (onIndex l g) := by
  intro c
  simp only [onIndex, bind, EStateM.bind, get_apply]
  rcases hf : f c.shared.view (c.shared.index l) with _ | x
  · exact .inr ⟨c, rfl⟩
  · rw [h _ _ x hf]
    exact .inl rfl

variable (hf : fuel ≤ fuel')

include hf

theorem indexGetPred_below :
    Below .diverged (indexGetPred fuel l key : Call K V m NodeId) (indexGetPred fuel' l key) :=
  onIndex_below fun _ _ _ h => Index.getPredLoop_fuel hf hf h

theorem indexAdd_below (n : NodeId) :
    Below .diverged
      (onIndex l fun v ix => (ix.add v fuel (level n) n).map (·, ()) : Call K V m Unit)
      (onIndex l fun v ix => (ix.add v fuel' (level n) n).map (·, ())) := by
  refine onIndex_below fun v ix x h => ?_
  obtain ⟨ix', hix', rfl⟩ := Option.map_eq_some_iff.1 h
  rw [Index.add_fuel hf hix']
  rfl

theorem indexRemove_below (n : NodeId) :
    Below .diverged (onIndex l fun v ix => (ix.remove v fuel n).map (·, ()) : Call K V m Unit)
      (onIndex l fun v ix => (ix.remove v fuel' n).map (·, ())) := by
  refine onIndex_below fun v ix x h => ?_
  obtain ⟨ix', hix', rfl⟩ := Option.map_eq_some_iff.1 h
  rw [Index.remove_fuel hf hix']
  rfl

theorem getPredLoop_below : ∀ {n n' : Nat} (pred : NodeId), n ≤ n' →
    Below .diverged (getPredLoop fuel l n pred : Call K V m NodeId) (getPredLoop fuel' l n' pred)
  | 0, _, _, _ => .throw _
  | n + 1, 0, _, hle => by omega
  | n + 1, n' + 1, pred, hle => by
    have hle : n ≤ n' := by omega
    simp only [getPredLoop]
    refine .bind (.refl _) fun _ => .bind (.refl _) fun x => .bind (.refl _) fun c => ?_
    refine .ite (.bind (.refl _) fun _ => ?_) (.refl _)
    exact .bind (indexGetPred_below hf) fun p => getPredLoop_below p hle

omit hf in
theorem findLoop_below : ∀ {n n' : Nat} (pred : NodeId) (next : Option NodeId), n ≤ n' →
    Below .diverged (findLoop key n pred next : Call K V m _) (findLoop key n' pred next)
  | 0, _, _, _, _ => .throw _
  | n + 1, 0, _, _, hle => by omega
  | n + 1, n' + 1, pred, none, _ => .refl _
  | n + 1, n' + 1, pred, some next, hle => by
    have hle : n ≤ n' := by omega
    simp only [findLoop]
    refine .bind (.refl _) fun x => .ite (.refl _) (.ite (.refl _) ?_)
    exact .bind (.refl _) fun y => findLoop_below next y hle

theorem find_node_below :
    Below .diverged (find_node fuel l key : Call K V m _) (find_node fuel' l key) := by
  simp only [find_node, getPred]
  refine .bind (.bind (indexGetPred_below hf) fun p => getPredLoop_below hf p hf) fun pred => ?_
  exact .bind (.refl _) fun next => findLoop_below pred next hf

theorem putTX_below : Below .diverged (putTX fuel l key val) (putTX fuel' l key val) := by
  simp only [putTX]
  exact .bind (.refl _) fun _ => .bind (find_node_below hf) fun r => .refl _

theorem removeTX_below :
    Below .diverged (removeTX fuel l key : Call K V m (Option V)) (removeTX fuel' l key) := by
  simp only [removeTX]
  exact .bind (.refl _) fun _ => .bind (find_node_below hf) fun r => .refl _

theorem getTX_below :
    Below .diverged (getTX fuel l key : Call K V m (Option V)) (getTX fuel' l key) := by
  simp only [getTX]
  exact .bind (find_node_below hf) fun r => .refl _

theorem getPredSingletonLoop_below : ∀ {n n' : Nat} (pred : NodeId), n ≤ n' →
    Below .diverged (getPredSingletonLoop fuel l n pred : Call K V m NodeId)
      (getPredSingletonLoop fuel' l n' pred)
  | 0, _, _, _ => .throw _
  | n + 1, 0, _, hle => by omega
  | n + 1, n' + 1, pred, hle => by
    have hle : n ≤ n' := by omega
    simp only [getPredSingletonLoop]
    refine .bind (.refl _) fun x => .ite (.ite (.refl _) ?_) (.refl _)
    exact .bind (indexGetPred_below hf) fun p => getPredSingletonLoop_below p hle

omit hf in
theorem findSingletonLoop_below : ∀ {n n' : Nat} (pred : NodeId) (next : Option NodeId), n ≤ n' →
    Below .diverged (findSingletonLoop key n pred next : Call K V m _)
      (findSingletonLoop key n' pred next)
  | 0, _, _, _, _ => .throw _
  | n + 1, 0, _, _, hle => by omega
  | n + 1, n' + 1, pred, none, _ => .refl _
  | n + 1, n' + 1, pred, some next, hle => by
    have hle : n ≤ n' := by omega
    simp only [findSingletonLoop]
    refine .bind (.refl _) fun x => .ite (.refl _) (.ite (.refl _) (.ite (.refl _) ?_))
    refine .bind (.refl _) fun p => .ite (.refl _) (.bind (.refl _) fun q => ?_)
    split
    · exact .refl _
    · exact .bind (.refl _) fun r => .ite (.refl _) (findSingletonLoop_below _ _ hle)

theorem find_node_singelton_below : ∀ {n n' : Nat}, n ≤ n' →
    Below .diverged (find_node_singelton fuel l key n : Call K V m _)
      (find_node_singelton fuel' l key n')
  | 0, _, _ => .throw _
  | n + 1, 0, hle => by omega
  | n + 1, n' + 1, hle => by
    have hle : n ≤ n' := by omega
    have ih := find_node_singelton_below hle
    simp only [find_node_singelton, getPredSingleton]
    refine .bind (.bind (indexGetPred_below hf) fun p => getPredSingletonLoop_below hf p hf)
      fun pred => .bind (.refl _) fun x => .ite ih (.ite ih ?_)
    refine .bind (findSingletonLoop_below pred x.next hf) fun r => ?_
    split
    · exact ih
    · exact .refl _

section Update

variable {α : Type} {update update' : NodeId → Call K V m α}

omit [LinearOrder K] hf in
theorem insertSingletonWith_below (hu : ∀ n, Below .diverged (update n) (update' n)) (pred : NodeId)
    (next : Option NodeId) :
    Below .diverged (insertSingletonWith update key val pred next)
      (insertSingletonWith update' key val pred next) :=
  .bind (.refl _) fun n => .bind (.refl _) fun _ => .bind (.refl _) fun _ => .bind (.refl _) fun _ =>
    .bind (.refl _) fun _ => .bind (.refl _) fun _ => hu n

theorem putSingletonLoopWith_below (hu : ∀ n, Below .diverged (update n) (update' n)) :
    ∀ {n n' : Nat}, n ≤ n' →
    Below .diverged (putSingletonLoopWith update fuel l key val n)
      (putSingletonLoopWith update' fuel' l key val n')
  | 0, _, _ => .throw _
  | n + 1, 0, hle => by omega
  | n + 1, n' + 1, hle => by
    have hle : n ≤ n' := by omega
    have ih := putSingletonLoopWith_below hu hle
    simp only [putSingletonLoopWith]
    refine .bind (find_node_singelton_below hf hf) fun r => ?_
    split
    · refine .bind (.refl _) fun p => ?_
      split
      · refine .bind (.refl _) fun b => .ite (.bind (.refl _) fun x => .bind (.refl _) fun y => ?_) ih
        exact .ite (.bind (.refl _) fun _ => ih) (.refl _)
      · exact .refl _
    all_goals
      refine .bind (.refl _) fun b => .ite (.bind (.refl _) fun p => ?_) ih
      refine .ite (.bind (.refl _) fun _ => ih) ?_
      exact .bind (insertSingletonWith_below hu _ _) fun _ => .refl _

theorem removeSingletonLoopWith_below (hu : ∀ n, Below .diverged (update n) (update' n)) :
    ∀ {n n' : Nat}, n ≤ n' →
    Below .diverged (removeSingletonLoopWith update fuel l key n)
      (removeSingletonLoopWith update' fuel' l key n')
  | 0, _, _ => .throw _
  | n + 1, 0, hle => by omega
  | n + 1, n' + 1, hle => by
    have hle : n ≤ n' := by omega
    have ih := removeSingletonLoopWith_below hu hle
    simp only [removeSingletonLoopWith]
    refine .bind (find_node_singelton_below hf hf) fun r => ?_
    split
    · exact .refl _
    · refine .bind (.refl _) fun b => .ite (.bind (.refl _) fun p => ?_) ih
      refine .ite (.bind (.refl _) fun _ => ih) ?_
      split
      · exact .refl _
      · rename_i next
        refine .bind (.refl _) fun b => .ite (.bind (.refl _) fun x => .bind (.refl _) fun _ => ?_)
          (.bind (.refl _) fun _ => ih)
        refine .bind (.refl _) fun p => ?_
        split
        · exact .refl _
        · refine .bind (.refl _) fun _ => .bind (.refl _) fun _ => .bind (.refl _) fun _ =>
            .bind (.refl _) fun _ => .bind (.refl _) fun _ => .bind (.refl _) fun _ =>
            .bind (.refl _) fun _ => ?_
          exact .bind (hu next) fun _ => .refl _

end Update

theorem putSingletonLoop_below : ∀ {n n' : Nat}, n ≤ n' →
    Below .diverged (putSingletonLoop fuel level l key val n)
      (putSingletonLoop fuel' level l key val n') := fun hle =>
  .map (putSingletonLoopWith_below hf (indexAdd_below hf) hle) _

theorem removeSingletonLoop_below : ∀ {n n' : Nat}, n ≤ n' →
    Below .diverged (removeSingletonLoop fuel l key n : Call K V m (Option V))
      (removeSingletonLoop fuel' l key n') := fun hle =>
  .map (removeSingletonLoopWith_below hf
    (fun n => .bind (indexRemove_below hf n) fun _ => .refl _) hle) _

theorem getSingleton_below :
    Below .diverged (getSingleton fuel l key : Call K V m (Option V)) (getSingleton fuel' l key) := by
  simp only [getSingleton]
  exact .bind (find_node_singelton_below hf hf) fun r => .refl _

theorem getKey_below :
    Below .diverged (getKey fuel l key : Call K V m (Option V)) (getKey fuel' l key) := by
  simp only [getKey]
  exact .bind (.refl _) fun c => .ite (getTX_below hf) (getSingleton_below hf)

theorem addToIndex_below : ∀ ns : List NodeId,
    Below .diverged (addToIndex fuel level l ns : Call K V m Unit) (addToIndex fuel' level l ns)
  | [] => .refl _
  | n :: ns => .bind (indexAdd_below hf n) fun _ => addToIndex_below ns

theorem removeFromIndex_below : ∀ ns : List NodeId,
    Below .diverged (removeFromIndex fuel l ns : Call K V m Unit) (removeFromIndex fuel' l ns)
  | [] => .refl _
  | n :: ns => .bind (indexRemove_below hf n) fun _ => .bind (.refl _) fun _ =>
      removeFromIndex_below ns

omit [LinearOrder K] hf in
theorem forLists_below {f g : ListId m → Call K V m Unit} (h : ∀ l, Below .diverged (f l) (g l)) :
    ∀ ls : List (ListId m), Below .diverged (forLists f ls) (forLists g ls)
  | [] => .refl _
  | l :: ls => .bind (h l) fun _ => forLists_below h ls

omit hf in
/-- The same choices with another amount of fuel. -/
def Choice.withFuel (ch : Choice) (fuel : Nat) : Choice := { ch with fuel }

omit [LinearOrder K] hf in
theorem commitWrites_withFuel (ch : Choice) (fuel : Nat) :
    (commitWrites (ch.withFuel fuel) : Call K V m Unit) = commitWrites ch := rfl

omit hf in
theorem Choice.writeOrder_withFuel (ch : Choice) (fuel : Nat) :
    (ch.withFuel fuel).writeOrder = ch.writeOrder := rfl

omit hf in
theorem Choice.readOrder_withFuel (ch : Choice) (fuel : Nat) :
    (ch.withFuel fuel).readOrder = ch.readOrder := rfl

theorem updateIndex_below (ch : Choice) :
    Below .diverged (updateIndex (ch.withFuel fuel) : Call K V m Unit)
      (updateIndex (ch.withFuel fuel')) := by
  simp only [updateIndex, Choice.withFuel]
  refine .bind (.refl _) fun c => .bind (forLists_below (fun l => addToIndex_below hf _) _) fun _ => ?_
  exact forLists_below (fun l => removeFromIndex_below hf _) _

theorem TXend_below (ch : Choice) :
    Below .diverged (TXend (ch.withFuel fuel) : Call K V m Bool) (TXend (ch.withFuel fuel')) := by
  simp only [TXend, TXendWith, commitWrites_withFuel, Choice.writeOrder_withFuel,
    Choice.readOrder_withFuel]
  refine .bind (.refl _) fun c => .ite
    (.bind (.refl _) fun x => .ite (.bind (.refl _) fun a => ?_) (.bind (.refl _) fun a => ?_))
    (.bind (.refl _) fun x => .ite (.bind (.refl _) fun a => ?_) (.bind (.refl _) fun a => ?_))
  -- only `updateIndex` takes fuel
  all_goals
    refine .ite (.bind (.refl _) fun _ => .bind (.refl _) fun _ => ?_) (.bind (.refl _) fun _ => ?_)
    all_goals exact .ite (.bind (updateIndex_below hf ch) fun _ => .refl _) (.refl _)

/-- A call that does not run out of fuel does the same with more. -/
theorem call_below (ch : Choice) (op : Op K V m) :
    Below .diverged (call (ch.withFuel fuel) op) (call (ch.withFuel fuel') op) := by
  cases op with
  | txBegin => exact .refl _
  | put l key val =>
    simp only [call, put]
    refine .bind (.bind (.refl _) fun c => .ite (putTX_below hf) ?_) fun _ => .refl _
    exact putSingletonLoop_below hf hf
  | remove l key =>
    simp only [call, remove]
    refine .bind (.bind (.refl _) fun c => .ite (removeTX_below hf) ?_) fun _ => .refl _
    exact removeSingletonLoop_below hf hf
  | get l key => exact .bind (getKey_below hf) fun _ => .refl _
  | containsKey l key =>
    exact .bind (.bind (getKey_below hf) fun _ => .refl _) fun _ => .refl _
  | txEnd => exact .bind (TXend_below hf ch) fun _ => .refl _
  | handleAbort => exact .refl _

end Calls

/-! ## The fuel a call needs -/

/-- The only exception is `TxAbortException`. -/
def Throws (P : Ctx K V m → Prop) : Err → Ctx K V m → Prop
  | .txAbort, c => P c
  | _, _ => False

/-- A call that ends with some fuel ends with all fuel from there on. -/
theorem Sys.exists_fuel {σ : Sys K V m} {t : ThreadId} {op : Op K V m} {ch : Choice}
    {Q : Ret V → Ctx K V m → Prop} {P : Ctx K V m → Prop}
    (h : Settles (fun n => call (ch.withFuel n) op) (σ.ctx t) Q (Throws P)) :
    ∃ N, ∀ fuel, N ≤ fuel → (σ.step t op { ch with fuel }).isSome = true := by
  have hd : ∀ c : Ctx K V m, ¬ Throws P .diverged c := fun _ => id
  obtain ⟨N, hN⟩ := h.from (fun hn => call_below hn ch op) hd
  refine ⟨N, fun fuel hf => ?_⟩
  have hends := hN fuel hf
  simp only [Sys.step]
  rcases hc : call (ch.withFuel fuel) op (σ.ctx t) with ⟨r, c⟩ | ⟨e, c⟩
  · rw [show call { ch with fuel } op (σ.ctx t) = .ok r c from hc]
    rfl
  · rw [show call { ch with fuel } op (σ.ctx t) = .error e c from hc]
    have he := hends.error hc
    rcases e with _ | _ | _ | _
    · rfl
    all_goals exact he.elim

end TxList
