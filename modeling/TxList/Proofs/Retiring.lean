import TxList.Retiring
import TxList.Proofs.Leaks
import TxList.Proofs.Serial
import TxList.Proofs.IndexRuns

/-!
# A commit retires what it takes off the lists

Of the nodes on the lists and those a transaction has allocated, its commit leaves on the lists those
that it does not delete. It retires the deleted ones, each after the index has let go of it.
-/

namespace TxList

open Prog Chain

variable {K V : Type} [LinearOrder K] {m : Nat}

/-! ## Programs that agree -/

section Programs

variable {α β : Type} {u u' : Call K V m Unit} {c : Ctx K V m} {ch : Choice}

/-- `f` and `g` end alike if `u` and `u'` do wherever `k` stops. -/
def Alongside (u u' : Call K V m Unit) (f g k : Call K V m α) : Prop :=
  ∀ c, (∀ c', k c = .error .diverged c' → u c' = u' c') → f c = g c

namespace Alongside

omit [LinearOrder K] in
theorem refl (f k : Call K V m α) : Alongside u u' f f k := fun _ _ => rfl

omit [LinearOrder K] in
theorem bind (x : Call K V m α) {f g k : α → Call K V m β}
    (h : ∀ a, Alongside u u' (f a) (g a) (k a)) : Alongside u u' (x >>= f) (x >>= g) (x >>= k) := by
  intro c hk
  rcases hx : x c with ⟨a, c₁⟩ | ⟨e, c₁⟩
  · simp only [Bind.bind, EStateM.bind, hx] at hk ⊢
    exact h a c₁ hk
  · simp only [Bind.bind, EStateM.bind, hx]

omit [LinearOrder K] in
theorem ite {p : Prop} [Decidable p] {f g k f' g' k' : Call K V m α} (h : Alongside u u' f g k)
    (h' : Alongside u u' f' g' k') :
    Alongside u u' (if p then f else f') (if p then g else g') (if p then k else k') := by
  split_ifs
  · exact h
  · exact h'

omit [LinearOrder K] in
/-- Where `k` stops. -/
theorem stop (r : Unit → Call K V m α) :
    Alongside u u' (u >>= r) (u' >>= r) ((throw .diverged : Call K V m Unit) >>= r) := by
  intro c hk
  have hu : u c = u' c := hk c rfl
  simp only [Bind.bind, EStateM.bind, hu]

end Alongside

omit [LinearOrder K] in
/-- Programs agree that start alike and go on from there in programs that agree. -/
theorem bind_eq_of_ends {x : Call K V m α} {f g : α → Call K V m β} {E : Err → Ctx K V m → Prop}
    (h : Ends x c (fun a c' => f a c' = g a c') E) : (x >>= f) c = (x >>= g) c := by
  rcases hx : x c with ⟨a, c'⟩ | ⟨e, c'⟩
  · have hfg := h.ok hx
    simp only [bind, EStateM.bind, hx, hfg]
  · simp only [bind, EStateM.bind, hx]

/-- `TXend` with another program in the place of the index update does the same if that program does
the same after the write-back. -/
theorem TXendWith_congr (ho : ch.Orders c.storage) (h : u c.written = u' c.written) :
    TXendWith u ch c = TXendWith u' ch c := by
  have halong : Alongside u u' (TXendWith u ch) (TXendWith u' ch) (TXendWith (throw .diverged) ch) := by
    unfold TXendWith
    refine .bind _ fun a => ?_
    repeat' first
      | exact .stop _
      | apply Alongside.ite
      | exact .refl _ _
      | refine .bind _ fun a => ?_
  refine halong c fun c' hstop => ?_
  have hends : Ends (TXendWith (throw .diverged) ch) c (fun _ _ => True)
      (fun e c' => e = .diverged → c' = c.written) :=
    TXendWith_ends ho (fun _ _ _ _ => rfl) (fun _ _ _ => trivial) (fun _ he => by simp at he)
      (fun _ _ _ _ _ _ he => by simp at he) (fun _ _ _ _ _ _ _ he => by simp at he)
      fun _ _ he => by simp at he
  rw [hends.error hstop rfl]
  exact h

end Programs

/-! ## What is retired -/

section Retired

variable {c : Ctx K V m} {ch : Choice}

/-- The nodes to remove from the indexes, list by list. -/
def LocalStorage.toRemove (s : LocalStorage V m) : List NodeId :=
  (List.finRange m).flatMap s.indexRemove

omit [LinearOrder K] in
theorem onIndex_retired {l : ListId m} {f : NodeView K → Index → Option (Index × Unit)} :
    Ends (onIndex l f) c (fun _ c' => c'.shared.retired = c.shared.retired)
      (OnAbort fun _ => False) := by
  simp only [Ends_onIndex, OnAbort_diverged, implies_true, true_and]

theorem addToIndex_retired {l : ListId m} : ∀ (ns : List NodeId) {c : Ctx K V m},
    Ends (addToIndex ch.fuel ch.level l ns) c (fun _ c' => c'.shared.retired = c.shared.retired)
      (OnAbort fun _ => False)
  | [], _ => rfl
  | n :: ns, c => by
    simp only [addToIndex, Ends_bind]
    exact onIndex_retired.mono (fun _ c₁ h₁ => (addToIndex_retired ns).mono
      (fun _ _ h₂ => h₂.trans h₁) fun _ _ he => he) fun _ _ he => he

theorem removeFromIndex_retired {l : ListId m} : ∀ (ns : List NodeId) {c : Ctx K V m},
    Ends (removeFromIndex ch.fuel l ns) c
      (fun _ c' => c'.shared.retired = ns.reverse ++ c.shared.retired) (OnAbort fun _ => False)
  | [], _ => rfl
  | n :: ns, c => by
    simp only [removeFromIndex, Ends_bind, Ends_retire_node]
    refine onIndex_retired.mono (fun _ c₁ h₁ => (removeFromIndex_retired ns).mono
      (fun _ c₂ h₂ => ?_) fun _ _ he => he) fun _ _ he => he
    rw [h₂, List.reverse_cons, List.append_assoc, List.singleton_append, h₁]

omit [LinearOrder K] in
theorem forLists_retired {f : ListId m → Call K V m Unit} (ns : ListId m → List NodeId)
    (hf : ∀ l (c : Ctx K V m), Ends (f l) c
      (fun _ c' => c'.shared.retired = (ns l).reverse ++ c.shared.retired) (OnAbort fun _ => False)) :
    ∀ (ls : List (ListId m)) {c : Ctx K V m}, Ends (forLists f ls) c
      (fun _ c' => c'.shared.retired = (ls.flatMap ns).reverse ++ c.shared.retired)
      (OnAbort fun _ => False)
  | [], _ => rfl
  | l :: ls, c => by
    simp only [forLists, Ends_bind]
    refine (hf l c).mono (fun _ c₁ h₁ => (forLists_retired ns hf ls).mono (fun _ c₂ h₂ => ?_)
      fun _ _ he => he) fun _ _ he => he
    rw [h₂, h₁, List.flatMap_cons, List.reverse_append, List.append_assoc]

theorem updateIndex_retired : Ends (updateIndex ch) c
    (fun _ c' => c'.shared.retired = c.storage.toRemove.reverse ++ c.shared.retired)
    (OnAbort fun _ => False) := by
  simp only [updateIndex, Ends_bind, Ends_get]
  have hadd : ∀ l (c' : Ctx K V m), Ends (addToIndex ch.fuel ch.level l (c.storage.indexAdd l)) c'
      (fun _ c'' => c''.shared.retired = c'.shared.retired) (OnAbort fun _ => False) :=
    fun _ _ => addToIndex_retired _
  refine (forLists_retired (fun _ => []) hadd (List.finRange m)).mono (fun _ c₁ h₁ => ?_) fun _ _ he => he
  have hrem : ∀ l (c' : Ctx K V m), Ends (removeFromIndex ch.fuel l (c.storage.indexRemove l)) c'
      (fun _ c'' => c''.shared.retired = (c.storage.indexRemove l).reverse ++ c'.shared.retired)
      (OnAbort fun _ => False) := fun _ _ => removeFromIndex_retired _
  refine (forLists_retired c.storage.indexRemove hrem (List.finRange m)).mono (fun _ c₂ h₂ => ?_) fun _ _ he => he
  have h₁ : c₁.shared.retired = c.shared.retired := by
    simpa [List.flatMap_eq_nil_iff.2] using h₁
  rw [h₂, h₁, LocalStorage.toRemove]

end Retired

/-! ## The audit -/

section Reached

variable {s : Shared K V m} {S : ListId m → Finset NodeId} {n : NodeId}

theorem Lists.mem_of_reaches (hL : Lists s S) (h : s.Reaches n) : ∃ l, n ∈ insert (head l) (S l) := by
  induction h with
  | head l => exact ⟨l, Finset.mem_insert_self _ _⟩
  | next _ hy ih =>
    obtain ⟨l, hn⟩ := ih
    exact ⟨l, Finset.mem_insert_of_mem ((hL.threads l).next_mem hn hy)⟩

omit [LinearOrder K] in
theorem Shared.reaches_path : ∀ {L : List NodeId} {a : NodeId}, s.Reaches a → Path s.next (a :: L) →
    ∀ n ∈ L, s.Reaches n
  | [], _, _, _, _, hn => by simp at hn
  | b :: L, a, ha, hp, n, hn => by
    have hb : s.Reaches b := .next ha hp.1
    rcases List.mem_cons.1 hn with rfl | hn
    · exact hb
    · exact Shared.reaches_path hb hp.2 n hn

/-- The nodes the heads lead to are the heads and the nodes of the lists. -/
theorem Lists.reaches_iff (hL : Lists s S) : s.Reaches n ↔ ∃ l, n ∈ insert (head l) (S l) := by
  refine ⟨hL.mem_of_reaches, ?_⟩
  rintro ⟨l, hn⟩
  rcases Finset.mem_insert.1 hn with rfl | hn
  · exact .head l
  · obtain ⟨hp, hmem, -⟩ := hL.chain_spec l
    exact Shared.reaches_path (.head l) hp n ((hmem n).2 hn)

end Reached

section Audit

variable {c c' : Ctx K V m} {S : ListId m → Finset NodeId} {l : ListId m} {n : NodeId} {ch : Choice}
  {audit : NodeId → Call K V m Unit}

/-- While the index update goes on: the nodes are as they were written back, and the indexes hold no
node that was not on the list or to be added to it. -/
structure Settling (S : ListId m → Finset NodeId) (c c' : Ctx K V m) : Prop where
  updated : c.written.Updated c'
  held : ∀ l, ∃ A, HoldsIndex c' l A ∧ A ⊆ S l ∪ (c.storage.indexAdd l).toFinset

variable (hL : Lists c.shared S) (hO : Overlay c.shared S c.storage)

include hL hO

omit hL in
/-- A deleted node is on no list any more once it is written back. -/
theorem Overlay.not_reaches (hu : c.written.Updated c') (hn : n ∈ c.storage.indexRemove l) :
    ¬ c'.shared.Reaches n := by
  obtain ⟨hd, hn⟩ := (hO.remove l n).1 hn
  have hreach : ∀ y, c'.shared.Reaches y → ∃ l', y ∈ insert (head l') (c.storage.seen S l') := by
    intro y hy
    induction hy with
    | head l' => exact ⟨l', Finset.mem_insert_self _ _⟩
    | @next a y _ hy ih =>
      obtain ⟨l', ha⟩ := ih
      have hnext : c.storage.nextOf c.shared.mem a = some y := by
        rw [← hy, Shared.next, hu.mem]
        exact commit_next.symm
      exact ⟨l', Finset.mem_insert_of_mem ((hO.threads l').next_mem ha hnext)⟩
  intro hr
  obtain ⟨l', hy⟩ := hreach n hr
  rw [hO.kept hy] at hd
  simp at hd

/-- A node of one list is on no other, nor to be added to it. -/
theorem Overlay.eq_of_listed {l' : ListId m} (hn : n ∈ S l ∨ n ∈ c.storage.indexAdd l)
    (hn' : n ∈ S l' ∨ n ∈ c.storage.indexAdd l') : l = l' := by
  by_contra hne
  rcases hn with hn | hn <;> rcases hn' with hn' | hn'
  · exact Finset.disjoint_left.1 (hL.disjoint l l' hne) hn hn'
  · exact (hO.apart l' l (Ne.symm hne) n hn').1 hn
  · exact (hO.apart l l' hne n hn).1 hn'
  · exact (hO.apart l l' hne n hn).2 hn'

omit hL in
/-- A node is to be removed if it was on a list, or to be added to one, and is seen on none. -/
theorem Overlay.exists_remove_iff : (∃ l, n ∈ c.storage.indexRemove l) ↔
    ((∃ l, n ∈ insert (head l) (S l)) ∨ ∃ l, n ∈ c.storage.indexAdd l) ∧
      ¬ ∃ l, n ∈ insert (head l) (c.storage.seen S l) := by
  have hremove : ∀ {l}, n ∈ S l ∨ n ∈ c.storage.indexAdd l →
      (¬ ∃ l, n ∈ insert (head l) (c.storage.seen S l)) → ∃ l, n ∈ c.storage.indexRemove l := by
    intro l hlisted hout
    refine ⟨l, (hO.remove l n).2 ⟨?_, hlisted⟩⟩
    rw [← Bool.not_eq_false]
    exact fun hd => hout ⟨l, Finset.mem_insert_of_mem (LocalStorage.mem_seen.2 ⟨hlisted, hd⟩)⟩
  constructor
  · rintro ⟨l, hn⟩
    obtain ⟨hd, hlisted⟩ := (hO.remove l n).1 hn
    refine ⟨hlisted.imp (fun hn => ⟨l, Finset.mem_insert_of_mem hn⟩) fun hn => ⟨l, hn⟩, ?_⟩
    rintro ⟨l', hn'⟩
    rw [hO.kept hn'] at hd
    simp at hd
  · rintro ⟨⟨l, hn⟩ | ⟨l, hn⟩, hout⟩
    · rcases Finset.mem_insert.1 hn with rfl | hn
      · exact absurd ⟨l, Finset.mem_insert_self _ _⟩ hout
      · exact hremove (.inl hn) hout
    · exact hremove (.inr hn) hout

/-- Once the index has let go of a deleted node, the audit passes. -/
theorem Settling.remove (h : Settling S c c') (fuel : Nat) (hn : n ∈ c.storage.indexRemove l) :
    Ends (onIndex l fun v ix => (ix.remove v fuel n).map (·, ())) c'
      (fun _ c'' => Settling S c c'' ∧ c''.shared.Unreached n) (OnAbort fun _ => False) := by
  obtain ⟨hd, hlisted⟩ := (hO.remove l n).1 hn
  have hle := hO.le_of_listed hL hlisted
  obtain ⟨A, hA, hsub⟩ := h.held l
  refine (index_remove_ends hA ?_ hle ?_ fun _ => trivial).mono (fun _ c₁ h₁ => ?_) fun _ _ he => he
  · rw [h.updated.mem]
    exact hO.written_head_live l
  · rw [h.updated.mem, hO.written_live hlisted, hd]
    rfl
  · obtain ⟨hu, ho, A', hA', hdrop, hnA⟩ := h₁
    have hheld : ∀ l', ∃ A, HoldsIndex c₁ l' A ∧ A ⊆ S l' ∪ (c.storage.indexAdd l').toFinset ∧
        (l' = l → n ∉ A) := by
      intro l'
      by_cases he : l' = l
      · subst he
        exact ⟨A', hA', hdrop.sub.trans hsub, fun _ => hnA⟩
      · obtain ⟨B, hB, hBsub⟩ := h.held l'
        refine ⟨B, ?_, hBsub, fun heq => absurd heq he⟩
        rwa [HoldsIndex, hu.view, hu.rank, ho l' he]
    refine ⟨⟨h.updated.trans hu, fun l' => ?_⟩, hO.not_reaches (h.updated.trans hu) hn,
      fun l' hholds => ?_⟩
    · obtain ⟨B, hB, hBsub, -⟩ := hheld l'
      exact ⟨B, hB, hBsub⟩
    · obtain ⟨B, hB, hBsub, hout⟩ := hheld l'
      rcases Finset.mem_insert.1 (Index.Indexed.mem_of_holds hB hholds) with rfl | hmem
      · exact absurd l'.isLt (Nat.not_lt.2 hle)
      · have hl := hO.eq_of_listed hL (by simpa using hBsub hmem) hlisted
        exact hout hl hmem

theorem Settling.removeFromIndex_eq (haudit : Audits audit) (fuel : Nat) :
    ∀ (ns : List NodeId) {c' : Ctx K V m}, Settling S c c' → (∀ n ∈ ns, n ∈ c.storage.indexRemove l) →
      removeFromIndexAudited audit fuel l ns c' = removeFromIndex fuel l ns c' ∧
      Ends (removeFromIndex fuel l ns) c' (fun _ c'' => Settling S c c'') (OnAbort fun _ => False)
  | [], c', h, _ => ⟨rfl, h⟩
  | n :: ns, c', h, hns => by
    have hret : ∀ {c₁ : Ctx K V m}, Settling S c c₁ → Settling S c
        { c₁ with shared := { c₁.shared with retired := n :: c₁.shared.retired } } := fun h₁ =>
      ⟨h₁.updated.trans ⟨rfl, rfl, rfl, rfl, rfl⟩, h₁.held⟩
    have hrem := Settling.remove hL hO h fuel (hns n (by simp))
    have hrec : ∀ {c₁ : Ctx K V m}, Settling S c c₁ → _ := fun h₁ =>
      Settling.removeFromIndex_eq haudit fuel ns (hret h₁) fun k hk => hns k (by simp [hk])
    refine ⟨?_, ?_⟩
    · unfold removeFromIndexAudited removeFromIndex
      refine bind_eq_of_ends (hrem.mono (fun _ c₁ h₁ => ?_) fun _ _ he => he)
      have hok := haudit n c₁ h₁.2
      simp only [bind, EStateM.bind, hok, retire_node, modify_apply]
      exact (hrec h₁.1).1
    · simp only [removeFromIndex, Ends_bind, Ends_retire_node]
      exact hrem.mono (fun _ c₁ h₁ => (hrec h₁.1).2) fun _ _ he => he

theorem Settling.forLists_eq (haudit : Audits audit) (fuel : Nat) :
    ∀ (ls : List (ListId m)) {c' : Ctx K V m}, Settling S c c' →
      forLists (fun l => removeFromIndexAudited audit fuel l (c.storage.indexRemove l)) ls c' =
        forLists (fun l => removeFromIndex fuel l (c.storage.indexRemove l)) ls c'
  | [], _, _ => rfl
  | l :: ls, c', h => by
    obtain ⟨heq, hends⟩ := Settling.removeFromIndex_eq hL hO haudit fuel
      (c.storage.indexRemove l) h fun _ hn => hn
    unfold forLists
    have hrest := bind_eq_of_ends (hends.mono (fun _ _ h₁ =>
      Settling.forLists_eq haudit fuel ls h₁) fun _ _ he => he)
    rw [← hrest]
    simp only [bind, EStateM.bind, heq]

/-- The audit stops no index update. -/
theorem Overlay.updateIndexAudited_eq (haudit : Audits audit) :
    updateIndexAudited audit ch c.written = updateIndex ch c.written := by
  unfold updateIndexAudited updateIndex
  refine bind_eq_of_ends (E := fun _ _ => True) (Ends_get.2 ?_)
  refine bind_eq_of_ends ((hO.addAll_held hL).mono (fun _ c₁ h₁ => ?_) fun _ _ he => he)
  refine Settling.forLists_eq hL hO haudit _ _ ⟨h₁.1, fun l => ?_⟩
  obtain ⟨A, hA, hsub, -⟩ := h₁.2 l
  exact ⟨A, hA, hsub⟩

end Audit

/-! ## Runs of transactions -/

section Runs

variable {C C' : Conf K V m} {S : ListId m → Finset NodeId} {c c' : Ctx K V m} {t u : ThreadId}
  {op : Op K V m} {ret : Ret V} {ns : List NodeId} {ch : Choice} {minKey : K} {dflt : V}

/-- No node is to be removed from an index twice. -/
def LocalStorage.RemovesOnce (s : LocalStorage V m) : Prop := ∀ l, (s.indexRemove l).Nodup

theorem Act.removesOnce (h : Act S c op ret c') (hlive : c'.Live)
    (hback : op.isAccess = true → c.Live) (hO : c.Live → Overlay c.shared S c.storage)
    (hstart : op = .txBegin → c.storage.IsEmpty) (hr : c.Live → c.storage.RemovesOnce) :
    c'.storage.RemovesOnce := by
  have hclosed : ∀ {P : Prop}, c'.transaction.TX = false → P := fun hT => by
    rw [hlive.1] at hT
    simp at hT
  cases h with
  | opened =>
    intro l
    rw [show _ = [] from (hstart rfl).2.2.2 l]
    exact List.nodup_nil
  | handled | rejected | cleared | finished | committed => exact hclosed rfl
  | thrown _ _ ht => exact hclosed ht.closed
  | strayed hop _ hno => exact (hno (hback hop)).elim
  | overwrote hl | inserted hl | missed hl | read hl | contained hl => exact hr hl
  | @unlinked l key p x hl hx =>
    have hout : x ∉ c.storage.indexRemove l := fun hmem => by
      have hd := ((hO hl).remove l x).1 hmem
      rw [(LocalStorage.mem_seen.1 hx).2] at hd
      simp at hd
    intro l'
    simp only [LocalStorage.unlink, LocalStorage.addToIndexRemove,
      LocalStorage.addToReadSet_indexRemove, LocalStorage.putIntoWriteSet_indexRemove,
      LocalStorage.relink]
    by_cases he : l' = l
    · subst he
      rw [Function.update_self]
      exact List.nodup_append.2 ⟨hr hl l', List.nodup_singleton x, by
        rintro a ha b hb rfl
        exact hout (List.mem_singleton.1 hb ▸ ha)⟩
    · rw [Function.update_of_ne he]
      exact hr hl l'
  | stamped hF | linked hF | cut hF | absent hF | gotten hF | checked hF => exact hclosed hF

/-- The invariant of runs of transactions with what their commits are to retire. -/
structure Tracked (C : Conf K V m) : Prop where
  txOnly : TxOnly C
  once : ∀ t, (C.sys.ctx t).Live → (C.sys.threads t).storage.RemovesOnce

theorem Tracked.step (h : Tracked C) (hG : TxClient C t op) (hst : C.Step t op ret C') :
    Tracked C' := by
  obtain ⟨S, hInv⟩ := h.txOnly.inv
  have hsafe := h.txOnly.safe hG
  obtain ⟨-, -, -, hframe, -⟩ := hInv.step_act hst
  obtain ⟨c', D, F, W, hc', hact, -, hlive, -⟩ := hInv.step hsafe hst
  refine ⟨h.txOnly.step hG hst, fun u hl => ?_⟩
  by_cases hu : u = t
  · subst hu
    have hctx : C'.sys.ctx u = c' := by rw [hc', Sys.ctx_put_self]
    have hstorage : (C'.sys.threads u).storage = c'.storage := by rw [← hctx]; rfl
    rw [hstorage]
    exact hact.removesOnce (hctx ▸ hl) (fun hop => hframe.own_live hInv.sane hop hl)
      (fun hl => (hInv.viewed u hl).overlay) (hsafe.1 ·) (h.once u)
  · rw [hframe.threads u hu]
    exact h.once u (hlive u hu hl)

theorem Tracked.of_reach (hr : Conf.Reach minKey dflt TxClient C) : Tracked C :=
  hr.keeps (J := Tracked) ⟨.init minKey dflt, fun _ hl => absurd hl.1 (by simp [Conf.init, Sys.init,
    Sys.ctx])⟩ fun h hG hst => h.step hG hst

/-- A transaction of thread `t` under way, in a run of transactions. It has allocated the nodes `ns`;
the other threads' calls come in between. -/
inductive Conf.Transacting (minKey : K) (dflt : V) (t : ThreadId) : List NodeId → Conf K V m → Prop
  | begin {ret : Ret V} {C C' : Conf K V m} : Conf.Reach minKey dflt TxClient C →
      TxClient C t .txBegin → C.Step t .txBegin ret C' → Transacting minKey dflt t [] C'
  | access {ns : List NodeId} {op : Op K V m} {ret : Ret V} {C C' : Conf K V m} :
      Transacting minKey dflt t ns C → op.isAccess = true → TxClient C t op → C.Step t op ret C' →
      ret ≠ .aborted → Transacting minKey dflt t (ns ++ C.allocated C') C'
  | other {ns : List NodeId} {u : ThreadId} {op : Op K V m} {ret : Ret V} {C C' : Conf K V m} :
      Transacting minKey dflt t ns C → u ≠ t → TxClient C u op → C.Step u op ret C' →
      Transacting minKey dflt t ns C'

theorem Conf.Transacting.reach (h : Conf.Transacting minKey dflt t ns C) :
    Conf.Reach minKey dflt TxClient C := by
  induction h with
  | begin hr hG hst => exact hr.step hG hst
  | access _ _ hG hst _ ih => exact ih.step hG hst
  | other _ _ hG hst ih => exact ih.step hG hst

/-- What the transaction has allocated is what the thread has to add. -/
theorem Conf.Transacting.mem_iff (h : Conf.Transacting minKey dflt t ns C) :
    C.inTX t = true ∧ ∀ n, n ∈ ns ↔ n ∈ (C.sys.threads t).pending := by
  induction h with
  | @begin ret C C' hr hG hst =>
    have hempty := ((Tracked.of_reach hr).txOnly.safe hG).1 rfl
    obtain ⟨ch, -, hstep, -⟩ := hst
    obtain ⟨c, he, hc⟩ := Sys.step_of_ends (P := fun _ => False)
      (Q := fun _ c => c.transaction.TX = true ∧ c.storage = (C.sys.threads t).storage) (by
        simp only [call, TXbegin, Ends_bind, Ends_getVersion, Ends_modifyTransaction, Ends_pure]
        exact ⟨trivial, rfl⟩) hstep
    obtain ⟨hT, hstorage⟩ := hc.resolve_right And.right
    refine ⟨by simpa [Conf.inTX, he] using hT, fun n => ?_⟩
    simp [Local.pending, he, hstorage, hempty.2.2.1]
  | @access ns op ret C C' _ hop hG hst hret ih =>
    obtain ⟨hT, hns⟩ := ih
    obtain ⟨hadd, hopen⟩ := hst.accessed hop hT
    refine ⟨hopen hret, fun n => ?_⟩
    rw [List.mem_append, hadd n, hns n]
  | @other ns u op ret C C' _ hu _ hst ih =>
    have he := hst.threads_ne (Ne.symm hu)
    rw [Conf.inTX, he]
    exact ih

/-- A `TXend` that returns retires what was to be removed, if the transaction wrote at all. -/
theorem Conf.Step.retired_eq (hst : C.Step t .txEnd ret C') (hret : ret ≠ .aborted) :
    C'.sys.shared.retired =
      if (C.sys.threads t).transaction.readOnly = true then C.sys.shared.retired
      else (C.sys.threads t).storage.toRemove.reverse ++ C.sys.shared.retired := by
  obtain ⟨ch, ho, hstep, -⟩ := hst
  have hends : Ends (call ch .txEnd) (C.sys.ctx t) (fun _ c => c.shared.retired =
      if (C.sys.threads t).transaction.readOnly = true then C.sys.shared.retired
      else (C.sys.threads t).storage.toRemove.reverse ++ C.sys.shared.retired)
      (OnAbort fun _ => True) := by
    simp only [call, Ends_bind, Ends_pure]
    refine TXend_ends (ho rfl) (fun _ _ hro => ?_) (fun _ _ hro => ?_) (fun _ => trivial)
      (fun _ _ _ _ _ _ => trivial) (fun _ _ _ _ _ _ _ => trivial) fun _ _ => trivial
    · have hro : (C.sys.threads t).transaction.readOnly = false := hro
      refine updateIndex_retired.mono (fun _ c h => ?_) fun _ _ he => he.mono False.elim
      rw [hro, if_neg (by simp)]
      exact h
    · have hro : (C.sys.threads t).transaction.readOnly = true := hro
      rw [hro, if_pos rfl]
      rfl
  obtain ⟨c, he, hc⟩ := Sys.step_of_ends hends hstep
  rw [he]
  exact hc.resolve_right fun h => hret h.1

/-- What is on the lists after a commit was there or the thread was to add it; the rest of these nodes
is retired, each once. -/
theorem Tracked.commit (hT : Tracked C) (hst : C.Step t .txEnd ret C') (hret : ret ≠ .aborted) :
    (∃ rs, C'.sys.shared.retired = rs ++ C.sys.shared.retired ∧ rs.Nodup ∧ ∀ n, n ∈ rs ↔
      (C.sys.shared.Reaches n ∨ n ∈ (C.sys.threads t).pending) ∧ ¬ C'.sys.shared.Reaches n) ∧
    ∀ n, C'.sys.shared.Reaches n → C.sys.shared.Reaches n ∨ n ∈ (C.sys.threads t).pending := by
  obtain ⟨S, hInv⟩ := hT.txOnly.inv
  obtain ⟨c', hc', hact, hframe, -⟩ := hInv.step_act hst
  have hl : (C.sys.ctx t).Live := hframe.valid rfl hret
  have hV := hInv.viewed t hl
  have hO := hV.overlay
  have hretired := hst.retired_eq hret
  have hadd : ∀ n, n ∈ (C.sys.threads t).pending ↔ ∃ l, n ∈ (C.sys.ctx t).storage.indexAdd l :=
    fun _ => Iff.rfl
  have hshared : C'.sys.shared = c'.shared := by rw [hc']; rfl
  rw [hshared] at hretired ⊢
  cases hact with
  | rejected | cleared => exact absurd rfl hret
  | thrown hop | strayed hop => simp [Op.isAccess] at hop
  | finished _ hro =>
    refine ⟨⟨[], rfl, List.nodup_nil, fun n => ?_⟩, fun n hn => .inl hn⟩
    have hnew : n ∉ (C.sys.threads t).pending := fun hn => by
      obtain ⟨l, hn⟩ := (hadd n).1 hn
      rw [(hV.idle hro).2 l] at hn
      simp at hn
    show n ∈ [] ↔ (C.sys.shared.Reaches n ∨ n ∈ _) ∧ ¬ C.sys.shared.Reaches n
    simp [hnew]
  | @committed c₁ _ hro hu hM =>
    have hro' : (C.sys.threads t).transaction.readOnly = false := hro
    rw [hro', if_neg (by simp)] at hretired
    have hS' : Lists c₁.cleaned.shared ((C.sys.ctx t).storage.seen S) := hM.lists
    refine ⟨⟨_, hretired, List.nodup_reverse.2 ?_, fun n => ?_⟩, fun n hn => ?_⟩
    · refine List.nodup_flatMap.2 ⟨fun l _ => hT.once t hl l, ?_⟩
      refine (List.nodup_finRange m).imp fun {l l'} hne n hn hn' => hne ?_
      exact hO.eq_of_listed hInv.lists ((hO.remove l n).1 hn).2 ((hO.remove l' n).1 hn').2
    · rw [List.mem_reverse, hS'.reaches_iff, hInv.lists.reaches_iff, hadd n]
      simp only [LocalStorage.toRemove, List.mem_flatMap, List.mem_finRange, true_and]
      exact hO.exists_remove_iff
    · obtain ⟨l, hn⟩ := hS'.reaches_iff.1 hn
      rw [hInv.lists.reaches_iff, hadd n]
      rcases Finset.mem_insert.1 hn with rfl | hn
      · exact .inl ⟨l, Finset.mem_insert_self _ _⟩
      · exact (LocalStorage.mem_seen.1 hn).1.imp (fun hn => ⟨l, Finset.mem_insert_of_mem hn⟩)
          fun hn => ⟨l, hn⟩

/-- A commit retires, each once, the nodes that were on a list or that its transaction has allocated and
that are on no list after it; and none of them is reached, from a head or on a level of an index, when
it is retired. -/
theorem Conf.Transacting.commit_retires (h : Conf.Transacting minKey dflt t ns C)
    (hst : C.Step t .txEnd ret C') (hret : ret ≠ .aborted) :
    (∃ rs, C'.sys.shared.retired = rs ++ C.sys.shared.retired ∧ rs.Nodup ∧ ∀ n, n ∈ rs ↔
      (C.sys.shared.Reaches n ∨ n ∈ ns) ∧ ¬ C'.sys.shared.Reaches n) ∧
    ∀ audit, Audits audit → ∀ ch : Choice, ch.Orders (C.sys.threads t).storage →
      TXendAudited audit ch (C.sys.ctx t) = TXend ch (C.sys.ctx t) := by
  have hT := Tracked.of_reach h.reach
  obtain ⟨S, hInv⟩ := hT.txOnly.inv
  obtain ⟨-, hns⟩ := h.mem_iff
  obtain ⟨-, -, -, hframe, -⟩ := hInv.step_act hst
  have hl : (C.sys.ctx t).Live := hframe.valid rfl hret
  have hL : Lists (C.sys.ctx t).shared S := hInv.lists
  refine ⟨?_, fun audit haudit ch ho =>
    TXendWith_congr ho ((hInv.viewed t hl).overlay.updateIndexAudited_eq hL haudit)⟩
  obtain ⟨⟨rs, hrs, hnd, hmem⟩, -⟩ := hT.commit hst hret
  exact ⟨rs, hrs, hnd, fun n => by rw [hmem, hns]⟩

/-- Calls of a transaction one after another. -/
def Conf.transact [DecidableEq V] (C : Conf K V m) (t : ThreadId) : List (Op K V m) → Option (Conf K V m)
  | [] => some C
  | op :: ops =>
    if op.isAccess = true ∧ TxClient C t op then
      match C.play t op with
      | none => none
      | some (C', ret) => if ret = .aborted then none else Conf.transact C' t ops
    else none

theorem Conf.Transacting.calls [DecidableEq V] : ∀ {ops : List (Op K V m)} {ns : List NodeId}
    {C C' : Conf K V m}, Conf.Transacting minKey dflt t ns C → C.transact t ops = some C' →
      ∃ ns', Conf.Transacting minKey dflt t ns' C'
  | [], ns, C, C', h, he => by
    obtain rfl : C = C' := by simpa [Conf.transact] using he
    exact ⟨ns, h⟩
  | op :: ops, ns, C, C', h, he => by
    unfold Conf.transact at he
    split_ifs at he with hG
    split at he
    · simp at he
    · rename_i C₁ ret hp
      split_ifs at he with hret
      exact Conf.Transacting.calls (h.access hG.1 hG.2 (Conf.play_step hp) hret) he

/-- Two keys are there, one of them is removed, put again, removed and put again. -/
theorem Conf.Transacting.commit_retires_twice : ∃ ns C C', Conf.Transacting (V := Nat) (m := 1) 0 0 0 ns C ∧
    C.Step 0 .txEnd (.bool true) C' ∧ C'.sys.shared.retired = [3, 1] ∧
    (∃ rs, C'.sys.shared.retired = rs ++ C.sys.shared.retired ∧ rs.Nodup ∧ ∀ n, n ∈ rs ↔
      (C.sys.shared.Reaches n ∨ n ∈ ns) ∧ ¬ C'.sys.shared.Reaches n) ∧
    ∀ audit, Audits audit → ∀ ch : Choice, ch.Orders (C.sys.threads 0).storage →
      TXendAudited audit ch (C.sys.ctx 0) = TXend ch (C.sys.ctx 0) := by
  obtain ⟨C₀, hr, -, hp⟩ := Conf.exists_reach_of_decidable (G := TxClient) 0 0 2
    [(1, .txBegin), (1, .put 0 3 1), (1, .put 0 4 1), (1, .txEnd)]
    (fun C₀ : Conf Nat Nat 1 => decide (TxClient C₀ 0 .txBegin) && C₀.after 0 .txBegin .unit
      fun C₁ : Conf Nat Nat 1 => (C₁.transact 0 [.remove 0 3, .put 0 3 2, .remove 0 3, .put 0 3 4]).any
        fun C : Conf Nat Nat 1 => C.after 0 .txEnd (.bool true) fun C' : Conf Nat Nat 1 =>
          decide (C'.sys.shared.retired = [3, 1])) (by decide +kernel)
  rw [Bool.and_eq_true, decide_eq_true_eq] at hp
  obtain ⟨C₁, hst₁, hp₁⟩ := Conf.step_of_after hp.2
  rcases hC : C₁.transact 0 [.remove 0 3, .put 0 3 2, .remove 0 3, .put 0 3 4] with _ | C
  · simp [hC] at hp₁
  rw [hC, Option.any_some] at hp₁
  obtain ⟨ns, h⟩ := (Conf.Transacting.begin hr hp.1 hst₁).calls hC
  obtain ⟨C', hst, hretired⟩ := Conf.step_of_after hp₁
  exact ⟨ns, C, C', h, hst, of_decide_eq_true hretired, h.commit_retires hst (by simp)⟩

end Runs

end TxList
