import TxList.TwoTX
import TxList.Proofs.Regions
import TxList.Proofs.Scripts

/-!
# Two `TX` objects kept apart

A call that starts with the thread's state clean, or after a call on the same object, has pointers into
its own object's lists only. So the other object's calls can be left out.
-/

namespace TxList

open Prog

variable {K V : Type} {m : Nat}

namespace TwoTX

variable {owner : ListId m → Inst} {N : Nat} {T T' T₁ : TwoTX K V m} {i : Inst}

/-- An object's lists, and the numbers of their nodes. -/
def region (owner : ListId m → Inst) (N : Nat) : Inst → Region m
  | .a => {
    nodes := {n | n < m + N ∧ ∀ l : ListId m, n = head l → owner l = .a}
    lists := {l | owner l = .a} }
  | .b => {
    nodes := {n | m + N ≤ n ∨ ∃ l : ListId m, n = head l ∧ owner l = .b}
    lists := {l | owner l = .b} }

theorem region_disjoint {n : NodeId} {j : Inst} (hi : n ∈ (region owner N i).nodes) (hne : i ≠ j) :
    n ∉ (region owner N j).nodes := by
  have hab : n ∈ (region owner N .a).nodes → n ∉ (region owner N .b).nodes := by
    rintro ⟨hlt, ha⟩ (hle | ⟨l, rfl, hl⟩)
    · exact absurd hlt (not_lt.2 hle)
    · rw [ha l rfl] at hl
      exact absurd hl (by simp)
  rcases i with _ | _ <;> rcases j with _ | _
  · exact absurd rfl hne
  · exact hab hi
  · exact fun hj => hab hj hi
  · exact absurd rfl hne

theorem mem_lists_region {l : ListId m} : l ∈ (region owner N i).lists ↔ owner l = i := by
  cases i <;> rfl

theorem head_mem_region {l : ListId m} (hl : owner l = i) : head l ∈ (region owner N i).nodes := by
  cases i with
  | a =>
    refine ⟨l.isLt.trans_le (Nat.le_add_right m N), fun l' he => ?_⟩
    rw [← hl]
    exact congrArg owner (Fin.ext he.symm)
  | b => exact .inr ⟨l, rfl, hl⟩

/-- The next number is one of the object's. -/
theorem fresh_mem_region (hfresh : m ≤ T.fresh .a ∧ m + N ≤ T.fresh .b)
    (hlt : i = .a → T.fresh .a < m + N) : T.fresh i ∈ (region owner N i).nodes := by
  cases i with
  | a => exact ⟨hlt rfl, fun l he => absurd (hfresh.1.trans_eq he) (not_le.2 l.isLt)⟩
  | b => exact .inl hfresh.2

theorem takes_region {op : Op K V m} (h : ∀ l ∈ op.list?, owner l = i) :
    (region owner N i).Takes op := by
  cases i <;> cases op <;> simp_all [Region.Takes, region, Op.list?]

/-- What is left out changes nothing of `b`'s: `last` is the object of the last call, `T'` the state
without the calls on `a`. -/
structure Parted (owner : ListId m → Inst) (N : Nat) (last : Inst) (T T' : TwoTX K V m) : Prop where
  closes : ∀ i, (region owner N i).Closes (T.shared i)
  fresh : m ≤ T.fresh .a ∧ m + N ≤ T.fresh .b
  same : (region owner N .b).Same (T.shared .b) (T'.shared .b)
  holds : (region owner N last).Holds T.thread.storage
  local_b : last = .b → T'.thread.storage = T.thread.storage ∧
    T'.thread.transaction.TX = T.thread.transaction.TX ∧
    T'.thread.transaction.readOnly = T.thread.transaction.readOnly ∧
    (T.thread.transaction.TX = true →
      T'.thread.transaction.readVersion = T.thread.transaction.readVersion)
  local_a : last = .a → T'.thread.Clean

/-- A thread's clean storage is empty. -/
theorem storage_of_clean {x : Local V m} (h : x.Clean) : x.storage = {} := by
  obtain ⟨⟨hw, hr, ha, hd⟩, -⟩ := h
  obtain ⟨⟨w, r, a, d⟩, t⟩ := x
  simp only at hw hr ha hd
  obtain rfl : a = fun _ => [] := funext ha
  obtain rfl : d = fun _ => [] := funext hd
  simp only [hw, hr]

/-- The next call is on another object, and finds the thread's state clean. -/
theorem Parted.turn {last : Inst} (h : Parted owner N last T T') (hc : i ≠ last → T.thread.Clean) :
    Parted owner N i T T' := by
  by_cases hi : i = last
  · subst hi
    exact h
  have hT := hc hi
  refine { h with holds := ?_, local_b := ?_, local_a := ?_ }
  · rw [storage_of_clean hT]
    exact .empty
  · rintro rfl
    have hT' : T'.thread.Clean := h.local_a (by cases last <;> simp_all)
    refine ⟨by rw [storage_of_clean hT, storage_of_clean hT'], hT'.2.1.trans hT.2.1.symm,
      hT'.2.2.trans hT.2.2.symm, fun hopen => ?_⟩
    rw [hT.2.1] at hopen
    simp at hopen
  · rintro rfl
    obtain ⟨hs, htx, hro, -⟩ := h.local_b (by cases last <;> simp_all)
    exact ⟨hs ▸ hT.1, htx.trans hT.2.1, hro.trans hT.2.2⟩

variable [LinearOrder K] {mv : Move K V m} {r : Ret V}

/-- What a call is, that ended. -/
theorem of_call (h : T.call owner N mv = some (T₁, r)) : T.Allows owner N mv ∧
    ∃ c, T₁ = T.put mv.tx c ∧ (TxList.call mv.ch mv.op (T.ctx mv.tx) = .ok r c ∨
      TxList.call mv.ch mv.op (T.ctx mv.tx) = .error .txAbort c ∧ r = .aborted) := by
  simp only [call] at h
  split_ifs at h with hallow
  refine ⟨hallow, ?_⟩
  rcases hc : TxList.call mv.ch mv.op (T.ctx mv.tx) with ⟨r', c⟩ | ⟨e, c⟩
  · simp only [hc, Option.some.injEq, Prod.mk.injEq] at h
    obtain ⟨rfl, rfl⟩ := h
    exact ⟨c, rfl, .inl rfl⟩
  · rcases e with _ | _ | _ | _ <;> simp only [hc] at h
    · simp only [Option.some.injEq, Prod.mk.injEq] at h
      obtain ⟨rfl, rfl⟩ := h
      exact ⟨c, rfl, .inr ⟨rfl, rfl⟩⟩
    all_goals simp at h

omit [LinearOrder K] in
theorem orders_of_allows (h : T.Allows owner N mv) :
    mv.op = .txEnd → mv.ch.Orders T.thread.storage := by
  intro hop
  exact h.2.2 (by simp [hop, Op.isEnd])

omit [LinearOrder K] in
/-- A call that stays in its object's region keeps both regions closed. -/
theorem Parted.put {last : Inst} {c : Ctx K V m} (h : Parted owner N last T T')
    (hclose : (region owner N i).Closes c.shared)
    (hspare : (region owner N i).Spares (T.shared i) c.shared) :
    (∀ j, (region owner N j).Closes ((T.put i c).shared j)) ∧
      m ≤ (T.put i c).fresh .a ∧ m + N ≤ (T.put i c).fresh .b := by
  refine ⟨fun j => ?_, ?_, ?_⟩
  · by_cases hj : j = i
    · subst hj
      exact ⟨hclose.head, hclose.next, hclose.index⟩
    · have hc := h.closes j
      refine ⟨hc.head, fun n hn y hy => hc.next n hn y ?_, fun l hl => ?_⟩
      · have he : c.shared.mem n = T.mem n := hspare.mem n (region_disjoint hn hj)
        show (T.mem n).next = some y
        rw [← he]
        exact hy
      · have hl' : l ∉ (region owner N i).lists := fun hl' =>
          hj ((mem_lists_region.1 hl).symm.trans (mem_lists_region.1 hl'))
        have he : (T.put i c).index l = T.index l := hspare.index l hl'
        simp only [shared, he]
        exact hc.index l hl
  · cases i with
    | a => exact h.fresh.1.trans (by simpa [TwoTX.put, shared] using hspare.fresh)
    | b => simpa [TwoTX.put] using h.fresh.1
  · cases i with
    | a => simpa [TwoTX.put] using h.fresh.2
    | b => exact h.fresh.2.trans (by simpa [TwoTX.put, shared] using hspare.fresh)

omit [LinearOrder K] in
theorem Parted.room {last : Inst} (h : Parted owner N last T T') (hallow : T.Allows owner N mv) :
    ∀ k < 1, (T.ctx mv.tx).shared.fresh + k ∈ (region owner N mv.tx).nodes := by
  intro k hk
  obtain rfl : k = 0 := Nat.lt_one_iff.1 hk
  exact fresh_mem_region h.fresh hallow.2.1

/-- A call on `a` after one on `a`. -/
theorem Parted.call_a (h : Parted owner N .a T T') (htx : mv.tx = .a)
    (hcall : T.call owner N mv = some (T₁, r)) : Parted owner N .a T₁ T' := by
  obtain ⟨hallow, c, rfl, hc⟩ := of_call hcall
  have hroom := h.room hallow
  rw [htx] at hroom hc ⊢
  have hends := ((Apart.refl (W := False) (c := T.ctx .a) (P := (region owner N .a).Held) (h.closes .a) hroom
    h.holds).call (takes_region (htx ▸ hallow.1)) (fun _ => zero_lt_one) (orders_of_allows hallow)).ends
  have hc : Apart False (region owner N .a) (T.shared .a) (T.shared .a) (region owner N .a).Held 0 c c :=
    hc.elim (fun hc => hends.ok hc) fun hc => hends.error hc.1
  obtain ⟨hclose, hfresh⟩ := h.put hc.closes hc.spares
  refine ⟨hclose, hfresh, ⟨?_, ?_, ?_, fun n hn => ?_, fun l hl => ?_⟩, hc.own,
    fun hb => by simp at hb, h.local_a⟩
  · simpa [shared, TwoTX.put] using h.same.gvc
  · simpa [shared, TwoTX.put] using h.same.fresh
  · simpa [shared, TwoTX.put] using h.same.retired
  · exact (h.same.mem n hn).trans (hc.spares.mem n (region_disjoint hn (by simp))).symm
  · have hl' : l ∉ (region owner N .a).lists := fun hl' => by
      have := (mem_lists_region.1 hl).symm.trans (mem_lists_region.1 hl')
      simp at this
    exact (h.same.index l hl).trans (hc.spares.index l hl').symm

/-- A call on `b` after one on `b` ends alike in both states. -/
theorem Parted.call_b (h : Parted owner N .b T T') (htx : mv.tx = .b)
    (hcall : T.call owner N mv = some (T₁, r)) :
    ∃ T₁', T'.call owner N mv = some (T₁', r) ∧ Parted owner N .b T₁ T₁' := by
  obtain ⟨hallow, c, rfl, hc⟩ := of_call hcall
  obtain ⟨hstor, hTX, hro, hrv⟩ := h.local_b rfl
  have hroom := h.room hallow
  rw [htx] at hroom hc ⊢
  have hstart : Apart False (region owner N .b) (T.shared .b) (T'.shared .b) (region owner N .b).Held 1
      (T.ctx .b) (T'.ctx .b) :=
    ⟨h.closes .b, hroom, h.same, .refl _, .refl _, hstor, h.holds, hTX, hro, hrv, False.elim⟩
  have halike : EndsAlike (TxList.call mv.ch mv.op) (T.ctx .b) (T'.ctx .b) _ _ :=
    hstart.call (takes_region (htx ▸ hallow.1)) (fun _ => zero_lt_one) (orders_of_allows hallow)
  have hallow' : T'.Allows owner N mv :=
    ⟨hallow.1, fun ha => by simp [htx] at ha, fun he => hstor ▸ hallow.2.2 he⟩
  have hdone : ∀ c', Apart False (region owner N .b) (T.shared .b) (T'.shared .b)
      (region owner N .b).Held 0 c c' → Parted owner N .b (T.put .b c) (T'.put .b c') := by
    intro c' hc'
    obtain ⟨hclose, hfresh⟩ := h.put hc'.closes hc'.spares
    refine ⟨hclose, hfresh, ⟨?_, ?_, ?_, hc'.same.mem, hc'.same.index⟩, hc'.own,
      fun _ => ⟨hc'.storage, hc'.TX, hc'.readOnly, hc'.readVersion⟩, fun ha => by simp at ha⟩
    · simpa [shared, TwoTX.put] using hc'.same.gvc
    · simpa [shared, TwoTX.put] using hc'.same.fresh
    · simpa [shared, TwoTX.put] using hc'.same.retired
  simp only [EndsAlike] at halike
  rcases hc with hc | ⟨hc, rfl⟩
  · rcases hc' : TxList.call mv.ch mv.op (T'.ctx .b) with ⟨r', c'⟩ | ⟨e', c'⟩ <;>
      simp only [hc, hc'] at halike
    obtain ⟨rfl, halike⟩ := halike
    exact ⟨_, by simp only [call, if_pos hallow', htx, hc'], hdone c' halike⟩
  · rcases hc' : TxList.call mv.ch mv.op (T'.ctx .b) with ⟨r', c'⟩ | ⟨e', c'⟩ <;>
      simp only [hc, hc'] at halike
    obtain ⟨rfl, halike⟩ := halike
    exact ⟨_, by simp only [call, if_pos hallow', htx, hc'], hdone c' halike⟩

omit [LinearOrder K] in
theorem parted_init (minKey : K) (dflt : V) :
    Parted owner N .b (init minKey dflt N) (init minKey dflt N) := by
  refine ⟨fun i => ⟨fun l hl => head_mem_region (mem_lists_region.1 hl),
    fun n _ y hy => by simp [shared, init] at hy,
    fun l hl => Region.closes_index_of _ fun _ => head_mem_region (mem_lists_region.1 hl)⟩, ⟨le_rfl, le_rfl⟩,
    ⟨rfl, rfl, rfl, fun _ _ => rfl, fun _ _ => rfl⟩, .empty, fun _ => ⟨rfl, rfl, rfl, fun _ => rfl⟩,
    fun ha => by simp at ha⟩

/-- The calls on `a` can be left out of a run that keeps the two objects apart. -/
theorem Parted.run : ∀ (mvs : List (Move K V m)) {last : Inst} {T T' T₁ : TwoTX K V m}
    {rs : List (Inst × Ret V)}, Parted owner N last T T' → T.Separate owner N last mvs →
    T.run owner N mvs = some (T₁, rs) → ∃ T₁' last', T'.run owner N (mvs.filter (·.tx = .b)) =
      some (T₁', rs.filter (·.1 = .b)) ∧ Parted owner N last' T₁ T₁'
  | [], last, T, T', T₁, rs, h, _, hrun => by
    obtain ⟨rfl, rfl⟩ : T = T₁ ∧ [] = rs := by simpa [TwoTX.run] using hrun
    exact ⟨T', last, rfl, h⟩
  | mv :: mvs, last, T, T', T₁, rs, h, hsep, hrun => by
    rcases hcall : T.call owner N mv with _ | ⟨T₂, r⟩
    · simp [TwoTX.run, hcall] at hrun
    rcases hrest : T₂.run owner N mvs with _ | ⟨T₃, rs'⟩
    · simp [TwoTX.run, hcall, hrest] at hrun
    obtain ⟨rfl, rfl⟩ : T₃ = T₁ ∧ (mv.tx, r) :: rs' = rs := by
      simpa [TwoTX.run, hcall, hrest] using hrun
    have hturn := h.turn hsep.1
    have hsep₂ := hsep.2 _ hcall
    rcases htx : mv.tx with _ | _
    · rw [htx] at hturn hsep₂
      obtain ⟨T₁', last', hrun', hp⟩ := Parted.run mvs (hturn.call_a htx hcall) hsep₂ hrest
      exact ⟨T₁', last', by simpa [htx] using hrun', hp⟩
    · rw [htx] at hturn hsep₂
      obtain ⟨T₂', hcall', hp₂⟩ := hturn.call_b htx hcall
      obtain ⟨T₁', last', hrun', hp⟩ := Parted.run mvs hp₂ hsep₂ hrest
      refine ⟨T₁', last', ?_, hp⟩
      simp [htx, TwoTX.run, hcall', hrun']

omit [LinearOrder K] in
theorem Parted.sameFor {last : Inst} (h : Parted owner N last T T') : T.SameFor owner .b T' := by
  have hwalk : ∀ l, owner l = .b → (T'.shared .b).chain l = (T.shared .b).chain l ∧
      ∀ n ∈ (T.shared .b).chain l, n ∈ (region owner N .b).nodes := by
    intro l hl
    have hnext : ∀ n ∈ (region owner N .b).nodes, (T'.shared .b).next n = (T.shared .b).next n :=
      fun n hn => by rw [Shared.next, h.same.mem n hn, Shared.next]
    have hhead := hnext _ (head_mem_region hl)
    rw [Shared.chain, Shared.chain, hhead, h.same.fresh]
    exact Chain.walk_within (h.closes .b).next hnext _
      ((h.closes .b).next _ (head_mem_region hl))
  refine ⟨h.same.gvc, fun l hl => (hwalk l hl).1, fun l hl n hn => h.same.mem n ?_,
    fun l hl => h.same.index l (mem_lists_region.2 hl)⟩
  rcases List.mem_cons.1 hn with rfl | hn
  · exact head_mem_region hl
  · exact (hwalk l hl).2 n hn

/-- In a run that keeps two `TX` objects apart, the calls on one return and do what they would without
the calls on the other. -/
theorem tx_independent {minKey : K} {dflt : V} {mvs : List (Move K V m)} {rs : List (Inst × Ret V)}
    (hrun : (init minKey dflt N).run owner N mvs = some (T, rs))
    (hsep : (init minKey dflt N).Separate owner N .b mvs) :
    ∃ T', (init minKey dflt N).run owner N (mvs.filter (·.tx = .b)) =
      some (T', rs.filter (·.1 = .b)) ∧ T.SameFor owner .b T' := by
  obtain ⟨T', last, hrun', hp⟩ := Parted.run mvs (parted_init minKey dflt) hsep hrun
  exact ⟨T', hrun', hp.sameFor⟩

omit [LinearOrder K] in
instance (x : Local V m) : Decidable x.Clean := inferInstanceAs (Decidable (_ ∧ _ ∧ _))

instance decidableSeparate : ∀ (mvs : List (Move K V m)) (last : Inst) (T : TwoTX K V m),
    Decidable (T.Separate owner N last mvs)
  | [], _, _ => isTrue trivial
  | mv :: mvs, _, _ =>
    have (x : TwoTX K V m × Ret V) : Decidable (x.1.Separate owner N mv.tx mvs) :=
      decidableSeparate mvs mv.tx x.1
    inferInstanceAs (Decidable (_ ∧ _))

/-- The first of two lists is `a`'s, the second `b`'s. -/
def twoLists (l : ListId 2) : Inst := if l = 0 then .a else .b

/-- Calls that draw no orders. -/
def Move.plain (tx : Inst) (op : Op Nat Nat 2) : Move Nat Nat 2 := ⟨tx, op, { fuel := 20 }⟩

/-- A transaction on `a` between two singletons on `b`. -/
def closedBetween : List (Move Nat Nat 2) :=
  [.plain .b (.put 1 5 3), .plain .a .txBegin, .plain .a (.put 0 5 4),
    ⟨.a, .txEnd, { fuel := 20, writeOrder := [0], readOrder := [0] }⟩, .plain .b (.get 1 5)]

theorem tx_independent_closed : ∃ (T : TwoTX Nat Nat 2) (rs : List (Inst × Ret Nat)),
    (init 0 0 5).run twoLists 5 closedBetween = some (T, rs) ∧
    (init 0 0 5).Separate twoLists 5 .b closedBetween ∧
    ∃ T', (init 0 0 5).run twoLists 5 (closedBetween.filter (·.tx = .b)) =
      some (T', rs.filter (·.1 = .b)) ∧ T.SameFor twoLists .b T' := by
  have hrun : ((init 0 0 5).run twoLists 5 closedBetween).isSome = true := by decide +kernel
  have hsep : (init 0 0 5).Separate twoLists 5 .b closedBetween := by decide +kernel
  obtain ⟨⟨T, rs⟩, hrun⟩ := Option.isSome_iff_exists.1 hrun
  exact ⟨T, rs, hrun, hsep, tx_independent hrun hsep⟩

/-- A transaction left open on `a` makes a `put` on `b` part of it. -/
theorem open_tx_shared : ¬ ∀ (owner : ListId 2 → Inst) (N : Nat) (mvs : List (Move Nat Nat 2))
    (T : TwoTX Nat Nat 2) (rs : List (Inst × Ret Nat)),
    (init 0 0 N).run owner N mvs = some (T, rs) →
    ∃ T', (init 0 0 N).run owner N (mvs.filter (·.tx = .b)) = some (T', rs.filter (·.1 = .b)) ∧
      T.SameFor owner .b T' := by
  intro h
  have hall : ((init 0 0 5).run twoLists 5 [.plain .a .txBegin, .plain .b (.put 1 5 3)]).any
      (fun x => decide ((x.1.shared .b).chain 1 = [])) = true := by decide +kernel
  have hb : ((init 0 0 5).run twoLists 5 [.plain .b (.put 1 5 3)]).any
      (fun x => decide ((x.1.shared .b).chain 1 = [7])) = true := by decide +kernel
  rcases hrun : (init 0 0 5).run twoLists 5 [.plain .a .txBegin, .plain .b (.put 1 5 3)] with
    _ | ⟨T, rs⟩
  · simp [hrun] at hall
  obtain ⟨T', hrun', hsame⟩ := h _ _ _ _ _ hrun
  have hfilter : ([.plain .a .txBegin, .plain .b (.put 1 5 3)] : List (Move Nat Nat 2)).filter
      (·.tx = .b) = [.plain .b (.put 1 5 3)] := rfl
  rw [hfilter] at hrun'
  rw [hrun, Option.any_some, decide_eq_true_eq] at hall
  rw [hrun', Option.any_some, decide_eq_true_eq] at hb
  have hchain := hsame.chain 1 rfl
  rw [hall, hb] at hchain
  simp at hchain

end TwoTX

end TxList
