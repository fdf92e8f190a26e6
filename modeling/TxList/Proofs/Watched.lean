import TxList.Proofs.TracksCalls
import TxList.Proofs.TracksEnd

/-!
# What a `get` sees of the commits

If no `put` finds its key on a node that someone else has locked, then a singleton `get` that returns
returns the association of its key after the commits that have moved the clock on so far: of a commit it
sees all or nothing, whatever is still to be written back.
-/

namespace TxList

open Prog Chain

variable {K V : Type} {m : Nat} [LinearOrder K]

section Runs

variable {P P' : Watched K V m} {C : Conf K V m} {S : ListId m → Finset NodeId} {t : ThreadId}
  {x : Turn K V m} {l : ListId m} {key : K} {v : Option V} {minKey : K} {dflt : V}
  {G : Watched.Guard K V m}

theorem Tracks.init (minKey : K) (dflt : V) :
    Tracks (Watched.init minKey dflt : Watched K V m) (Conf.init minKey dflt) fun _ => ∅ := by
  have hS := Serial.init (m := m) minKey dflt
  have hheld : ∀ u n, n ∉ ((Watched.init minKey dflt : Watched K V m).ending u).held :=
    fun _ _ => List.not_mem_nil
  refine ⟨hS, fun _ => rfl, ⟨rfl, rfl, fun n => ⟨0, fun _ _ w hw => absurd hw List.not_mem_nil, rfl⟩⟩,
    ⟨fun _ => le_rfl, fun _ => trivial, fun u n hn => absurd hn (hheld u n),
      fun hn => absurd hn (hheld _ _), fun hd => by simp [Watched.init, Ending.drawn] at hd⟩,
    fun l => Index.Rooted.new (head l), fun l i => .inl (Finset.mem_insert_self _ _), rfl, fun t => ?_⟩
  refine ⟨fun _ => ⟨rfl, rfl, rfl, fun _ => rfl⟩, fun hl => ?_, fun n hn => absurd hn (hheld t n),
    fun _ _ => ⟨rfl, rfl, fun _ => rfl, fun _ => rfl⟩, fun _ n hn => absurd hn (AList.notMem_empty n),
    trivial, fun l n hn => absurd hn List.not_mem_nil, fun _ => rfl⟩
  exact absurd hl.1 (by simp [Conf.init, Sys.init, Sys.ctx])

/-- Every step is followed ahead. -/
theorem Tracks.next (h : Tracks P C S) (hg : Watched.PutsUnlocked P t x) (hs : P.next t x = some P') :
    ∃ C' S', Tracks P' C' S' := by
  cases x with
  | call op ch =>
    simp only [Watched.next] at hs
    split_ifs at hs with ha
    obtain ⟨⟨σ, ret⟩, hstep, rfl⟩ := Option.map_eq_some_iff.1 hs
    exact h.call ha hg hstep
  | txEnd ch =>
    simp only [Watched.next] at hs
    split_ifs at hs with ha
    obtain rfl := Option.some.inj hs
    exact h.txEnd ha.1 ha.2.1 ha.2.2
  | go p =>
    obtain ⟨⟨eff, e'⟩, hstep, rfl⟩ := Option.map_eq_some_iff.1 hs
    exact h.go hstep

theorem Watched.Run.tracks (h : Tracks P C S) (hr : P.Run Watched.PutsUnlocked P') :
    ∃ C' S', Tracks P' C' S' := by
  induction hr with
  | refl => exact ⟨C, S, h⟩
  | step _ hg hs ih =>
    obtain ⟨C', S', h'⟩ := ih
    exact h'.next hg hs

/-- A singleton `get` returns what all the commits so far have left. -/
theorem Tracks.gets (h : Tracks P C S) (hg : P.Gets t l key v P') : v = P.assoc P.commits.length l key := by
  obtain ⟨-, hT, ch, σ, hs, -⟩ := hg
  have hends : Ends (TxList.call ch (.get l key)) (P.sys.ctx t)
      (fun ret _ => ret = .val (C.sys.shared.lookup l key)) (OnAbort fun _ => False) := by
    simp only [TxList.call, Ends_bind, Ends_pure]
    exact access_ends (fun hT' => absurd (hT'.symm.trans hT) (by simp)) fun _ =>
      h.behind.getSingleton_ends (c := P.sys.ctx t) fun _ _ => rfl
  obtain ⟨c, -, hv | ⟨hv, -⟩⟩ := Sys.step_of_ends hends hs
  · obtain rfl := Ret.val.inj hv
    rw [h.serial.lookup, h.serial.replayed, h.committed, Watched.assoc, List.take_length]
  · simp at hv

/-! ## The commits of a run -/

theorem Watched.commits_next (hs : P.next t x = some P') : P.commits <+: P'.commits := by
  cases x with
  | call op ch =>
    simp only [Watched.next] at hs
    split_ifs at hs
    obtain ⟨y, -, rfl⟩ := Option.map_eq_some_iff.1 hs
    exact List.prefix_rfl
  | txEnd ch =>
    simp only [Watched.next] at hs
    split_ifs at hs
    obtain rfl := Option.some.inj hs
    exact List.prefix_append _ _
  | go p =>
    obtain ⟨y, -, rfl⟩ := Option.map_eq_some_iff.1 hs
    exact List.prefix_append _ _

theorem Watched.Run.commits (hr : P.Run G P') : P.commits <+: P'.commits := by
  induction hr with
  | refl => exact List.prefix_rfl
  | step _ _ hs ih => exact ih.trans (commits_next hs)

theorem Watched.assoc_of_prefix (h : P.commits <+: P'.commits) {i : Nat} (hi : i ≤ P.commits.length) :
    P'.assoc i l key = P.assoc i l key := by
  obtain ⟨cs, hcs⟩ := h
  rw [assoc, assoc, ← hcs, List.take_append_of_le_length hi]

/-- Updates of other keys leave a key's association as it is. -/
theorem Maps.update_of_forall {us : List (Update K V m)} :
    ∀ {M : Maps K V m}, (∀ u ∈ us, ¬ (u.list = l ∧ u.key = key)) → M.update us l key = M l key := by
  induction us with
  | nil => exact fun _ => rfl
  | cons u us ih =>
    intro M h
    have hrest : (M.set u.list u.key u.val).update us l key = M.set u.list u.key u.val l key :=
      ih fun u' hu' => h u' (List.mem_cons_of_mem _ hu')
    refine hrest.trans ?_
    have hu := h u (List.mem_cons_self ..)
    by_cases hl : u.list = l
    · subst hl
      have hk : key ≠ u.key := fun hk => hu ⟨rfl, hk.symm⟩
      simp [Maps.set, hk]
    · simp [Maps.set, Ne.symm hl]

theorem Watched.assoc_length {i : Nat}
    (h : ∀ us ∈ P.commits.drop i, ∀ u ∈ us, ¬ (u.list = l ∧ u.key = key)) :
    P.assoc P.commits.length l key = P.assoc i l key := by
  rw [assoc, assoc, List.take_length]
  conv_lhs => rw [← List.take_append_drop i P.commits, List.flatten_append, Maps.update_append]
  refine Maps.update_of_forall fun u hu => ?_
  obtain ⟨us, hus, hu⟩ := List.mem_flatten.1 hu
  exact h us hus u hu

/-! ## No commit is half visible -/

theorem Watched.Gets.next (hg : P.Gets t l key v P') :
    ∃ ch, P.next t (.call (.get l key) ch) = some P' := by
  obtain ⟨ha, -, ch, σ, hs, rfl⟩ := hg
  exact ⟨ch, by simp [Watched.next, ha, hs]⟩

/-- As long as every `put` finds its key on a node of its own write set or on one that is not locked: once
a thread's singleton `get` has returned what commit `i` has left there, none of its singleton `get`s of
another key that the commit has changed, and no later one has set, returns the association from before
it. -/
theorem Watched.Reach.no_half_visible {P₁ P₁' P₂ P₂' : Watched K V m} {i : Nat} {u : ThreadId}
    {l₁ l₂ : ListId m} {key₁ key₂ : K} {v₁ v₂ : Option V} (hr : Reach minKey dflt PutsUnlocked P₁)
    (hget₁ : P₁.GetsFrom i u l₁ key₁ v₁ P₁') (hrun : P₁'.Run PutsUnlocked P₂)
    (hget₂ : P₂.Gets u l₂ key₂ v₂ P₂') (hchanged : P₁.assoc (i + 1) l₂ key₂ ≠ P₁.assoc i l₂ key₂)
    (hlater : ∀ us ∈ P₂.commits.drop (i + 1), ∀ u ∈ us, ¬ (u.list = l₂ ∧ u.key = key₂)) :
    v₂ ≠ P₁.assoc i l₂ key₂ := by
  obtain ⟨C, S, h⟩ := Run.tracks (Tracks.init minKey dflt) hr
  obtain ⟨ch, hnext⟩ := hget₁.gets.next
  have hguard : PutsUnlocked P₁ u (.call (.get l₁ key₁) ch) := trivial
  have hrun₁ : P₁.Run PutsUnlocked P₁' := .step .refl hguard hnext
  obtain ⟨C₁, S₁, h₁⟩ := hrun₁.tracks h
  obtain ⟨C₂, S₂, h₂⟩ := hrun.tracks h₁
  have hprefix : P₁.commits <+: P₂.commits := hrun₁.commits.trans hrun.commits
  have hv : v₂ = P₁.assoc (i + 1) l₂ key₂ :=
    calc v₂ = P₂.assoc P₂.commits.length l₂ key₂ := h₂.gets hget₂
      _ = P₂.assoc (i + 1) l₂ key₂ := assoc_length hlater
      _ = P₁.assoc (i + 1) l₂ key₂ := assoc_of_prefix hprefix hget₁.committed
  rw [hv]
  exact hchanged

end Runs

/-! ## Two runs -/

namespace Watched

section Script

variable {P P' P₀ : Watched K V m} {G : Guard K V m} [∀ P t x, Decidable (G P t x)] {t : ThreadId}
  {l : ListId m} {key : K} {v : Option V} {ch : Choice}

instance : ∀ (P : Watched K V m) (t : ThreadId) (x : Turn K V m), Decidable (PutsUnlocked P t x)
  | _, _, .call (.put _ _ _) _ => inferInstanceAs (Decidable (∀ _ ∈ _, _))
  | _, _, .call .txBegin _ | _, _, .call (.remove _ _) _ | _, _, .call (.get _ _) _
  | _, _, .call (.containsKey _ _) _ | _, _, .call .txEnd _ | _, _, .call .handleAbort _
  | _, _, .txEnd _ | _, _, .go _ => inferInstanceAs (Decidable True)

/-- Take steps in turn, as long as the guard allows them. -/
def play (G : Guard K V m) [∀ P t x, Decidable (G P t x)] (P : Watched K V m) :
    List (ThreadId × Turn K V m) → Option (Watched K V m)
  | [] => some P
  | (t, x) :: xs => if G P t x then (P.next t x).bind fun P' => play G P' xs else none

theorem Run.play : ∀ {xs : List (ThreadId × Turn K V m)} {P P' : Watched K V m}, Run G P₀ P →
    P.play G xs = some P' → Run G P₀ P'
  | [], P, P', hr, h => by
    obtain rfl : P = P' := Option.some.inj h
    exact hr
  | (t, x) :: xs, P, P', hr, h => by
    simp only [Watched.play, Option.ite_none_right_eq_some] at h
    obtain ⟨hG, h⟩ := h
    obtain ⟨P₁, hn, h⟩ := Option.bind_eq_some_iff.1 h
    exact Run.play (hr.step hG hn) h

/-- The state after a singleton `get` that returns `v`. -/
def getting [DecidableEq V] (P : Watched K V m) (t : ThreadId) (l : ListId m) (key : K) (v : Option V)
    (ch : Choice) : Option (Watched K V m) :=
  if P.Allows t (.get l key) ∧ (P.sys.threads t).transaction.TX = false then
    (P.sys.step t (.get l key) ch).bind fun x =>
      if x.2 = .val v then some (P.called t (.get l key) (.val v) x.1) else none
  else none

theorem gets_of_getting [DecidableEq V] (h : P.getting t l key v ch = some P') : P.Gets t l key v P' := by
  simp only [getting, Option.ite_none_right_eq_some] at h
  obtain ⟨⟨ha, hT⟩, h⟩ := h
  obtain ⟨⟨σ, ret⟩, hs, h⟩ := Option.bind_eq_some_iff.1 h
  simp only [Option.ite_none_right_eq_some, Option.some.injEq] at h
  obtain ⟨rfl, rfl⟩ := h
  exact ⟨ha, hT, ch, σ, hs, rfl⟩

end Script

/-- Steps of a thread's `TXend`, with the node that each would unlock. -/
def going (t : ThreadId) (ns : List NodeId) : List (ThreadId × Turn Nat Nat 1) :=
  ns.map fun n => (t, .go { node := n, fuel := 12 })

/-- Two threads commit while a third one looks. -/
theorem no_half_visible_two : ∃ P₁ P₁' P₂ P₂' : Watched Nat Nat 1, Reach 0 0 PutsUnlocked P₁ ∧
    P₁.GetsFrom 1 2 0 7 (some 1) P₁' ∧ P₁'.Run PutsUnlocked P₂ ∧ P₂.Gets 2 0 9 (some 2) P₂' ∧
    P₂.commits.length = 3 ∧ some 2 ≠ P₁.assoc 1 0 9 := by
  have h : ((init 0 0 : Watched Nat Nat 1).play PutsUnlocked ([(1, .call .txBegin { fuel := 12 }),
      (1, .call (.put 0 5 1) { fuel := 12 }), (1, .call (.put 0 20 1) { fuel := 12 }),
      (1, .txEnd { fuel := 12, writeOrder := [0, 1], readOrder := [0, 1] })] ++
      going 1 (List.replicate 13 0 ++ [0, 1] ++ List.replicate 2 0) ++
      [(1, .call .txBegin { fuel := 12 }), (1, .call (.put 0 7 1) { fuel := 12 }),
        (1, .call (.put 0 9 2) { fuel := 12 }), (0, .call .txBegin { fuel := 12 }),
        (0, .call (.put 0 30 3) { fuel := 12 }),
        (1, .txEnd { fuel := 12, writeOrder := [1, 3], readOrder := [1, 3] })] ++
      going 1 (List.replicate 7 0) ++ [(0, .call (.put 0 40 5) { fuel := 12 })] ++
      going 1 (List.replicate 6 0 ++ [3, 1] ++ List.replicate 2 0))).any (fun P₁ =>
        decide ((∃ h : 1 < P₁.commits.length, ∃ u ∈ P₁.commits[1], u.list = 0 ∧ u.key = 7) ∧
          P₁.assoc 2 0 7 = some 1 ∧ P₁.assoc 2 0 9 ≠ P₁.assoc 1 0 9) &&
        (P₁.getting 2 0 7 (some 1) { fuel := 12 }).any fun P₁' =>
          (P₁'.play PutsUnlocked
            ([(0, .txEnd { fuel := 12, writeOrder := [2, 5], readOrder := [2, 5] })] ++
              going 0 (List.replicate 6 0))).any fun P₂ =>
            decide ((∀ us ∈ P₂.commits.drop 2, ∀ u ∈ us, ¬ (u.list = 0 ∧ u.key = 9)) ∧
              P₂.commits.length = 3) &&
            (P₂.getting 2 0 9 (some 2) { fuel := 12 }).isSome) = true := by
    decide +kernel
  obtain ⟨P₁, hP₁, h⟩ := Option.any_eq_true _ _ |>.1 h
  obtain ⟨hdec, h⟩ := Bool.and_eq_true_iff.1 h
  obtain ⟨⟨hlen, hu⟩, hleft, hchanged⟩ := of_decide_eq_true hdec
  obtain ⟨P₁', hP₁', h⟩ := Option.any_eq_true _ _ |>.1 h
  obtain ⟨P₂, hP₂, h⟩ := Option.any_eq_true _ _ |>.1 h
  obtain ⟨hlater, h⟩ := Bool.and_eq_true_iff.1 h
  obtain ⟨hlater, hcount⟩ := of_decide_eq_true hlater
  obtain ⟨P₂', hP₂'⟩ := Option.isSome_iff_exists.1 h
  have hr : Reach 0 0 PutsUnlocked P₁ := Run.refl.play hP₁
  have hget : P₁.GetsFrom 1 2 0 7 (some 1) P₁' := ⟨gets_of_getting hP₁', hlen, hu, hleft.symm⟩
  have hrun : P₁'.Run PutsUnlocked P₂ := Run.refl.play hP₂
  have hget' : P₂.Gets 2 0 9 (some 2) P₂' := gets_of_getting hP₂'
  exact ⟨P₁, P₁', P₂, P₂', hr, hget, hrun, hget', hcount,
    hr.no_half_visible hget hrun hget' hchanged hlater⟩

theorem half_visible : ∃ P₁ P₁' P₂ P₂' : Watched Nat Nat 1, Reach 0 0 (fun _ _ _ => True) P₁ ∧
    P₁.GetsFrom 1 2 0 20 (some 2) P₁' ∧ P₁'.Run (fun _ _ _ => True) P₂ ∧ P₂.Gets 2 0 8 none P₂' ∧
    P₁.assoc 2 0 8 ≠ P₁.assoc 1 0 8 ∧
    (∀ us ∈ P₂.commits.drop 2, ∀ u ∈ us, ¬ (u.list = 0 ∧ u.key = 8)) ∧ P₁.assoc 1 0 8 = none := by
  have h : ((init 0 0 : Watched Nat Nat 1).play (fun _ _ _ => True) ([(1, .call .txBegin { fuel := 12 }),
      (1, .call (.put 0 5 1) { fuel := 12 }), (1, .call (.put 0 7 1) { fuel := 12 }),
      (1, .call (.put 0 9 1) { fuel := 12 }),
      (1, .txEnd { fuel := 12, writeOrder := [0, 1, 2], readOrder := [0, 1, 2] })] ++
      going 1 (List.replicate 19 0 ++ [2, 1, 0] ++ List.replicate 3 0) ++
      [(1, .call .txBegin { fuel := 12 }), (1, .call (.put 0 8 1) { fuel := 12 }),
        (1, .call (.put 0 20 2) { fuel := 12 }),
        (1, .txEnd { fuel := 12, writeOrder := [2, 3], readOrder := [2, 3] })] ++
      going 1 (List.replicate 5 0) ++
      [(0, .call .txBegin { fuel := 12 }), (0, .call (.put 0 5 6) { fuel := 12 }),
        (0, .call (.put 0 7 6) { fuel := 12 })] ++
      going 1 (List.replicate 8 0 ++ [3, 2] ++ List.replicate 2 0))).any (fun P₁ =>
        decide ((∃ h : 1 < P₁.commits.length, ∃ u ∈ P₁.commits[1], u.list = 0 ∧ u.key = 20) ∧
          P₁.assoc 2 0 20 = some 2 ∧ P₁.assoc 2 0 8 ≠ P₁.assoc 1 0 8 ∧ P₁.assoc 1 0 8 = none) &&
        (P₁.getting 2 0 20 (some 2) { fuel := 12 }).any fun P₁' =>
          (P₁'.play (fun _ _ _ => True)
            ([(0, .txEnd { fuel := 12, writeOrder := [1, 2], readOrder := [1, 2] })] ++
              going 0 (List.replicate 13 0 ++ [2, 1]))).any fun P₂ =>
            decide (∀ us ∈ P₂.commits.drop 2, ∀ u ∈ us, ¬ (u.list = 0 ∧ u.key = 8)) &&
            (P₂.getting 2 0 8 none { fuel := 12 }).isSome) = true := by
    decide +kernel
  obtain ⟨P₁, hP₁, h⟩ := Option.any_eq_true _ _ |>.1 h
  obtain ⟨hdec, h⟩ := Bool.and_eq_true_iff.1 h
  obtain ⟨⟨hlen, hu⟩, hleft, hchanged, hnone⟩ := of_decide_eq_true hdec
  obtain ⟨P₁', hP₁', h⟩ := Option.any_eq_true _ _ |>.1 h
  obtain ⟨P₂, hP₂, h⟩ := Option.any_eq_true _ _ |>.1 h
  obtain ⟨hlater, h⟩ := Bool.and_eq_true_iff.1 h
  obtain ⟨P₂', hP₂'⟩ := Option.isSome_iff_exists.1 h
  exact ⟨P₁, P₁', P₂, P₂', Run.refl.play hP₁, ⟨gets_of_getting hP₁', hlen, hu, hleft.symm⟩,
    Run.refl.play hP₂, gets_of_getting hP₂', hchanged, of_decide_eq_true hlater, hnone⟩

end Watched

end TxList
