import TxList.Proofs.Running
import TxList.Proofs.Serial

/-!
# Snapshots in runs of transactions

Without singletons the maps a running transaction reads are those of the attempts that had committed
at its `TXbegin`. The guard is only about its own calls.
-/

namespace TxList

open Chain

variable {K V : Type} {m : Nat} [LinearOrder K] {C₀ C₁ C : Conf K V m} {t : ThreadId} {minKey : K}
  {dflt : V}

/-- Steps of transactions after `C₁`, in which thread `t` began one. No list call of that attempt
enters a list at an unmarked node that joined it since, or goes by a write element to a changed node. -/
def SightedTx (C₁ : Conf K V m) (t : ThreadId) : Conf.Guard K V m := fun C u op =>
  TxClient C u op ∧ (u = t → ∃ l key, op.key? = some (l, key) ∧ (C.sys.ctx t).LeadsTrue key ∧
    ∀ p, C.sys.shared.Enters (C.sys.threads t).storage l key p →
      ¬ Marked (C.sys.shared.mem p) (C.sys.threads t).transaction.readVersion →
      p = head l ∨ p ∈ C₁.sys.shared.chain l)

theorem SightedTx.sighted {u : ThreadId} {op : Op K V m} (hO : TxOnly C) (hG : SightedTx C₁ t C u op) :
    Sighted C₁ t C u op := by
  obtain ⟨hclient, hown⟩ := hG
  refine ⟨hO.safe hclient, fun hu => ?_, fun _ => ⟨fun l key val hop hT => ?_, fun _ _ n _ _ hs => ?_⟩⟩
  · obtain ⟨l, key, hop, hrest⟩ := hown hu
    have hacc : op.isAccess = true := by
      cases op <;> simp_all [Op.key?, Op.isAccess]
    exact ⟨hu ▸ TxClient.access hclient hacc, l, key, hop, hrest⟩
  · subst hop
    rw [TxClient.access hclient rfl] at hT
    simp at hT
  · rw [hO.unmarked n] at hs
    simp at hs

/-- A test for `SightedTx` where the node below the key is not one that the attempt has deleted. -/
def Conf.sightedTx [DecidableEq V] (C₁ : Conf K V m) (t : ThreadId) (C : Conf K V m) (u : ThreadId)
    (op : Op K V m) : Bool :=
  decide (TxClient C u op) && (decide (u ≠ t) || op.key?.any fun x =>
    let ls := (C.sys.threads t).storage
    let pred := C.sys.shared.below x.1 x.2
    !ls.deletes pred && decide (pred = head x.1 ∨ pred ∈ C₁.sys.shared.chain x.1) &&
      ls.writeSet.keys.all fun n => ((ls.writeSet.lookup n).bind (·.next)).all fun y =>
        decide ((C.sys.shared.mem y).key = x.2 →
          ¬ Marked (C.sys.shared.mem y) (C.sys.threads t).transaction.readVersion))

theorem SightedTx.of_test [DecidableEq V] {u : ThreadId} {op : Op K V m}
    (h : C₁.sightedTx t C u op = true) : SightedTx C₁ t C u op := by
  simp only [Conf.sightedTx, Bool.and_eq_true, Bool.or_eq_true, decide_eq_true_eq] at h
  refine ⟨h.1, fun hu => ?_⟩
  obtain ⟨⟨l, key⟩, hkey, hx⟩ := (Option.any_eq_true _ _).1 (h.2.resolve_left fun hne => hne hu)
  simp only [Bool.and_eq_true, Bool.not_eq_true', decide_eq_true_eq] at hx
  obtain ⟨⟨hdel, hbelow⟩, hall⟩ := hx
  have hfirst : ∀ p, C.sys.shared.Enters (C.sys.threads t).storage l key p →
      p = C.sys.shared.below l key := by
    intro p hp
    induction hp with
    | first => rfl
    | back _ hd ih =>
      rw [ih, hdel] at hd
      simp at hd
  refine ⟨l, key, hkey, fun n we y hlook hnext hk => ?_, fun p hp _ => hfirst p hp ▸ hbelow⟩
  have hlook : (C.sys.threads t).storage.writeSet.lookup n = some we := hlook
  have hn : n ∈ (C.sys.threads t).storage.writeSet.keys :=
    AList.mem_keys.1 (AList.lookup_isSome.1 (by rw [hlook]; rfl))
  have hy := List.all_eq_true.1 hall n hn
  rw [hlook] at hy
  simp only [Option.bind_some, hnext, Option.all_some, decide_eq_true_eq] at hy
  exact hy hk

/-- What the calls of an attempt have read, also one that will abort, are lookups in the replay of
the attempts that had committed at its `TXbegin`, with its own updates over it. -/
theorem reads_replay_of_began (hr : Conf.Reach minKey dflt TxClient C₀) (hG : TxClient C₀ t .txBegin)
    (hb : C₀.Step t .txBegin .unit C₁) (hrun : C₁.Run (SightedTx C₁ t) C) :
    (Maps.empty.replay C₁.hist.committed.flatten).All Rec.ReadReplays (C.hist.current t) := by
  obtain ⟨hO, S, h⟩ := Serial.of_reach hr
  have hO₁ := hO.step hG hb
  have hrun' := (hrun.induct hO₁ (fun h hg => hg.sighted h) fun h hg hst => h.step hg.1 hst).1
  obtain ⟨hI₁, hcur, hz⟩ := Running.begin h.inv (hO.safe hG) hb
  obtain ⟨-, hE, -⟩ := Running.run hI₁ hcur hz hrun'
  obtain ⟨S₁, h₁⟩ := h.step hO hG hb
  have hmaps : C₁.sys.shared.lookup = Maps.empty.replay C₁.hist.committed.flatten := by
    funext l key
    rw [h₁.lookup, h₁.replayed]
  rwa [hmaps] at hE

/-- A transaction with a write of its own reads on while another commits, and throws when it comes to
the changed node. -/
theorem reads_replay_of_began_thrown : ∃ C₀ C₁ C : Conf Nat Nat 1, Conf.Reach 0 0 TxClient C₀ ∧
    C₀.Step 0 .txBegin .unit C₁ ∧ C₁.Run (SightedTx C₁ 0) C ∧ C.hist.thrown 0 = true ∧
    C.hist.committed.length = 2 ∧ C.hist.current 0 = [.get 0 5 (some 1), .put 0 6 9 none,
      .get 0 6 (some 9), .containsKey 0 7 true, .containsKey 0 3 false] ∧
    (Maps.empty.replay C₁.hist.committed.flatten).All Rec.ReadReplays (C.hist.current 0) := by
  obtain ⟨C₀, hr, hI, hp⟩ := Conf.exists_reach_of_decidable (G := TxClient) 0 0 2
    [(1, .txBegin), (1, .put 0 5 1), (1, .put 0 7 2), (1, .txEnd)]
    (fun C₀ : Conf Nat Nat 1 => decide (TxClient C₀ 0 .txBegin) && C₀.after 0 .txBegin .unit
      fun C₁ : Conf Nat Nat 1 => (C₁.script (C₁.sightedTx 0) 2 [(0, .get 0 5), (1, .txBegin),
        (0, .put 0 6 9), (1, .put 0 7 4), (1, .put 0 9 6), (0, .get 0 6), (0, .containsKey 0 7),
        (1, .txEnd), (0, .containsKey 0 3), (0, .get 0 9)]).any fun C : Conf Nat Nat 1 =>
          decide (C.hist.thrown 0 = true ∧ C.hist.committed.length = 2 ∧
            C.hist.current 0 = [.get 0 5 (some 1), .put 0 6 9 none, .get 0 6 (some 9),
              .containsKey 0 7 true, .containsKey 0 3 false]))
    (by decide +kernel)
  rw [Bool.and_eq_true, decide_eq_true_eq] at hp
  obtain ⟨C₁, hst, hrest⟩ := Conf.step_of_after hp.2
  obtain ⟨C, hrun, -, hC⟩ := Conf.exists_run (G := SightedTx C₁ 0) (hI.step (by decide) hst) _ _
    (fun C t op _ hg => .of_test hg) hrest
  obtain ⟨hth, hcom, hcur⟩ := of_decide_eq_true hC
  exact ⟨C₀, C₁, C, hr, hst, hrun, hth, hcom, hcur, reads_replay_of_began hr hp.1 hst hrun⟩

/-- Two `get`s of one key between which another transaction commits, with nothing thrown: they find
no value and then the new one, because the search enters at a node of the commit. -/
theorem second_get_differs : ¬ ∀ (C : Conf Nat Nat 1) (t : ThreadId),
    Conf.Reach 0 0 TxClient C → ∃ M : Maps Nat Nat 1, M.All Rec.ReadReplays (C.hist.current t) := by
  intro h
  obtain ⟨C, hr, -, hp⟩ := Conf.exists_reach_of_decidable (G := TxClient) 0 0 2
    [(0, .txBegin), (0, .get 0 7), (1, .txBegin), (1, .put 0 7 4), (1, .put 0 5 3), (1, .txEnd),
      (0, .get 0 7)]
    (fun C : Conf Nat Nat 1 => decide (C.hist.current 0 = [.get 0 7 none, .get 0 7 (some 4)]))
    (by decide +kernel)
  obtain ⟨M, hM⟩ := h C 0 hr
  rw [of_decide_eq_true hp] at hM
  obtain ⟨hfirst, hsecond, -⟩ := hM
  have hfirst : none = M 0 7 := hfirst
  have hsecond : some 4 = M 0 7 := hsecond
  rw [← hfirst] at hsecond
  simp at hsecond

end TxList
