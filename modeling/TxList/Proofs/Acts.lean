import TxList.Proofs.FindNode
import TxList.Proofs.SingletonChange

/-!
# What a call can do

`Act` lists once everything a call ends in when the lists are in order and the transaction, as long
as it has read nothing that was changed since, sees sorted lists. The proofs about runs are case
analyses of it.
-/

namespace TxList

open Prog Chain

variable {K V : Type} {m : Nat}

/-- No node that was read has been changed since the transaction began. -/
def Ctx.Valid (c : Ctx K V m) : Prop :=
  ∀ n ∈ c.storage.readSet, ¬ Marked (c.shared.mem n) c.transaction.readVersion

/-- The transaction is open and would pass the validation of `TXend`. -/
def Ctx.Live (c : Ctx K V m) : Prop := c.transaction.TX = true ∧ c.Valid

/-- The transaction becomes one that writes. -/
def Ctx.writing (c : Ctx K V m) : Ctx K V m :=
  { c with transaction := { c.transaction with readOnly := false } }

/-- Nodes may have been allocated, but none that was there is changed. -/
structure Quiet (s s' : Shared K V m) : Prop where
  fresh : s.fresh ≤ s'.fresh
  mem : ∀ n < s.fresh, s'.mem n = s.mem n
  word : ∀ n, (s'.mem n).word = (s.mem n).word ∨ (s'.mem n).word = {}
  index : s'.index = s.index

theorem Quiet.refl (s : Shared K V m) : Quiet s s :=
  ⟨le_rfl, fun _ _ => rfl, fun _ => .inl rfl, rfl⟩

theorem Quiet.alloc (s : Shared K V m) {x : LNode K V} (hx : x.word = {}) : Quiet s (s.alloc x) := by
  refine ⟨Nat.le_succ _, fun n hn => ?_, fun n => ?_, rfl⟩
  · simp [Function.update_of_ne (show n ≠ s.fresh from hn.ne)]
  · by_cases hn : n = s.fresh
    · exact .inr (by simp [hn, hx])
    · exact .inl (by simp [hn])

theorem Thrown.quiet {c c' : Ctx K V m} (h : Thrown c c') : Quiet c.shared c'.shared := by
  rw [h.shared]
  exact ⟨le_rfl, fun _ _ => rfl, fun _ => .inl rfl, rfl⟩

/-- The transaction stays open, and the shared memory quiet. -/
structure Ctx.StaysQuiet (c c' : Ctx K V m) : Prop where
  quiet : Quiet c.shared c'.shared
  stays : c'.transaction.TX = c.transaction.TX

variable [LinearOrder K]

/-- The value of a key among the nodes `A`. -/
def Reads (rank : NodeId → WithBot K) (val : NodeId → Option V) (A : Finset NodeId) (key : K) :
    Option V → Prop
  | none => ∀ n ∈ A, rank n ≠ key
  | some v => ∃ n ∈ A, rank n = key ∧ val n = some v

/-- A call `op` from `c`, where the lists hold the nodes `S`, ending in a value or an exception and
in the state given last. -/
inductive Act (S : ListId m → Finset NodeId) (c : Ctx K V m) : Op K V m → Ret V → Ctx K V m → Prop
  | opened : Act S c .txBegin .unit { c with
      transaction := { c.transaction with TX := true, readVersion := c.shared.gvc } }
  | handled (r : List NodeId) : Act S c .handleAbort .unit
      ({ c with shared := { c.shared with retired := r } } : Ctx K V m).cleaned
  | rejected : Act S c .txEnd .aborted c.cleaned
  | cleared {n : NodeId} : Clears c n c.transaction.readVersion →
      (c.shared.mem n).word.singleton = true →
      Act S c .txEnd .aborted ({ c with shared := c.shared.clearMark n } : Ctx K V m).cleaned
  | finished : c.Live → c.transaction.readOnly = true → Act S c .txEnd (.bool true) c.cleaned
  | committed {c' : Ctx K V m} : c.Live → c.transaction.readOnly = false → c.written.Updated c' →
      Mutates c.shared c'.shared S (fun l => c.storage.gone (S l)) (fun l => c.storage.added l)
        c.storage.written → Act S c .txEnd (.bool true) c'.cleaned
  | thrown {op : Op K V m} {c' : Ctx K V m} : op.isAccess = true → c.transaction.TX = true →
      Thrown c c' → Act S c op .aborted c'
  | strayed {op : Op K V m} {ret : Ret V} {c' : Ctx K V m} : op.isAccess = true →
      c.transaction.TX = true → ¬ c.Live → c.StaysQuiet c' → Act S c op ret c'
  | overwrote {l : ListId m} {key : K} {val : V} {x : NodeId} : c.Live → x ∈ c.storage.seen S l →
      c.shared.rank x = key → Act S c (.put l key val) (.val (c.shared.mem x).val)
        { c.writing with storage := c.storage.overwrite c.shared.mem x val }
  | inserted {l : ListId m} {key : K} {val : V} {p : NodeId} {x : LNode K V} : c.Live →
      IsPrev c.shared.rank (c.storage.seen S l) (head l) key p →
      (∀ n ∈ c.storage.seen S l, c.shared.rank n ≠ key) →
      x = { key := key, val := some val, next := c.storage.nextOf c.shared.mem p } →
      Act S c (.put l key val) (.val none) { c.writing with
        shared := c.shared.alloc x
        storage := c.storage.insertAfter (c.shared.alloc x).mem l p c.shared.fresh }
  | unlinked {l : ListId m} {key : K} {p x : NodeId} : c.Live → x ∈ c.storage.seen S l →
      c.shared.rank x = key → IsPrev c.shared.rank (c.storage.seen S l) (head l) key p →
      Act S c (.remove l key) (.val (c.storage.valOf c.shared.mem x)) { c.writing with
        storage := c.storage.unlink c.shared.mem l p x (c.storage.nextOf c.shared.mem x) }
  | missed {l : ListId m} {key : K} {p : NodeId} : c.Live →
      IsPrev c.shared.rank (c.storage.seen S l) (head l) key p →
      (∀ n ∈ c.storage.seen S l, c.shared.rank n ≠ key) →
      Act S c (.remove l key) (.val none) { c.writing with storage := c.storage.addToReadSet p }
  | read {l : ListId m} {key : K} {p : NodeId} {o : Option V} : c.Live →
      IsPrev c.shared.rank (c.storage.seen S l) (head l) key p →
      Reads c.shared.rank (c.storage.valOf c.shared.mem) (c.storage.seen S l) key o →
      Act S c (.get l key) (.val o) { c with storage := c.storage.addToReadSet p }
  | contained {l : ListId m} {key : K} {p : NodeId} {o : Option V} : c.Live →
      IsPrev c.shared.rank (c.storage.seen S l) (head l) key p →
      Reads c.shared.rank (c.storage.valOf c.shared.mem) (c.storage.seen S l) key o →
      Act S c (.containsKey l key) (.bool o.isSome) { c with storage := c.storage.addToReadSet p }
  | stamped {l : ListId m} {key : K} {val : V} {y : NodeId} : c.transaction.TX = false → y ∈ S l →
      c.shared.rank y = key → Act S c (.put l key val) (.val (c.shared.mem y).val)
        { c with shared := c.shared.stampValue y val }
  | linked {l : ListId m} {key : K} {val : V} {p : NodeId} {s' : Shared K V m} :
      c.transaction.TX = false → IsPrev c.shared.rank (S l) (head l) key p →
      (∀ n ∈ S l, c.shared.rank n ≠ key) →
      s'.mem = (c.shared.insertStamped key val p (c.shared.next p)).mem →
      Mutates c.shared s' S (fun _ => ∅) (only l {c.shared.fresh}) {p} →
      Act S c (.put l key val) (.val none) { c with shared := s' }
  | cut {l : ListId m} {key : K} {p x : NodeId} {s' : Shared K V m} : c.transaction.TX = false →
      p ∈ insert (head l) (S l) → c.shared.next p = some x → c.shared.rank x = key →
      s'.mem = (c.shared.unlinkStamped p x).mem →
      Mutates c.shared s' S (only l {x}) (fun _ => ∅) {p, x} →
      Act S c (.remove l key) (.val (c.shared.mem x).val) { c with shared := s' }
  | absent {l : ListId m} {key : K} : c.transaction.TX = false →
      (∀ n ∈ S l, c.shared.rank n ≠ key) → Act S c (.remove l key) (.val none) c
  | gotten {l : ListId m} {key : K} : c.transaction.TX = false →
      Act S c (.get l key) (.val (c.shared.lookup l key)) c
  | checked {l : ListId m} {key : K} : c.transaction.TX = false →
      Act S c (.containsKey l key) (.bool (c.shared.lookup l key).isSome) c

section Calls

variable {S : ListId m → Finset NodeId} {c : Ctx K V m} {ch : Choice} {l : ListId m} {key : K}
  {val : V} {fuel : Nat} {level : NodeId → Nat} {E : Err → Ctx K V m → Prop}

/-- Every end of `x`, with what it returns as `f` gives it, is one of the call `op`. -/
def Acting (S : ListId m → Finset NodeId) (c : Ctx K V m) (op : Op K V m) {α : Type} (f : α → Ret V)
    (x : Call K V m α) : Prop :=
  Ends x c (fun v => Act S c op (f v)) (OnAbort (Act S c op .aborted))

/-! ## In a transaction -/

omit [LinearOrder K] in
/-- A search that throws does the same whether the transaction was already one that writes. -/
theorem Thrown.of_writing {c' : Ctx K V m} (h : Thrown c.writing c') : Thrown c c' :=
  ⟨h.shared, h.closed⟩

theorem Act.of_thrown {op : Op K V m} (hop : op.isAccess = true) (hT : c.transaction.TX = true)
    {e : Err} {c' : Ctx K V m} (h : OnAbort (Thrown c) e c') : OnAbort (Act S c op .aborted) e c' := by
  rcases e with _ | _ | _ | _
  · exact .thrown hop hT h
  all_goals trivial

/-- What `find_node` finds in a live transaction. -/
def FoundAt (S : ListId m → Finset NodeId) (c : Ctx K V m) (l : ListId m) (key : K)
    (r : Bool × NodeId × Option NodeId) (c' : Ctx K V m) : Prop :=
  c' = c ∧ IsPrev c.shared.rank (c.storage.seen S l) (head l) key r.2.1 ∧
    r.1 = seesKey c key r.2.1 ∧ r.2.2 = c.storage.nextOf c.shared.mem r.2.1

section View

variable (hL : Lists c.shared S) (hO : Overlay c.shared S c.storage)

include hL hO

theorem Overlay.find_node_found : Ends (find_node fuel l key) c (FoundAt S c l key)
    (OnAbort (Thrown c)) :=
  hO.find_node_ends hL fun _ hp => ⟨rfl, hp, rfl, rfl⟩

theorem FoundAt.found {pred x : NodeId} {c' : Ctx K V m}
    (h : FoundAt S c l key (true, pred, some x) c') : c' = c ∧
      IsPrev c.shared.rank (c.storage.seen S l) (head l) key pred ∧ x ∈ c.storage.seen S l ∧
      c.shared.rank x = key := by
  obtain ⟨rfl, hp, hs, hn⟩ := h
  have hx := (hO.threads l).next_mem hp.1 hn.symm
  refine ⟨rfl, hp, hx, ?_⟩
  simp only at hn hs
  rw [seesKey, ← hn] at hs
  rw [hO.rank_seen hL hx, of_decide_eq_true hs.symm]

theorem FoundAt.missing {found : Bool} {pred : NodeId} {next : Option NodeId} {c' : Ctx K V m}
    (h : FoundAt S c l key (found, pred, next) c') (hno : found = true → next = none) : c' = c ∧
      IsPrev c.shared.rank (c.storage.seen S l) (head l) key pred ∧
      (∀ n ∈ c.storage.seen S l, c.shared.rank n ≠ key) ∧
      next = c.storage.nextOf c.shared.mem pred := by
  obtain ⟨rfl, hp, hs, hn⟩ := h
  simp only at hp hn hs
  refine ⟨rfl, hp, fun n hnS hk => ?_, hn⟩
  rw [← hk] at hp
  have hnext := (hO.threads l).next_of_isPrev hnS hp
  have hfound : found = true := by
    rw [hs, seesKey, hnext]
    rw [hO.rank_seen hL hnS, WithBot.coe_inj] at hk
    simpa using hk
  rw [hno hfound] at hn
  rw [← hn] at hnext
  simp at hnext

theorem Overlay.put_acts (h : c.Live) :
    Acting S c (.put l key val) .val (putTX fuel l key val) := by
  refine putTX_ends (R := FoundAt S c.writing l key) ((Overlay.find_node_found (c := c.writing) hL hO).mono
    (fun _ _ he => he) fun e c' he => ?_) (fun pred x c' hr => ?_) fun found pred next c' hr hno => ?_
  · refine Act.of_thrown rfl h.1 (e := e) ?_
    rcases e with _ | _ | _ | _
    · exact Thrown.of_writing he
    all_goals trivial
  · obtain ⟨rfl, -, hx, hk⟩ := hr.found (c := c.writing) hL hO
    exact .overwrote h hx hk
  · obtain ⟨rfl, hp, habs, rfl⟩ := hr.missing (c := c.writing) hL hO hno
    exact .inserted h hp habs rfl

theorem Overlay.remove_acts (h : c.Live) :
    Acting S c (.remove l key) .val (removeTX fuel l key) := by
  have hthrow : ∀ {e : Err} {c' : Ctx K V m}, OnAbort (Thrown c.writing) e c' →
      OnAbort (Act S c (.remove l key) .aborted) e c' := by
    intro e c' he
    refine Act.of_thrown rfl h.1 (e := e) ?_
    rcases e with _ | _ | _ | _
    · exact Thrown.of_writing he
    all_goals trivial
  refine removeTX_ends (R := FoundAt S c.writing l key)
    (N := fun _ x o _ => o = c.storage.nextOf c.shared.mem x)
    ((Overlay.find_node_found (c := c.writing) hL hO).mono (fun _ _ he => he) fun e c' he => hthrow he)
    (fun pred x c' hr => ?_) (fun pred x o c' hr ho => ?_) fun found pred next c' hr hno => ?_
  · obtain ⟨rfl, -, -, -⟩ := hr.found (c := c.writing) hL hO
    refine (getNext_ends fun _ => ?_).mono (fun _ _ he => he) fun e c' he => hthrow (e := e) ?_
    · exact ⟨rfl, rfl⟩
    · rcases e with _ | _ | _ | _
      · exact ⟨he.shared, he.closed⟩
      all_goals trivial
  · obtain ⟨rfl, hp, hx, hk⟩ := hr.found (c := c.writing) hL hO
    rw [ho]
    have hne : pred ≠ x := fun he => hp.2.1.ne (by rw [he, ← hk])
    show Act S c _ (.val ((c.storage.relink c.shared.mem pred _).valOf c.shared.mem x)) _
    rw [LocalStorage.relink_valOf _ _ hne]
    exact .unlinked h hx hk hp
  · obtain ⟨rfl, hp, habs, -⟩ := hr.missing (c := c.writing) hL hO hno
    exact .missed h hp habs

theorem Overlay.get_acts {op : Op K V m} {f : Option V → Ret V} (h : c.Live)
    (hop : op.isAccess = true) (hact : ∀ {p o}, IsPrev c.shared.rank (c.storage.seen S l) (head l) key p →
      Reads c.shared.rank (c.storage.valOf c.shared.mem) (c.storage.seen S l) key o →
      Act S c op (f o) { c with storage := c.storage.addToReadSet p }) :
    Acting S c op f (getTX fuel l key) := by
  refine getTX_ends (R := FoundAt S c l key) ((hO.find_node_found hL).mono
    (fun _ _ he => he) fun e c' he => Act.of_thrown hop h.1 he) (fun pred x c' hr => ?_)
    fun found pred next c' hr hno => ?_
  · obtain ⟨rfl, hp, hx, hk⟩ := hr.found hL hO
    obtain ⟨v, hv⟩ := Option.isSome_iff_exists.1 (hO.val l x (Finset.mem_insert_of_mem hx))
    rw [hv]
    exact hact hp ⟨x, hx, hk, hv⟩
  · obtain ⟨rfl, hp, habs, -⟩ := hr.missing hL hO hno
    exact hact hp habs

end View

/-- A list operation of a transaction that has read something changed since. -/
theorem Lists.stray_acts {op : Op K V m} {α : Type} {x : Call K V m α} {f : α → Ret V}
    (hT : c.transaction.TX = true) (hno : ¬ c.Live) (hop : op.isAccess = true)
    (hx : Ends x c (fun _ => c.StaysQuiet) (OnAbort (Thrown c))) :
    Acting S c op f x := by
  exact hx.mono (fun _ _ h => .strayed hop hT hno h) fun _ _ h => Act.of_thrown hop hT h

section Stray

variable (hL : Lists c.shared S)

include hL

theorem Lists.putTX_quiet : Ends (putTX fuel l key val) c (fun _ => c.StaysQuiet)
    (OnAbort (Thrown c)) := by
  refine putTX_ends (R := fun _ c' => c' = c.writing) ((Lists.find_node_same (c := c.writing) hL).mono
    (fun _ _ he => he) fun e c' he => ?_) (fun pred x c' hr => ?_) fun found pred next c' hr _ => ?_
  · rcases e with _ | _ | _ | _
    · exact Thrown.of_writing he
    all_goals trivial
  · rw [hr]
    exact ⟨.refl _, rfl⟩
  · rw [hr]
    exact ⟨.alloc _ rfl, rfl⟩

theorem Lists.removeTX_quiet : Ends (removeTX fuel l key) c (fun _ => c.StaysQuiet)
    (OnAbort (Thrown c)) := by
  refine removeTX_ends (R := fun _ c' => c' = c.writing) (N := fun _ _ _ _ => True)
    ((Lists.find_node_same (c := c.writing) hL).mono (fun _ _ he => he) fun e c' he => ?_)
    (fun pred x c' hr => ?_) (fun pred x o c' hr _ => ?_) fun found pred next c' hr _ => ?_
  · rcases e with _ | _ | _ | _
    · exact Thrown.of_writing he
    all_goals trivial
  · rw [hr]
    refine (getNext_ends fun _ => ⟨rfl, trivial⟩).mono (fun _ _ he => he) fun e c' he => ?_
    rcases e with _ | _ | _ | _
    · exact ⟨he.shared, he.closed⟩
    all_goals trivial
  · rw [hr]
    exact ⟨.refl _, rfl⟩
  · rw [hr]
    exact ⟨.refl _, rfl⟩

theorem Lists.getTX_quiet : Ends (getTX fuel l key) c (fun _ => c.StaysQuiet)
    (OnAbort (Thrown c)) := by
  refine getTX_ends (R := fun _ c' => c' = c) hL.find_node_same (fun pred x c' hr => ?_)
    fun found pred next c' hr _ => ?_ <;>
  · rw [hr]
    exact ⟨.refl _, rfl⟩

end Stray

/-! ## As a singleton -/

section Singleton

/-- What `find_node_singelton` finds. -/
def Lists.FoundSingle (S : ListId m → Finset NodeId) (c : Ctx K V m) (l : ListId m) (key : K)
    (r : Bool × NodeId × Option NodeId) (c' : Ctx K V m) : Prop :=
  c' = c ∧ IsPrev c.shared.rank (S l) (head l) key r.2.1 ∧
    r.1 = found c.shared key r.2.1 ∧ r.2.2 = c.shared.next r.2.1

/-- `putSingleton` does not get to its end with this fuel. -/
def Lists.PutStarved (S : ListId m → Finset NodeId) (c : Ctx K V m) (fuel : Nat)
    (level : NodeId → Nat) (l : ListId m) (key : K) (val : V) : Prop :=
  Starved c fuel l key ∨ ∃ p, IsPrev c.shared.rank (S l) (head l) key p ∧
    (∀ n ∈ S l, c.shared.rank n ≠ key) ∧
    (c.shared.index l).add (c.shared.insertStamped key val p (c.shared.next p)).view fuel
      (level c.shared.fresh) c.shared.fresh = none

/-- `removeSingleton` does not get to its end with this fuel. -/
def Lists.RemoveStarved (S : ListId m → Finset NodeId) (c : Ctx K V m) (fuel : Nat)
    (l : ListId m) (key : K) : Prop :=
  Starved c fuel l key ∨ ∃ p x, IsPrev c.shared.rank (S l) (head l) key p ∧
    c.shared.next p = some x ∧
    (c.shared.index l).remove (c.shared.unlinkStamped p x).view fuel x = none

variable (hL : Lists c.shared S) (hs : Sane c) (hT : c.transaction.TX = false)

include hL hs

theorem Lists.find_node_singelton_found (hE : Starved c fuel l key → E .diverged c) :
    Ends (find_node_singelton fuel l key fuel) c (FoundSingle S c l key) E :=
  hL.find_node_singelton_ends hs.unlocked (fun _ hp => ⟨rfl, hp, rfl, rfl⟩) hE

/-- With no lock held nothing keeps a singleton from its work. -/
theorem Lists.not_blocksPut {r : Bool × NodeId × Option NodeId} {c' : Ctx K V m}
    (h : FoundSingle S c l key r c') : ¬ c'.shared.BlocksPut key r := by
  obtain ⟨rfl, hp, hf, hn⟩ := h
  obtain ⟨b, p, o⟩ := r
  simp only at hp hf hn
  subst hn
  rcases b with _ | _
  · rintro (h | h | h)
    · rw [hs.unlocked p] at h
      simp at h
    · rw [(hL.live l p hp.1).2] at h
      simp at h
    · exact h rfl
  · obtain ⟨y, hy, hpy, hk⟩ := (hL.found_iff hp).1 hf.symm
    rintro ⟨y', hy', h⟩
    obtain rfl : y = y' := Option.some.inj (hpy.symm.trans hy')
    rcases h with h | h | h | h
    · rw [hs.unlocked y] at h
      simp at h
    · exact h hpy
    · rw [hL.rank_mem hy, WithBot.coe_inj] at hk
      exact h hk
    · rw [(hL.live l y (Finset.mem_insert_of_mem hy)).2] at h
      simp at h

theorem Lists.not_blocksRemove {p : NodeId} {o : Option NodeId} {c' : Ctx K V m}
    (h : FoundSingle S c l key (true, p, o) c') : ¬ c'.shared.BlocksRemove p o := by
  obtain ⟨rfl, hp, -, hn⟩ := h
  simp only at hp hn
  subst hn
  rintro (h | h | h | ⟨x, hx, h⟩)
  · rw [hs.unlocked p] at h
    simp at h
  · rw [(hL.live l p hp.1).2] at h
    simp at h
  · exact h rfl
  · rcases h with rfl | h
    · exact absurd ((hL.threads l).lt_next hp.1 hx) (lt_irrefl _)
    · rw [hs.unlocked x] at h
      simp at h

/-- After the insertion the index, which does not hold the new node yet, can take it. -/
theorem Lists.insertStamped_ready (val : V) {p : NodeId} (hp : IsPrev c.shared.rank (S l) (head l) key p)
    (habs : ∀ n ∈ S l, c.shared.rank n ≠ key) :
    let s := c.shared.insertStamped key val p (c.shared.next p)
    Index.Indexed s.view s.rank (head l) (s.index l) (S l) ∧
      (s.mem (head l)).val.isSome = true ∧ (∀ a ∈ S l, (s.mem a).val.isSome = true) ∧
      ∀ a ∈ S l, s.rank a ≠ s.rank c.shared.fresh := by
  intro s
  have hpf := hL.lt_fresh hs.heads hp.1
  have hmem : ∀ k < c.shared.fresh, (s.mem k).key = (c.shared.mem k).key ∧
      (s.mem k).val = (c.shared.mem k).val := by
    intro k hk
    by_cases hkp : k = p
    · subst hkp
      simp [s, Shared.insertStamped]
    · simp [s, Shared.insertStamped, hkp, Function.update_of_ne (show k ≠ _ from hk.ne)]
  have hkeynew : (s.mem c.shared.fresh).key = key := by
    simp [s, Shared.insertStamped, Function.update_of_ne (show c.shared.fresh ≠ p from hpf.ne')]
  have hrank : ∀ k < c.shared.fresh, s.rank k = c.shared.rank k := fun k hk => by
    simp only [Shared.rank, (hmem k hk).1]
  refine ⟨(hL.indexed l).congr (fun k hk => hrank k (hL.lt_fresh hs.heads hk))
    fun k hk => (hmem k (hL.bound l k hk).2).1, ?_, fun a ha => ?_, fun a ha => ?_⟩
  · rw [(hmem _ (hL.lt_fresh hs.heads (Finset.mem_insert_self _ _))).2]
    exact (hL.live l _ (Finset.mem_insert_self _ _)).1
  · rw [(hmem a (hL.bound l a ha).2).2]
    exact hL.all_live l a ha
  · rw [hrank a (hL.bound l a ha).2, s.rank_of_le hs.heads, hkeynew]
    exact habs a ha

omit hs in
/-- After the removal the index, which holds the dead node still, can lose it. -/
theorem Lists.unlinkStamped_ready {p x : NodeId} (hp : IsPrev c.shared.rank (S l) (head l) key p)
    (hx : c.shared.next p = some x) :
    let s := c.shared.unlinkStamped p x
    Index.Indexed s.view s.rank (head l) (s.index l) (S l) ∧
      (s.mem (head l)).val.isSome = true ∧
      (∀ a ∈ S l, a ≠ x → (s.mem a).val.isSome = true) ∧ (s.mem x).val.isSome = false := by
  intro s
  have hxS := (hL.threads l).next_mem hp.1 hx
  have hne : p ≠ x := fun he => ((hL.threads l).lt_next hp.1 hx).ne (by rw [he])
  have hkey : ∀ k, (s.mem k).key = (c.shared.mem k).key := by
    intro k
    by_cases hkp : k = p
    · subst hkp
      simp [s, Shared.unlinkStamped, hne]
    · by_cases hkx : k = x
      · subst hkx
        simp [s, Shared.unlinkStamped, hkp]
      · simp [s, Shared.unlinkStamped, hkp, hkx]
  have hval : ∀ k, k ≠ x → (s.mem k).val = (c.shared.mem k).val := by
    intro k hkx
    by_cases hkp : k = p
    · subst hkp
      simp [s, Shared.unlinkStamped, hne]
    · simp [s, Shared.unlinkStamped, hkp, hkx]
  have hrank : s.rank = c.shared.rank := by
    funext k
    simp only [Shared.rank, hkey k]
  refine ⟨(hL.indexed l).congr (fun k _ => by rw [hrank]) fun k _ => hkey k, ?_, fun a ha hax => ?_,
    ?_⟩
  · rw [hval (head l) fun he => (hL.threads l).not_mem (he ▸ hxS)]
    exact (hL.live l _ (Finset.mem_insert_self _ _)).1
  · rw [hval a hax]
    exact hL.all_live l a ha
  · simp [s, Shared.unlinkStamped, hne.symm]

/-- Given the fuel, `putSingleton` gets to its end. -/
theorem Lists.not_putStarved (level : NodeId → Nat) (l : ListId m) (key : K) (val : V) :
    ∃ fuel, ¬ PutStarved S c fuel level l key val := by
  obtain ⟨N₁, hN₁⟩ := hL.not_starved l key
  by_cases hp : ∃ p, IsPrev c.shared.rank (S l) (head l) key p ∧ ∀ n ∈ S l, c.shared.rank n ≠ key
  · obtain ⟨p, hp, habs⟩ := hp
    obtain ⟨hI, hhead, -, hne⟩ := hL.insertStamped_ready hs val hp habs
    obtain ⟨-, N₂, hN₂⟩ := Index.add_spec hI (Shared.rank_head _ l) hhead
      (Shared.rank_of_le _ hs.heads) (fun a ha _ => hne a ha) (level c.shared.fresh)
    refine ⟨max N₁ N₂, ?_⟩
    rintro (h | ⟨q, hq, -, hno⟩)
    · exact hN₁ _ (le_max_left _ _) h
    · obtain rfl := IsPrev.unique (hL.threads l).toRanked hq hp
      have := hN₂ _ (le_max_right N₁ N₂)
      rw [show (c.shared.insertStamped key val q (c.shared.next q)).index l = c.shared.index l
        from rfl, hno] at this
      simp at this
  · refine ⟨N₁, ?_⟩
    rintro (h | ⟨q, hq, habs, -⟩)
    · exact hN₁ _ le_rfl h
    · exact hp ⟨q, hq, habs⟩

omit hs in
/-- Given the fuel, `removeSingleton` gets to its end. -/
theorem Lists.not_removeStarved (l : ListId m) (key : K) :
    ∃ fuel, ¬ RemoveStarved S c fuel l key := by
  obtain ⟨N₁, hN₁⟩ := hL.not_starved l key
  by_cases hp : ∃ p x, IsPrev c.shared.rank (S l) (head l) key p ∧ c.shared.next p = some x
  · obtain ⟨p, x, hp, hx⟩ := hp
    have hxS := (hL.threads l).next_mem hp.1 hx
    obtain ⟨hI, hhead, -, hdead⟩ := hL.unlinkStamped_ready hp hx
    obtain ⟨-, N₂, hN₂⟩ := Index.remove_spec hI (Shared.rank_head _ l) hhead
      (Shared.rank_of_le _ (hL.bound l x hxS).1) hdead
    refine ⟨max N₁ N₂, ?_⟩
    rintro (h | ⟨q, y, hq, hy, hno⟩)
    · exact hN₁ _ (le_max_left _ _) h
    · obtain rfl := IsPrev.unique (hL.threads l).toRanked hq hp
      obtain rfl := Option.some.inj (hx.symm.trans hy)
      have := hN₂ _ (le_max_right N₁ N₂)
      rw [show (c.shared.unlinkStamped q x).index l = c.shared.index l from rfl, hno] at this
      simp at this
  · refine ⟨N₁, ?_⟩
    rintro (h | ⟨q, y, hq, hy, -⟩)
    · exact hN₁ _ le_rfl h
    · exact hp ⟨q, y, hq, hy⟩

include hT

theorem Lists.putSingleton_acts
    (hE : Lists.PutStarved S c fuel level l key val → ∀ c', E .diverged c') :
    Ends (putSingleton fuel level l key val) c (fun v => Act S c (.put l key val) (.val v)) E := by
  simp only [putSingleton]
  rcases fuel with _ | n
  · exact hE (.inl (.inl rfl)) c
  · refine putSingletonLoop_ends (hL.find_node_singelton_found hs fun h => hE (.inl h) c)
      (fun r c' hr hb => absurd hb (hL.not_blocksPut hs hr))
      (fun pred y c' hr hy _ _ hk => ?_) (fun pred c' hr hl hd => ?_) fun pred next c' hr h => ?_
    · obtain ⟨rfl, hp, -, -⟩ := hr
      have hyS := (hL.threads l).next_mem hp.1 hy
      exact .stamped hT hyS (by rw [hL.rank_mem hyS, hk])
    · obtain ⟨rfl, hp, hf, -⟩ := hr
      have hpf := hL.lt_fresh hs.heads hp.1
      have habs := hL.not_found hp hf.symm
      refine insertSingleton_ends hl hpf.ne ?_
      obtain ⟨hI, hhead, hlive, hne⟩ := hL.insertStamped_ready hs val hp habs
      have hI : HoldsIndex ({ c' with
          shared := c'.shared.insertStamped key val pred (c'.shared.next pred) } : Ctx K V m) l (S l) :=
        hI
      refine (index_add_ends hI hhead hs.heads (fun a ha _ => hne a ha) fun hno =>
        hE (.inr ⟨pred, hp, habs, hno⟩) _).mono (fun _ c₁ h₁ => ?_) fun _ _ he => he
      obtain ⟨hu, ho, A', hA', hdrop⟩ := h₁
      rw [hdrop.eq hlive] at hA'
      obtain ⟨s', ls, tr⟩ := c₁
      obtain rfl : ls = c'.storage := hu.storage
      obtain rfl : tr = c'.transaction := hu.transaction
      exact .linked hT hp habs hu.mem
        (hL.insertStamped_mutates hs.heads hp habs hu.mem hu.fresh ho hA')
    · obtain ⟨rfl, hp, hf, hn⟩ := hr
      obtain ⟨y, -, hy, -⟩ := (hL.found_iff hp).1 hf.symm
      simp only [hy] at hn
      simp only [Shared.next] at hy
      simp [hy, hn] at h

theorem Lists.removeSingleton_acts
    (hE : Lists.RemoveStarved S c fuel l key → ∀ c', E .diverged c') :
    Ends (removeSingleton fuel l key) c (fun v => Act S c (.remove l key) (.val v)) E := by
  simp only [removeSingleton]
  rcases fuel with _ | n
  · exact hE (.inl (.inl rfl)) c
  · refine removeSingletonLoop_ends (hL.find_node_singelton_found hs fun h => hE (.inl h) c)
      (fun _ _ c' hr hb => absurd hb (hL.not_blocksRemove hs hr))
      (fun pred next c' hr => ?_) (fun pred x c' hr hx hne _ _ _ => ?_) fun pred c' hr => ?_
    · obtain ⟨rfl, hp, hf, -⟩ := hr
      exact .absent hT (hL.not_found hp hf.symm)
    · obtain ⟨rfl, hp, hf, -⟩ := hr
      obtain ⟨y, -, hy, hk⟩ := (hL.found_iff hp).1 hf.symm
      obtain rfl : y = x := Option.some.inj (hy.symm.trans hx)
      have hyS := (hL.threads l).next_mem hp.1 hy
      obtain ⟨hI, hhead, hlive, hdead⟩ := hL.unlinkStamped_ready hp hy
      have hI : HoldsIndex ({ c' with shared := c'.shared.unlinkStamped pred y } : Ctx K V m) l (S l) :=
        hI
      refine (index_remove_ends hI hhead (hL.bound l y hyS).1 hdead fun hno =>
        hE (.inr ⟨pred, y, hp, hy, hno⟩) _).mono (fun _ c₁ h₁ => ?_) fun _ _ he => he
      obtain ⟨hu, ho, A', hA', hdrop, hyA⟩ := h₁
      have hA : A' = (S l).erase y := by
        refine Finset.Subset.antisymm (fun a ha => Finset.mem_erase.2 ⟨fun h => hyA (h ▸ ha),
          hdrop.sub ha⟩) fun a ha => ?_
        obtain ⟨hay, haS⟩ := Finset.mem_erase.1 ha
        exact hdrop.keeps a haS (hlive a haS hay)
      rw [hA] at hA'
      obtain ⟨s', ls, tr⟩ := c₁
      obtain rfl : ls = c'.storage := hu.storage
      obtain rfl : tr = c'.transaction := hu.transaction
      have hM : Mutates c'.shared { s' with retired := y :: s'.retired } S (only l {y})
          (fun _ => ∅) {pred, y} :=
        hL.unlinkStamped_mutates hp.1 hy hu.mem hu.fresh ho hA'
      exact .cut hT hp.1 hy hk hu.mem hM
    · obtain ⟨rfl, hp, hf, hn⟩ := hr
      obtain ⟨y, -, hy, -⟩ := (hL.found_iff hp).1 hf.symm
      simp [hy] at hn

end Singleton

/-! ## Any call -/

theorem Lists.call_acts (op : Op K V m) (hL : Lists c.shared S) (hs : Sane c)
    (hO : c.Live → Overlay c.shared S c.storage) (ho : op = .txEnd → ch.Orders c.storage) :
    Acting S c op id (call ch op) := by
  have hsingle : ∀ {op : Op K V m} {α : Type} {x : Call K V m α} {f : α → Ret V},
      Ends x c (fun v => Act S c op (f v)) (OnAbort fun _ => False) → Acting S c op f x := by
    intro op α x f hx
    refine hx.mono (fun _ _ h => h) fun e _ h => ?_
    rcases e with _ | _ | _ | _
    · exact h.elim
    all_goals trivial
  simp only [Acting, id]
  cases op with
  | txBegin =>
    simp only [call, TXbegin, Ends_bind, Ends_getVersion, Ends_modifyTransaction, Ends_pure]
    exact .opened
  | handleAbort =>
    simp only [call, Ends_bind, Ends_pure]
    exact handle_abort_ends fun r => .handled r
  | txEnd =>
    simp only [call, Ends_bind, Ends_pure]
    refine TXend_ends (ho rfl) (fun hT hv hro => ?_)
      (fun hT hv hro => .finished ⟨hT, hv⟩ hro) (fun _ => .rejected)
      (fun n hr hw hT hv hsing => .cleared ⟨hr, hw, hT, rfl, hv⟩ hsing)
      (fun _ _ _ _ _ _ _ => trivial) fun _ _ => trivial
    have hlive : c.Live := ⟨hT, hv⟩
    refine ((hO hlive).updateIndex_held hL).mono (fun _ c' h => ?_) fun e _ h => ?_
    · exact .committed hlive hro h.1 ((hO hlive).commit_mutates hL h.1 h.2)
    · rcases e with _ | _ | _ | _
      · exact h.elim
      all_goals trivial
  | put l key val =>
    simp only [call, Ends_bind, Ends_pure]
    refine access_ends (fun hT => ?_) fun hT => hsingle
      (hL.putSingleton_acts hs hT fun _ _ => trivial)
    by_cases hlive : c.Live
    · exact (hO hlive).put_acts hL hlive
    · exact Lists.stray_acts hT hlive rfl hL.putTX_quiet
  | remove l key =>
    simp only [call, Ends_bind, Ends_pure]
    refine access_ends (fun hT => ?_) fun hT => hsingle
      (hL.removeSingleton_acts hs hT fun _ _ => trivial)
    by_cases hlive : c.Live
    · exact (hO hlive).remove_acts hL hlive
    · exact Lists.stray_acts hT hlive rfl hL.removeTX_quiet
  | get l key =>
    simp only [call, Ends_bind, Ends_pure]
    refine access_ends (fun hT => ?_) fun hT => hsingle ?_
    · by_cases hlive : c.Live
      · exact (hO hlive).get_acts hL hlive rfl fun hp hr => .read hlive hp hr
      · exact Lists.stray_acts hT hlive rfl hL.getTX_quiet
    · exact hL.getSingleton_ends hs.unlocked (.gotten hT) fun _ => trivial
  | containsKey l key =>
    simp only [call, containsKey, Ends_bind, Ends_pure]
    refine access_ends (fun hT => ?_) fun hT => hsingle ?_
    · by_cases hlive : c.Live
      · exact (hO hlive).get_acts hL hlive rfl fun hp hr => .contained hlive hp hr
      · exact Lists.stray_acts hT hlive rfl hL.getTX_quiet
    · exact hL.getSingleton_ends hs.unlocked (.checked hT) fun _ => trivial

end Calls

end TxList
