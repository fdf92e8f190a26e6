import TxList.TX
import TxList.Contents

/-!
# What a commit retires

`TXend` with an audit of each node just before it goes to `retire_node`.
-/

namespace TxList

variable {K V : Type} {m : Nat}

section Audit

variable [LinearOrder K] (audit : NodeId → Call K V m Unit)

def removeFromIndexAudited (fuel : Nat) (l : ListId m) : List NodeId → Call K V m Unit
  | [] => return ()
  | n :: ns => do
    onIndex l fun v ix => (ix.remove v fuel n).map (·, ())
    audit n
    retire_node n
    removeFromIndexAudited fuel l ns

def updateIndexAudited (ch : Choice) : Call K V m Unit := do
  let s := (← get).storage
  forLists (fun l => addToIndex ch.fuel ch.level l (s.indexAdd l)) (List.finRange m)
  forLists (fun l => removeFromIndexAudited audit ch.fuel l (s.indexRemove l)) (List.finRange m)

def TXendAudited (ch : Choice) : Call K V m Bool := TXendWith (updateIndexAudited audit ch) ch

end Audit

/-- No list leads to the node, and no level of an index holds it. -/
structure Shared.Unreached (s : Shared K V m) (n : NodeId) : Prop where
  list : ¬ s.Reaches n
  index : ∀ l, ¬ (s.index l).Holds n

/-- The audit stops at most at nodes that are still reached. -/
def Audits (audit : NodeId → Call K V m Unit) : Prop :=
  ∀ n c, c.shared.Unreached n → audit n c = .ok () c

end TxList
