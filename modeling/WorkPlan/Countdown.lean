import Std.Data.ExtTreeSet
import WorkPlan.Agenda

/-!
Putting the items of an agenda into order by counting. A tally says how many needs of each item are open,
and who needs an item. The smallest item without an open need is taken, the counts of those that need it go
down by one, and an item whose count comes down to zero is ready as well. A count that is zero already
cannot go down: then there is no arrangement.
-/

namespace WorkPlan

/-- How much each item needs, and which items need it. -/
structure Tally where
  counts : IdMap Nat
  dependents : IdMap (Std.ExtTreeSet ItemId) := ∅

namespace Tally

def zero (ids : List ItemId) : Tally := { counts := .ofList (ids.map fun id => (id, 0)) }

/-- Notes that an item needs another one, unless that is noted already. -/
def note (t : Tally) (id need : ItemId) : Tally :=
  let known := t.dependents.getD need ∅
  if id ∈ known then t
  else
    { counts := t.counts.alter id fun count => some (count.getD 0 + 1)
      dependents := t.dependents.insert need (known.insert id) }

/-- The tally of the needs of some items. -/
def ofNeeds (needs : ItemId → List ItemId) (ids : List ItemId) : Tally :=
  (ids.flatMap fun id => (needs id).map fun need => (id, need)).foldl
    (fun t entry => t.note entry.1 entry.2) (zero ids)

end Tally

/-- The counts of open needs while items are taken, and the items that are ready. -/
structure Countdown where
  counts : IdMap Nat
  ready : Std.ExtTreeSet ItemId

namespace Countdown

/-- The countdown at the start of a tally: ready is what needs nothing. -/
def ofTally (t : Tally) : Countdown where
  counts := t.counts
  ready := .ofList (t.counts.keys.filter fun id => t.counts[id]? = some 0)

/-- Lowers the count of an item by one, which fails if it is zero. An item without a count is passed
over. -/
def lower (c : Countdown) (id : ItemId) : Option Countdown :=
  match c.counts[id]? with
  | none => some c
  | some 0 => none
  | some (count + 1) =>
    some ⟨c.counts.insert id count, if count = 0 then c.ready.insert id else c.ready⟩

/-- Takes the smallest ready item, lowers the counts of those that need it, and goes on until nothing is
ready. That the steps run out is a failure as well. -/
def run (dependents : IdMap (Std.ExtTreeSet ItemId)) : Nat → Countdown → Option (List ItemId)
  | 0, _ => none
  | steps + 1, c =>
    match c.ready.min? with
    | none => some []
    | some id => do
      let c ← (dependents.getD id ∅).toList.foldlM lower { c with ready := c.ready.erase id }
      return id :: (← run dependents steps c)

/-- Arranges items by counting, if no count falls below zero. -/
def arrange (needs : ItemId → List ItemId) (ids : List ItemId) : Option Arrangement := do
  let tally := Tally.ofNeeds needs ids
  let order ← run tally.dependents (ids.length + 1) (ofTally tally)
  return ⟨order, if order.length < ids.length then ids.filter (· ∉ order) else []⟩

end Countdown

namespace Network

/-- What an item depends on among some items but the root and itself, each listed once. -/
def needsAmong (net : Network) (root : ItemId) (roles : IdMap Role) (id : ItemId) : List ItemId :=
  (Std.ExtTreeSet.ofList (net.dependencies id)).toList.filter fun need =>
    need ≠ root && need ≠ id && roles.contains need

def countdown (net : Network) (root : ItemId) (roles : IdMap Role) : Option Arrangement :=
  Countdown.arrange (net.needsAmong root roles) roles.keys

end Network

end WorkPlan
