import Std.Data.ExtTreeSet
import WorkPlan.Audit

/-!
Looking for loops of parents by climbing from each item. A climb keeps what it has met, and ends where there
is no further parent, where it comes to something again, or where it is back at the item from which it
started. Then what it has met is the rest of a loop, and the item stands for the loop if nothing in it is
smaller.
-/

namespace WorkPlan

/-- How a climb ends: back at home, with what it met on the way, or elsewhere, or because it would have to
go further than it may. -/
inductive Homecoming where
  | home (met : Std.ExtTreeSet ItemId)
  | away
  | tooFar

namespace Network

/-- Climbs on from an identifier until the climb ends, for so many steps at most. -/
def climbHome (net : Network) (home : ItemId) : Nat → Std.ExtTreeSet ItemId → ItemId → Homecoming
  | 0, _, _ => .tooFar
  | steps + 1, met, id =>
    match net.parent? id with
    | none => .away
    | some parent =>
      if parent = home then .home met
      else if parent ∈ met then .away
      else net.climbHome home steps (met.insert parent) parent

/-- Whether an item stands for a loop of parents. There is no answer if a climb would have to go further
than it may. -/
def standsForLoop? (net : Network) (id : ItemId) : Option Bool :=
  match net.climbHome id (net.items.size + 1) ∅ id with
  | .home met => some (met.toList.all (id ≤ ·))
  | .away => some false
  | .tooFar => none

def loopHeadsAmong? (net : Network) : List ItemId → Option (List ItemId)
  | [] => some []
  | id :: rest => do
    let stands ← net.standsForLoop? id
    let heads ← net.loopHeadsAmong? rest
    return if stands then id :: heads else heads

def loopHeads? (net : Network) : Option (List ItemId) :=
  net.loopHeadsAmong? (net.itemList.map (·.id))

end Network

end WorkPlan
