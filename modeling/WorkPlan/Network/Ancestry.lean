import WorkPlan.Network.Basic

/-!
The parent chain of an item, and what an item inherits along it: the links into its ancestors bind
it as its own do. The chain ends at the first parent that is missing or was met before, so it is
finite in every network. Each step meets another item, which is why as many steps as there are items
are enough.
-/

namespace WorkPlan.Network

/-- Climbs from an item to its parents, nearest first, for so many steps at most, and stops before
an item that was seen. -/
def climb (net : Network) : Nat → List ItemId → ItemId → List ItemId
  | 0, _, _ => []
  | steps + 1, seen, id =>
    match net.container? id with
    | none => []
    | some parent =>
      if parent ∈ seen then [] else parent :: net.climb steps (parent :: seen) parent

/-- The items that contain an item, nearest first. -/
def ancestors (net : Network) (id : ItemId) : List ItemId := net.climb net.items.size [id] id

def isAncestor (net : Network) (ancestor id : ItemId) : Bool := ancestor ∈ net.ancestors id

/-- The links that bind an item: those into it, then those into its ancestors. -/
def bindingLinks (net : Network) (id : ItemId) : List Link :=
  net.linksInto id ++ (net.ancestors id).flatMap net.linksInto

/-- The first day on which an item may start, given the days of its predecessors. -/
def soonestStartBy (net : Network) (spanOf : ItemId → Option Span) (id : ItemId) : Option Date :=
  (net.bindingLinks id).foldl
    (fun bound l => Date.laterOf bound (l.release ((spanOf l.predecessor).bind (·.due)))) none

def soonestStart (net : Network) (id : ItemId) : Option Date := net.soonestStartBy net.span? id

end WorkPlan.Network
