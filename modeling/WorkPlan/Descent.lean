import Std.Data.ExtTreeSet
import WorkPlan.Audit

/-!
Looking for a cycle of links by descending along them. A descent keeps what has been seen and what is on the
way down to where it is. To meet something on the way again closes a cycle; what has been seen elsewhere is
passed over. A descent from one item leaves to the next ones what it has seen.
-/

namespace WorkPlan

/-- What descents have seen, and what is on the way of the present one. -/
structure Descent where
  seen : Std.ExtTreeSet ItemId := ∅
  way : Std.ExtTreeSet ItemId := ∅

namespace Descent

/-- How a descent ends: with a cycle, without one, or because it would have to go deeper than it may. -/
inductive End where
  | cycle
  | clear (d : Descent)
  | tooDeep

/-- Descends to some identifiers one after the other, until a cycle is found. -/
def each (visit : ItemId → Descent → End) : List ItemId → Descent → End
  | [], d => .clear d
  | id :: rest, d =>
    if id ∈ d.way then .cycle
    else if id ∈ d.seen then each visit rest d
    else
      match visit id d with
      | .clear d => each visit rest d
      | stopped => stopped

/-- Descends from an identifier to those that come next, so deep at most. -/
def visit (next : ItemId → List ItemId) : Nat → ItemId → Descent → End
  | 0, _, _ => .tooDeep
  | depth + 1, id, d =>
    match each (visit next depth) (next id) ⟨d.seen.insert id, d.way.insert id⟩ with
    | .clear d => .clear { d with way := d.way.erase id }
    | stopped => stopped

/-- The first of some identifiers from which a descent finds a cycle. There is no answer if a descent would
have to go deeper than it may. -/
def first (next : ItemId → List ItemId) (depth : Nat) :
    List ItemId → Descent → Option (Option ItemId)
  | [], _ => some none
  | id :: rest, d =>
    if id ∈ d.seen then first next depth rest d
    else
      match visit next depth id d with
      | .cycle => some (some id)
      | .clear d => first next depth rest d
      | .tooDeep => none

end Descent

namespace Network

/-- The first item from which a descent along links finds a cycle. -/
def descend (net : Network) : Option (Option ItemId) :=
  Descent.first (fun id => (net.linksFrom id).map (·.successor))
    (net.items.size + net.links.length) (net.itemList.map (·.id)) {}

end Network

end WorkPlan
