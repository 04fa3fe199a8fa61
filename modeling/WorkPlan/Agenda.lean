import WorkPlan.Arrangement
import WorkPlan.Issue
import WorkPlan.Network.Ancestry
import WorkPlan.Search

/-!
The agenda of a change: which items it can move, in which role, and in which order they have to be
computed. From the changed item, the root, the search follows links to their successors, goes down
into everything inside a follower, and climbs to parents. The root itself is visited only as an
ancestor and takes no role.
-/

namespace WorkPlan

/-- What a change of one item concerns. -/
@[ext] structure Agenda where
  /-- The items concerned, without the root. -/
  roles : IdMap Role
  /-- Those that can be computed, each behind what it depends on. -/
  order : List ItemId
  /-- Those that depend on a cycle. -/
  cyclic : List ItemId
  /-- The broken links and parents that were met, as often as they were met. -/
  issues : List Issue
deriving DecidableEq

namespace Network

/-- The visits that a visit asks for: first the parent, then for a follower its children, the last
one first, then the successors, the last one first. -/
def visitsAfter (net : Network) (root : ItemId) (v : Visit) : List Visit :=
  let successors := ((net.linksFrom v.id).map (·.successor)).filter net.contains
  let children := if v.role = .follower then (net.childrenOf v.id).filter (· ≠ root) else []
  let met := (successors ++ children).map (Visit.mk · .follower) ++
    (net.container? v.id).toList.map (Visit.mk · .ancestor)
  met.reverse.map fun w => if w.id = root then ⟨root, .ancestor⟩ else w

/-- The visits that a change of the root leads to. The chain of a parent that the root has left is
looked at first. -/
def visitsFrom (net : Network) (root : ItemId) (former : Option ItemId) : List Visit :=
  let start := (former.filter net.contains).toList ++ [root]
  Visit.trace (net.visitsAfter root) (2 * (net.items.size + 1)) (start.map (Visit.mk · .ancestor))

/-- The broken links and the missing parent at an item. -/
def issuesAt (net : Network) (id : ItemId) : List Issue :=
  ((net.linksFrom id).filter fun l => !net.contains l.successor).map
      (fun l => .danglingLink l.predecessor l.successor) ++
    ((net.parent? id).filter fun parent => !net.contains parent).toList.map (.danglingParent id)

/-- What the dates of an item depend on: the predecessors of the links that bind it, and its
children. -/
def dependencies (net : Network) (id : ItemId) : List ItemId :=
  (net.bindingLinks id).map (·.predecessor) ++ net.childrenOf id

end Network

namespace Agenda

/-- The role of each visited item but the root, from its last visit. -/
def rolesOf (root : ItemId) (visits : List Visit) : IdMap Role :=
  visits.foldl (fun roles v => if v.id = root then roles else roles.insert v.id v.role) ∅

def ofChange (net : Network) (root : ItemId) (former : Option ItemId) : Agenda :=
  let visits := net.visitsFrom root former
  let roles := rolesOf root visits
  let arranged := Arrangement.ofNeeds (fun id => (net.dependencies id).filter (· ≠ id)) roles.keys
  { roles
    order := arranged.order
    cyclic := arranged.stuck
    issues := visits.flatMap fun v => net.issuesAt v.id }

end Agenda

end WorkPlan
