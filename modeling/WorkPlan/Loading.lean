import WorkPlan.Store

/-!
Reading a stored plan step by step. A loading keeps the part that was read, the role in which each
identifier was last taken up, and a stack of visits that wait, the next one first. The next visit is dropped
if it adds nothing to what was taken up; otherwise it is noted, its item is read with what stands beside it,
and the visits that it asks for go on top of the stack. The loading for an edit starts at the root. When
nothing waits any more, it goes on with the parent that the edit carries.
-/

namespace WorkPlan

structure Loading where
  part : Network
  taken : IdMap Role := ∅
  waiting : List Visit

namespace Loading

/-- Reads an item, unless it was read before. An identifier without an item changes nothing. -/
def fetch (store : Store) (net : Network) (id : ItemId) : Network :=
  if net.contains id then net else store.loadInto net id

/-- Reads what stands beside an item: the links into it, each with its predecessor, then the links from it,
then its children. -/
def fetchBeside (store : Store) (net : Network) (id : ItemId) : Network :=
  let net := (store.linksInto id).foldl (fun net l => (fetch store net l.predecessor).addLink l) net
  let net := (store.linksFrom id).foldl Network.addLink net
  (store.childrenOf id).foldl (fetch store) net

/-- Whether a visit adds nothing to what was taken up. -/
def covers (s : Loading) (v : Visit) : Bool :=
  s.taken[v.id]?.any fun role => (Visit.mk v.id role).covers v

/-- The visits that a visit asks for, whether their items exist or not: first the parent that was read, then
for a follower its children, the last one first, then the successors, the last one first. -/
def asks (store : Store) (part : Network) (v : Visit) : List Visit :=
  let successors := (store.linksFrom v.id).map (·.successor)
  let children := if v.role = .follower then store.childrenOf v.id else []
  ((successors ++ children).map (Visit.mk · .follower) ++
    (part.parent? v.id).toList.map (Visit.mk · .ancestor)).reverse

/-- The loading after one more step, if a visit waits. -/
def step (store : Store) (s : Loading) : Option Loading :=
  match s.waiting with
  | [] => none
  | v :: rest =>
    if s.covers v then some { s with waiting := rest }
    else
      let part := fetch store s.part v.id
      let taken := s.taken.insert v.id v.role
      if part.contains v.id then
        let part := fetchBeside store part v.id
        some { part, taken, waiting := asks store part v ++ rest }
      else some { part, taken, waiting := rest }

def start (store : Store) (e : Edit) : Loading where
  part := fetch store .empty e.id
  waiting := [⟨e.id, .ancestor⟩]

/-- The loading with the parent that the edit carries, if it touches the parent. -/
def resume (s : Loading) (e : Edit) : Loading :=
  { s with waiting := (if e.touches .parent then e.parent.toList else []).map (Visit.mk · .ancestor) }

end Loading

end WorkPlan
