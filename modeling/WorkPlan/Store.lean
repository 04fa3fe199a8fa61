import WorkPlan.Reflow

/-!
Stored plans. A store answers four questions, each on its own, and the answers may contradict one
another: an item may name a parent that does not list it as a child, and a link may be known at one
of its ends only. For a pass, the part of the store that an edit can concern is read once into a
network, its excerpt. From the root the reading follows links to their successors, goes down into
everything inside a follower, and climbs to parents; beside each item met, the predecessors of its
links and its children are read as well.
-/

namespace WorkPlan

/-- Read access to a stored plan of finitely many items. -/
structure Store where
  item? : ItemId → Option Item
  linksFrom : ItemId → List Link
  linksInto : ItemId → List Link
  childrenOf : ItemId → List ItemId
  /-- Identifiers among which all stored items are. -/
  known : List ItemId
  id_of_item? : ∀ (id : ItemId) (x : Item), item? id = some x → x.id = id
  mem_known : ∀ id : ItemId, (item? id).isSome = true → id ∈ known

namespace Store

def contains (store : Store) (id : ItemId) : Bool := (store.item? id).isSome

/-- The visits that the reading of an item asks for: first the parent, then for a follower its
children, the last one first, then the successors, the last one first. -/
def visitsAfter (store : Store) (v : Visit) : List Visit :=
  let successors := (store.linksFrom v.id).map (·.successor)
  let children := if v.role = .follower then store.childrenOf v.id else []
  let parent := ((store.item? v.id).bind (·.parent)).toList
  let met := (successors ++ children).map (Visit.mk · .follower) ++ parent.map (Visit.mk · .ancestor)
  (met.filter fun w => store.contains w.id).reverse

/-- The items that the reading meets for an edit: it starts at the root, and then at the parent that
the edit carries if the parent is touched. -/
def visitsFor (store : Store) (e : Edit) : List Visit :=
  let start := e.id :: if e.touches .parent then e.parent.toList else []
  Visit.trace store.visitsAfter (2 * store.known.length)
    ((start.filter store.contains).map (Visit.mk · .ancestor))

def loadInto (store : Store) (net : Network) (id : ItemId) : Network :=
  match store.item? id with
  | some x => net.insert x
  | none => net

/-- Reads an item that was met, with the ends of its links and its children. -/
def readInto (store : Store) (net : Network) (id : ItemId) : Network :=
  let items := id :: (store.linksInto id).map (·.predecessor) ++ store.childrenOf id
  (store.linksInto id ++ store.linksFrom id).foldl Network.addLink
    (items.foldl store.loadInto net)

/-- The part of the store that an edit can concern. -/
def excerpt (store : Store) (e : Edit) : Except EditError Network :=
  if store.contains e.id then
    .ok ((store.visitsFor e).foldl (fun net v => store.readInto net v.id) .empty)
  else .error (.unknownItem e.id)

/-- What an edit does to the days of all items of a stored plan. -/
def reflow (store : Store) (settings : Settings) (e : Edit) : Except EditError Outcome := do
  if e.id.isBlank then .error .blankRoot
  let net ← store.excerpt e
  net.reflow settings e

end Store

/-! ## Where stores come from -/

def Network.toStore (net : Network) : Store where
  item? := net.item?
  linksFrom := net.linksFrom
  linksInto := net.linksInto
  childrenOf := net.childrenOf
  known := net.items.keys
  id_of_item? _ _ h := Network.id_of_item? h
  mem_known id h := by
    rw [Std.ExtTreeMap.mem_keys]
    exact Std.ExtTreeMap.isSome_getElem?_iff_mem.mp h

/-- A plan as lists of items and links, with the children of some items as they are recorded
elsewhere. -/
structure Listing where
  items : List Item := []
  links : List Link := []
  children : IdMap (List ItemId) := ∅

namespace Listing

/-- A listing as a store: the first item listed under an identifier counts, links keep their order
and their repeats, and recorded children go before those that the items' parents tell. -/
def toStore (l : Listing) : Store where
  item? id := l.items.find? (·.id = id)
  linksFrom id := l.links.filter (·.predecessor = id)
  linksInto id := l.links.filter (·.successor = id)
  childrenOf id :=
    l.children[id]?.getD ((l.items.filter (·.parent = some id)).map (·.id))
  known := l.items.map (·.id)
  id_of_item? id x h := by simpa using List.find?_some h
  mem_known id h := by
    obtain ⟨x, hx⟩ := Option.isSome_iff_exists.mp h
    have hid : x.id = id := by simpa using List.find?_some hx
    exact List.mem_map.mpr ⟨x, List.mem_of_find?_eq_some hx, hid⟩

end Listing

end WorkPlan
