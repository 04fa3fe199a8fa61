import Std.Data.ExtTreeSet
import WorkPlan.Network.Basic

/-!
Networks with tables that answer the queries without a scan. A table of places says in which links an
item is the predecessor or the successor, and a table of children which items are inside an item. The
tables are kept while the network is made: an item that moves to another parent is taken out of one set
and put into another. A set that has become empty stays in the table.
-/

namespace WorkPlan

/-- Items and links, with tables of both ends of the links and of the children of items. -/
structure IndexedNetwork where
  items : IdMap Item := ∅
  links : List Link := []
  /-- The places of the links in which an item is the predecessor. -/
  outgoing : IdMap (List Nat) := ∅
  /-- The places of the links in which an item is the successor. -/
  incoming : IdMap (List Nat) := ∅
  /-- The items directly inside an item. -/
  children : IdMap (Std.ExtTreeSet ItemId) := ∅

namespace IndexedNetwork

def empty : IndexedNetwork := {}

def item? (net : IndexedNetwork) (id : ItemId) : Option Item := net.items[id]?

def contains (net : IndexedNetwork) (id : ItemId) : Bool := net.items.contains id

def itemList (net : IndexedNetwork) : List Item := net.items.toList.map (·.2)

def span? (net : IndexedNetwork) (id : ItemId) : Option Span := (net.item? id).map Item.span

/-- The table of children without an item that is to be replaced. -/
def childrenWithout (net : IndexedNetwork) (id : ItemId) : IdMap (Std.ExtTreeSet ItemId) :=
  match (net.item? id).bind (·.parent) with
  | some parent => net.children.modify parent (·.erase id)
  | none => net.children

def insert (net : IndexedNetwork) (x : Item) : IndexedNetwork :=
  { net with
    items := net.items.insert x.id x
    children :=
      match x.parent with
      | some parent =>
        (net.childrenWithout x.id).alter parent fun inside => some ((inside.getD ∅).insert x.id)
      | none => net.childrenWithout x.id }

def setParent (net : IndexedNetwork) (id : ItemId) (parent : Option ItemId) : IndexedNetwork :=
  match net.item? id with
  | some x => net.insert (x.withParent parent)
  | none => net

def setSpan (net : IndexedNetwork) (id : ItemId) (s : Span) : IndexedNetwork :=
  { net with items := net.items.modify id (·.withSpan s) }

def record (table : IdMap (List Nat)) (id : ItemId) (place : Nat) : IdMap (List Nat) :=
  table.alter id fun places => some (places.getD [] ++ [place])

def addLink (net : IndexedNetwork) (l : Link) : IndexedNetwork :=
  if l ∈ net.links then net
  else
    { net with
      links := net.links ++ [l]
      outgoing := record net.outgoing l.predecessor net.links.length
      incoming := record net.incoming l.successor net.links.length }

def linksFrom (net : IndexedNetwork) (id : ItemId) : List Link :=
  (net.outgoing.getD id []).filterMap (net.links[·]?)

def linksInto (net : IndexedNetwork) (id : ItemId) : List Link :=
  (net.incoming.getD id []).filterMap (net.links[·]?)

def childrenOf (net : IndexedNetwork) (id : ItemId) : List ItemId := (net.children.getD id ∅).toList

def hasChildren (net : IndexedNetwork) (id : ItemId) : Bool :=
  net.children[id]?.any fun inside => !inside.isEmpty

/-! ## Queries along the parent chain -/

def container? (net : IndexedNetwork) (id : ItemId) : Option ItemId :=
  ((net.item? id).bind (·.parent)).filter net.contains

def climb (net : IndexedNetwork) : Nat → List ItemId → ItemId → List ItemId
  | 0, _, _ => []
  | steps + 1, seen, id =>
    match net.container? id with
    | none => []
    | some parent =>
      if parent ∈ seen then [] else parent :: net.climb steps (parent :: seen) parent

def ancestors (net : IndexedNetwork) (id : ItemId) : List ItemId := net.climb net.items.size [id] id

def isAncestor (net : IndexedNetwork) (ancestor id : ItemId) : Bool := ancestor ∈ net.ancestors id

def bindingLinks (net : IndexedNetwork) (id : ItemId) : List Link :=
  net.linksInto id ++ (net.ancestors id).flatMap net.linksInto

def soonestStartBy (net : IndexedNetwork) (spanOf : ItemId → Option Span) (id : ItemId) :
    Option Date :=
  (net.bindingLinks id).foldl
    (fun bound l => Date.laterOf bound (l.release ((spanOf l.predecessor).bind (·.due)))) none

def soonestStart (net : IndexedNetwork) (id : ItemId) : Option Date :=
  net.soonestStartBy net.span? id

end IndexedNetwork

end WorkPlan
