import WorkPlan.Link

/-!
Networks: items by identifier, and the links between them in the order in which they were added.
Links and parents may name items that are not there. Every query is a plain scan of the items and
the links; what keeps the scans honest is in the type: an item stands under its own identifier, and
no link is listed twice.
-/

namespace WorkPlan

@[ext] structure Network where
  items : IdMap Item := ∅
  links : List Link := []
  id_of_getElem? : ∀ (id : ItemId) (x : Item), items[id]? = some x → x.id = id := by simp
  nodup_links : links.Nodup := by simp

namespace Network

instance : DecidableEq Network := fun a b =>
  decidable_of_iff (a.items = b.items ∧ a.links = b.links) Network.ext_iff.symm

def empty : Network := {}

/-! ## Items -/

def item? (net : Network) (id : ItemId) : Option Item := net.items[id]?

def contains (net : Network) (id : ItemId) : Bool := net.items.contains id

/-- All items, in the order of their identifiers. -/
def itemList (net : Network) : List Item := net.items.toList.map (·.2)

def span? (net : Network) (id : ItemId) : Option Span := (net.item? id).map Item.span

/-- Inserts an item, or replaces the one with its identifier. -/
def insert (net : Network) (x : Item) : Network :=
  { net with
    items := net.items.insert x.id x
    id_of_getElem? := by
      intro id y h
      rw [Std.ExtTreeMap.getElem?_insert] at h
      split at h
      · rename_i hid
        rw [Std.compare_eq_iff_eq] at hid
        cases h
        exact hid
      · exact net.id_of_getElem? id y h }

/-- Puts an item inside another one or at the top. An unknown identifier changes nothing. -/
def setParent (net : Network) (id : ItemId) (parent : Option ItemId) : Network :=
  match net.item? id with
  | some x => net.insert (x.withParent parent)
  | none => net

def setSpan (net : Network) (id : ItemId) (s : Span) : Network :=
  match net.item? id with
  | some x => net.insert (x.withSpan s)
  | none => net

theorem item?_insert (net : Network) (x : Item) (id : ItemId) :
    (net.insert x).item? id = if x.id = id then some x else net.item? id := by
  simp only [item?, insert, Std.ExtTreeMap.getElem?_insert, Std.compare_eq_iff_eq]

theorem id_of_item? {net : Network} {id : ItemId} {x : Item} (h : net.item? id = some x) :
    x.id = id := net.id_of_getElem? id x h

theorem contains_eq_isSome (net : Network) (id : ItemId) :
    net.contains id = (net.item? id).isSome := by
  simp [contains, item?]

/-! ## Links -/

/-- Adds a link, unless it is there already. -/
def addLink (net : Network) (l : Link) : Network :=
  if h : l ∈ net.links then net
  else
    { net with
      links := net.links ++ [l]
      nodup_links := by
        rw [List.nodup_append]
        refine ⟨net.nodup_links, by simp, ?_⟩
        rintro a ha b hb rfl
        exact h (List.mem_singleton.mp hb ▸ ha) }

/-- The links in which an item is the predecessor. -/
def linksFrom (net : Network) (id : ItemId) : List Link :=
  net.links.filter (·.predecessor = id)

/-- The links in which an item is the successor. -/
def linksInto (net : Network) (id : ItemId) : List Link :=
  net.links.filter (·.successor = id)

/-! ## Containment -/

/-- The items directly inside an item, in the order of their identifiers. -/
def childrenOf (net : Network) (id : ItemId) : List ItemId :=
  (net.itemList.filter (·.parent = some id)).map (·.id)

def hasChildren (net : Network) (id : ItemId) : Bool := !(net.childrenOf id).isEmpty

/-- The parent that an item names, whether it exists or not. -/
def parent? (net : Network) (id : ItemId) : Option ItemId := (net.item? id).bind (·.parent)

/-- The parent of an item, if it exists. -/
def container? (net : Network) (id : ItemId) : Option ItemId :=
  (net.parent? id).filter net.contains

end Network

end WorkPlan
