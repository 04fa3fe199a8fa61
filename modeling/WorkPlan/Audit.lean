import WorkPlan.Agenda
import WorkPlan.Date.Text

/-!
Audits. `Network.faults` lists what is wrong with a whole network: days out of order, ends that do
not exist, links along a parent chain, and cycles of links or of parents. `Network.linkFaults`
answers the narrower question whether a link may be added.
-/

namespace WorkPlan

inductive FaultKind where
  | invertedDates
  | danglingLink
  | danglingParent
  | selfLink
  | ancestorLink
  | cyclicDependency
  | hierarchyCycle
  | duplicateLink
deriving DecidableEq

inductive Fault where
  | invertedDates (item : ItemId) (start due : Date)
  | unknownParent (item parent : ItemId)
  | unknownEnd (predecessor successor missing : ItemId)
  | selfLink (item : ItemId)
  | ancestorLink (predecessor successor : ItemId)
  | cyclicDependency (item : ItemId)
  | hierarchyCycle (item : ItemId)
deriving DecidableEq

namespace Fault

def kind : Fault → FaultKind
  | invertedDates .. => .invertedDates
  | unknownParent .. => .danglingParent
  | unknownEnd .. => .danglingLink
  | selfLink .. => .selfLink
  | ancestorLink .. => .ancestorLink
  | cyclicDependency .. => .cyclicDependency
  | hierarchyCycle .. => .hierarchyCycle

def message : Fault → String
  | invertedDates item start due =>
    "Item '" ++ item.text ++ "' is due " ++ due.text ++ " before it starts " ++ start.text
  | unknownParent item parent =>
    "Item '" ++ item.text ++ "' references unknown parent '" ++ parent.text ++ "'"
  | unknownEnd p s missing =>
    "Relation '" ++ p.text ++ "' -> '" ++ s.text ++ "' references unknown item '" ++ missing.text ++ "'"
  | selfLink item => "Item '" ++ item.text ++ "' follows itself"
  | ancestorLink p s =>
    "Relation '" ++ p.text ++ "' -> '" ++ s.text ++ "' links an item to its own ancestor"
  | cyclicDependency item =>
    "Circular dependency detected involving item '" ++ item.text ++ "'"
  | hierarchyCycle item => "Item '" ++ item.text ++ "' is its own ancestor"

end Fault

/-- A reason against a new link. -/
inductive LinkFault where
  | selfLink (item : ItemId)
  | unknownItem (id : ItemId)
  | duplicate (predecessor successor : ItemId)
  | sameChain (predecessor successor : ItemId)
  | closesCycle (predecessor successor : ItemId)
deriving DecidableEq

namespace LinkFault

def kind : LinkFault → FaultKind
  | selfLink .. => .selfLink
  | unknownItem .. => .danglingLink
  | duplicate .. => .duplicateLink
  | sameChain .. => .ancestorLink
  | closesCycle .. => .cyclicDependency

def message : LinkFault → String
  | selfLink item => "Item '" ++ item.text ++ "' cannot follow itself"
  | unknownItem id => "Unknown item '" ++ id.text ++ "'"
  | duplicate p s => "'" ++ s.text ++ "' already follows '" ++ p.text ++ "'"
  | sameChain p s => "'" ++ p.text ++ "' and '" ++ s.text ++ "' are in the same parent chain"
  | closesCycle p s => "'" ++ p.text ++ "' already depends on '" ++ s.text ++ "'"

end LinkFault

namespace Network

def inSameChain (net : Network) (a b : ItemId) : Bool := net.isAncestor a b || net.isAncestor b a

/-! ## The whole network -/

def itemFaults (net : Network) (x : Item) : List Fault :=
  let inverted :=
    match x.start, x.due with
    | some start, some due => if due < start then [.invertedDates x.id start due] else []
    | _, _ => []
  let missing := (x.parent.filter fun parent => !net.contains parent).toList
  inverted ++ missing.map (.unknownParent x.id)

def faultsOfLink (net : Network) (l : Link) : List Fault :=
  (([l.predecessor, l.successor].filter fun id => !net.contains id).map
      (.unknownEnd l.predecessor l.successor)) ++
    if l.isLoop then [.selfLink l.predecessor]
    else if net.inSameChain l.predecessor l.successor then [.ancestorLink l.predecessor l.successor]
    else []

/-- The ends of links from which following links from predecessor to successor can go on for ever. -/
def endless (net : Network) : List ItemId :=
  let ends := (net.links.flatMap fun l => [l.predecessor, l.successor]).eraseDups
  (Arrangement.ofNeeds (fun id => (net.linksFrom id).map (·.successor)) ends).stuck

/-- The first item from which a cycle of links can be reached. -/
def cyclicItem? (net : Network) : Option ItemId :=
  let endless := net.endless
  (net.itemList.map (·.id)).find? (· ∈ endless)

/-- Whether the parent chain of an item comes back to it. -/
def containsItself (net : Network) (id : ItemId) : Bool :=
  net.parent? ((net.ancestors id).getLast?.getD id) = some id

/-- The items that stand for a cycle of parents: of each cycle the one with the smallest
identifier. -/
def hierarchyCycles (net : Network) : List ItemId :=
  (net.itemList.map (·.id)).filter fun id =>
    net.containsItself id && (net.ancestors id).all (id ≤ ·)

def faults (net : Network) : List Fault :=
  net.itemList.flatMap net.itemFaults ++ net.links.flatMap net.faultsOfLink ++
    net.cyclicItem?.toList.map .cyclicDependency ++ net.hierarchyCycles.map .hierarchyCycle

/-! ## A new link -/

/-- What follows from an item by one step: its successors and its children. -/
def stepsFrom (net : Network) (id : ItemId) : List ItemId :=
  (net.linksFrom id).map (·.successor) ++ net.childrenOf id

/-- The items that can be reached from an item by links to successors and by steps to children, the
item itself included. -/
def reachable (net : Network) (id : ItemId) : List ItemId :=
  let next := fun v : Visit => (net.stepsFrom v.id).map (Visit.mk · v.role)
  (Visit.trace next (net.items.size + net.links.length + 1) [⟨id, .follower⟩]).map (·.id)

/-- The reasons against a link from `p` to `s`. -/
def linkFaults (net : Network) (p s : ItemId) : List LinkFault :=
  if p = s then [.selfLink p]
  else
    match [p, s].filter fun id => !net.contains id with
    | [] =>
      (if (net.linksFrom p).any (·.successor = s) then [.duplicate p s] else []) ++
        if net.inSameChain p s then [.sameChain p s]
        else if p ∈ net.reachable s then [.closesCycle p s]
        else []
    | missing => missing.map .unknownItem

end Network

end WorkPlan
