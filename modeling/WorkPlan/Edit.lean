import WorkPlan.Item

/-!
An edit of one item, the root of a pass. It says apart which attributes changed (`touched`), which
decides what a pass looks at, and which of them carry a new value (`proposed`), which decides what
is stored. A touched attribute without a value keeps its stored one.
-/

namespace WorkPlan

/-- The attributes of an item whose change can move other items. -/
inductive Attribute where
  | start
  | due
  | parent
deriving DecidableEq

namespace Attribute

/-- All attributes, in the order in which sets of them are listed. -/
def all : List Attribute := [start, due, parent]

def name : Attribute → String
  | start => "start_date"
  | due => "due_date"
  | parent => "parent"

def ofName? (name : String) : Option Attribute := all.find? (·.name = name)

/-- The attribute that a request may call by a name: its own name, or `parent_id` for the parent. -/
def ofAlias? (name : String) : Option Attribute :=
  if name = "parent_id" then some parent else ofName? name

end Attribute

@[ext] structure AttributeSet where
  start : Bool := false
  due : Bool := false
  parent : Bool := false
deriving DecidableEq

namespace AttributeSet

def has (s : AttributeSet) : Attribute → Bool
  | .start => s.start
  | .due => s.due
  | .parent => s.parent

def insert (s : AttributeSet) : Attribute → AttributeSet
  | .start => { s with start := true }
  | .due => { s with due := true }
  | .parent => { s with parent := true }

def ofList (attributes : List Attribute) : AttributeSet := attributes.foldl insert {}

/-- The attributes of the set, in their order. -/
def toList (s : AttributeSet) : List Attribute := Attribute.all.filter s.has

def isEmpty (s : AttributeSet) : Bool := !(s.start || s.due || s.parent)

theorem ofList_toList (s : AttributeSet) : ofList s.toList = s := by
  obtain ⟨start, due, parent⟩ := s
  cases start <;> cases due <;> cases parent <;> rfl

end AttributeSet

inductive EditError where
  | blankRoot
  | unknownAttribute (name : String)
  | unknownItem (id : ItemId)
  | unknownParent (item parent : ItemId)
  | invalidParent (item parent : ItemId)
deriving DecidableEq

def EditError.message : EditError → String
  | blankRoot => "Root item id is empty"
  | unknownAttribute name => "Unknown attribute: " ++ name
  | unknownItem id => "Item not found: " ++ id.text
  | unknownParent item parent => "Parent " ++ parent.text ++ " of item " ++ item.text ++ " not found"
  | invalidParent item parent => "Item " ++ item.text ++ " cannot be placed under " ++ parent.text

/-- An edit of one item. The three values count only for the proposed attributes. -/
@[ext] structure Edit where
  id : ItemId
  start : Option Date := none
  due : Option Date := none
  parent : Option ItemId := none
  touched : AttributeSet := {}
  proposed : AttributeSet := {}
deriving DecidableEq

namespace Edit

/-- Marks an attribute as touched, with a value of its own. -/
def propose (e : Edit) (a : Attribute) : Edit :=
  { e with touched := e.touched.insert a, proposed := e.proposed.insert a }

def withStart (e : Edit) (start : Option Date) : Edit := { e with start }.propose .start

def withDue (e : Edit) (due : Option Date) : Edit := { e with due }.propose .due

/-- Proposes a parent, or the top level. -/
def withParent (e : Edit) (parent : Option ItemId) : Edit := { e with parent }.propose .parent

/-- Marks attributes as touched by their names, without new values. The first unknown name is an
error. -/
def touching (e : Edit) : List String → Except EditError Edit
  | [] => .ok e
  | name :: rest =>
    match Attribute.ofAlias? name with
    | some a => { e with touched := e.touched.insert a }.touching rest
    | none => .error (.unknownAttribute name)

def touches (e : Edit) (a : Attribute) : Bool := e.touched.has a

def touchesDates (e : Edit) : Bool := e.touches .start || e.touches .due

/-- The item as it looks once the edit is carried out. -/
def applyTo (e : Edit) (stored : Item) : Item :=
  { stored with
    start := if e.proposed.start then e.start else stored.start
    due := if e.proposed.due then e.due else stored.due
    parent := if e.proposed.parent then e.parent else stored.parent }

end Edit

end WorkPlan
