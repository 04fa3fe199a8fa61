import WorkPlan.Date.Text
import WorkPlan.Edit
import WorkPlan.Json.Basic
import WorkPlan.Link
import WorkPlan.Outcome
import WorkPlan.Settings.Basic

/-!
The JSON forms of the values of a plan. A writer gives every field; a reader is more lenient, and
says for each field whether it may be null or absent. Days and identifiers are strings, sets of
attributes are lists in the order of the attributes, and an issue is told by its field `kind`.
-/

namespace WorkPlan

open Json

/-! ## Days, spans and slots -/

def Date.toJson (d : Date) : Json := str d.text

def Date.ofJson? (j : Json) : Option Date := j.str?.bind Date.read?

def Span.toJson (s : Span) : Json :=
  obj [("start_date", ofOption Date.toJson s.start), ("due_date", ofOption Date.toJson s.due)]

/-- Reads a span; a missing end may be absent. -/
def Span.ofJson? (j : Json) : Option Span := do
  let fields ← j.fields?
  let start ← optional? Date.ofJson? "start_date" fields
  let due ← optional? Date.ofJson? "due_date" fields
  return { start, due }

def Slot.toJson (s : Slot) : Json :=
  obj [("start_date", ofOption Date.toJson s.start), ("due_date", ofOption Date.toJson s.due),
    ("duration_days", int s.length)]

/-- Reads a slot; the length has to be there, but need not agree with the days. -/
def Slot.ofJson? (j : Json) : Option Slot := do
  let fields ← j.fields?
  let start ← optional? Date.ofJson? "start_date" fields
  let due ← optional? Date.ofJson? "due_date" fields
  let length ← required? int64? "duration_days" fields
  return { start, due, length }

/-! ## Items and links -/

def ItemId.toJson (id : ItemId) : Json := str id.text

def ItemId.ofJson? (j : Json) : Option ItemId := j.str?.map ItemId.mk

def Item.toJson (x : Item) : Json :=
  obj [("id", x.id.toJson), ("name", str x.name), ("start_date", ofOption Date.toJson x.start),
    ("due_date", ofOption Date.toJson x.due), ("parent", ofOption ItemId.toJson x.parent)]

/-- Reads an item; only the identifier has to be there. -/
def Item.ofJson? (j : Json) : Option Item := do
  let fields ← j.fields?
  let id ← required? ItemId.ofJson? "id" fields
  let name ← defaulted? "" str? "name" fields
  let start ← optional? Date.ofJson? "start_date" fields
  let due ← optional? Date.ofJson? "due_date" fields
  let parent ← optional? ItemId.ofJson? "parent" fields
  return { id, name, start, due, parent }

def Link.toJson (l : Link) : Json :=
  obj [("predecessor", l.predecessor.toJson), ("successor", l.successor.toJson),
    ("delay", int l.lag)]

/-- Reads a link; the lag may be absent. -/
def Link.ofJson? (j : Json) : Option Link := do
  let fields ← j.fields?
  let predecessor ← required? ItemId.ofJson? "predecessor" fields
  let successor ← required? ItemId.ofJson? "successor" fields
  let lag ← defaulted? 0 nat32? "delay" fields
  return { predecessor, successor, lag }

/-! ## Edits -/

def Attribute.toJson (a : Attribute) : Json := str a.name

def Attribute.ofJson? (j : Json) : Option Attribute := j.name?.bind Attribute.ofName?

def AttributeSet.toJson (s : AttributeSet) : Json := arr (s.toList.map Attribute.toJson)

/-- Reads a set of attributes from a list in any order and with any repeats. -/
def AttributeSet.ofJson? (j : Json) : Option AttributeSet :=
  (j.list? Attribute.ofJson?).map AttributeSet.ofList

def Edit.toJson (e : Edit) : Json :=
  obj [("id", e.id.toJson), ("start_date", ofOption Date.toJson e.start),
    ("due_date", ofOption Date.toJson e.due), ("parent", ofOption ItemId.toJson e.parent),
    ("attributes", e.touched.toJson), ("proposed", e.proposed.toJson)]

/-- Reads an edit; what it touches has to be there, and what it proposes may be absent. -/
def Edit.ofJson? (j : Json) : Option Edit := do
  let fields ← j.fields?
  let id ← required? ItemId.ofJson? "id" fields
  let start ← optional? Date.ofJson? "start_date" fields
  let due ← optional? Date.ofJson? "due_date" fields
  let parent ← optional? ItemId.ofJson? "parent" fields
  let touched ← required? AttributeSet.ofJson? "attributes" fields
  let proposed ← defaulted? {} AttributeSet.ofJson? "proposed" fields
  return { id, start, due, parent, touched, proposed }

/-! ## Outcomes -/

def Issue.toJson : Issue → Json
  | danglingLink p s =>
    obj [("kind", str "dangling_relation"), ("predecessor", p.toJson), ("successor", s.toJson)]
  | danglingParent item parent =>
    obj [("kind", str "dangling_parent"), ("item", item.toJson), ("parent", parent.toJson)]
  | cycle items => obj [("kind", str "cycle"), ("items", arr (items.map ItemId.toJson))]

def Issue.ofJson? (j : Json) : Option Issue := do
  let fields ← j.fields?
  match ← required? str? "kind" fields with
  | "dangling_relation" =>
    let p ← required? ItemId.ofJson? "predecessor" fields
    let s ← required? ItemId.ofJson? "successor" fields
    return danglingLink p s
  | "dangling_parent" =>
    let item ← required? ItemId.ofJson? "item" fields
    let parent ← required? ItemId.ofJson? "parent" fields
    return danglingParent item parent
  | "cycle" => return cycle (← required? (list? ItemId.ofJson?) "items" fields)
  | _ => none

/-- A table of slots as JSON: an object with the identifiers as keys, in their order. -/
def slotsToJson (slots : IdMap Slot) : Json :=
  obj (slots.toList.map fun entry => (entry.1.text, entry.2.toJson))

def slotsOfJson? (j : Json) : Option (IdMap Slot) := do
  let entries ← (← j.fields?).mapM fun entry =>
    (Slot.ofJson? entry.2).map fun slot => ((⟨entry.1⟩ : ItemId), slot)
  return Std.ExtTreeMap.ofList entries

def Outcome.toJson (o : Outcome) : Json :=
  obj [("changes", slotsToJson o.changes), ("issues", arr (o.issues.map Issue.toJson)),
    ("delta_days", int o.delta)]

def Outcome.ofJson? (j : Json) : Option Outcome := do
  let fields ← j.fields?
  let changes ← required? slotsOfJson? "changes" fields
  let issues ← required? (list? Issue.ofJson?) "issues" fields
  let delta ← required? int64? "delta_days" fields
  return { changes, issues, delta }

/-! ## Settings -/

def PullPolicy.toJson (p : PullPolicy) : Json := str p.name

def PullPolicy.ofJson? (j : Json) : Option PullPolicy := j.name?.bind PullPolicy.ofName?

def Settings.toJson (s : Settings) : Json :=
  obj [("backward_policy", s.policy.toJson), ("placeholder_duration_days", int s.placeholder)]

/-- Reads settings; either field may be absent, and the placeholder may be any number. -/
def Settings.ofJson? (j : Json) : Option Settings := do
  let fields ← j.fields?
  let policy ← defaulted? .follow PullPolicy.ofJson? "backward_policy" fields
  let placeholder ← defaulted? 1 int64? "placeholder_duration_days" fields
  return { policy, placeholder }

end WorkPlan
