import WorkPlan.Agenda
import WorkPlan.Edit
import WorkPlan.Outcome
import WorkPlan.Settings.Basic
import WorkPlan.Settled

/-!
A pass over a network: one edit in, the days that every other item must move to out. The edit is
checked against the network and applied to a working network; an undated root takes the first start
that its new parent allows. Then each item of the agenda is settled once, in order: an item with
children gets their hull, kept behind its own bound; a follower without children yields to its bound;
any other item stays. The outcome holds what differs from the stored days, and the root only if it
differs from what the edit proposed.
-/

namespace WorkPlan

/-! ## Checking an edit -/

namespace Network

def root? (net : Network) (e : Edit) : Except EditError Item :=
  if e.id.isBlank then .error .blankRoot
  else
    match net.item? e.id with
    | some stored => .ok stored
    | none => .error (.unknownItem e.id)

/-- Whether an item may be placed under the parent that it names: the parent exists, and it is
neither the item nor inside it. -/
def checkParent (net : Network) (x : Item) : Except EditError Unit :=
  match x.parent with
  | none => .ok ()
  | some parent =>
    if parent = x.id then .error (.invalidParent x.id parent)
    else if !net.contains parent then .error (.unknownParent x.id parent)
    else if net.isAncestor x.id parent then .error (.invalidParent x.id parent)
    else .ok ()

end Network

/-! ## The pass -/

/-- A pass that is ready to run. -/
structure Pass where
  /-- The network before the edit. -/
  before : Network
  /-- The root as it was stored. -/
  stored : Item
  /-- The root as the edit has it. -/
  applied : Item
  /-- The root with the start that it takes from a new parent, if it takes one. -/
  root : Item
  /-- The network with that root. -/
  working : Network
  /-- What the edit concerns. -/
  agenda : Agenda

namespace Pass

/-- The root as an edit has it, with the first start that its parent allows if the parent is touched
and the root has no start. -/
def seed (net : Network) (e : Edit) (applied : Item) : Item :=
  if e.touches .parent then
    match applied.parent with
    | some parent => applied.adopt ((net.insert applied).soonestStart parent)
    | none => applied
  else applied

/-- The parent that an edit takes the root away from. -/
def formerParent (e : Edit) (stored applied : Item) : Option ItemId :=
  if e.touches .parent && applied.parent ≠ stored.parent then stored.parent else none

def prepare (net : Network) (e : Edit) (stored : Item) : Pass :=
  let applied := e.applyTo stored
  let root := seed net e applied
  let working := net.insert root
  { before := net
    stored
    applied
    root
    working
    agenda := Agenda.ofChange working root.id (formerParent e stored applied) }

/-- The days of an item of the agenda, given those settled so far. -/
def spanFor (p : Pass) (policy : PullPolicy) (settled : Settled) (x : Item) : Span :=
  let spanOf := settled.span? p.working
  let soonest := p.working.soonestStartBy spanOf x.id
  if p.working.hasChildren x.id then
    (Span.hull ((p.working.childrenOf x.id).filterMap spanOf)).notBefore soonest
  else if p.agenda.roles[x.id]? = some .follower then
    let moves := (p.working.bindingLinks x.id).map fun l => settled.drift p.before l.predecessor
    x.span.yieldTo soonest (policy.pull moves)
  else x.span

def step (p : Pass) (policy : PullPolicy) (settled : Settled) (id : ItemId) : Settled :=
  match p.working.item? id with
  | some x => settled.settle id (p.spanFor policy settled x)
  | none => settled

/-- The root and all items of the agenda, settled in order. -/
def settled (p : Pass) (policy : PullPolicy) : Settled :=
  p.agenda.order.foldl (p.step policy) ((⟨∅⟩ : Settled).settle p.root.id p.root.span)

/-- The days that settled ones are compared with: for the root those that the edit proposes, for any
other item the stored ones. -/
def reference? (p : Pass) (id : ItemId) : Option Span :=
  if id = p.root.id then some p.applied.span else p.before.span? id

/-- The items whose settled days differ from the ones to compare with. -/
def changes (p : Pass) (settings : Settings) : IdMap Slot :=
  (p.settled settings.policy).spans.filterMap fun id span =>
    match p.reference? id with
    | some before => if span = before then none else some (Slot.ofSpan span settings.placeholder)
    | none => none

/-- The issues of a pass, in the order in which they are met and with repeats. -/
def issues (p : Pass) : List Issue :=
  p.agenda.issues ++
    (if p.agenda.cyclic.isEmpty then [] else [.cycle p.agenda.cyclic]) ++
    p.agenda.order.flatMap fun id =>
      ((p.working.bindingLinks id).filter fun l => !p.working.contains l.predecessor).map
        fun l => .danglingLink l.predecessor l.successor

def outcome (p : Pass) (settings : Settings) : Outcome :=
  p.issues.foldl Outcome.addIssue
    { changes := p.changes settings, delta := p.stored.span.driftTo p.root.span }

end Pass

namespace Network

/-- The pass that an edit starts, if the edit can be carried out. -/
def pass? (net : Network) (e : Edit) : Except EditError Pass := do
  let stored ← net.root? e
  if e.touches .parent then net.checkParent (e.applyTo stored)
  return Pass.prepare net e stored

/-- What an edit does to the days of all items. An edit that touches nothing does nothing. -/
def reflow (net : Network) (settings : Settings) (e : Edit) : Except EditError Outcome := do
  let p ← net.pass? e
  return if e.touched.isEmpty then {} else p.outcome settings

def store (net : Network) (e : Edit) (stored : Item) (o : Outcome) : Network :=
  let applied := e.applyTo stored
  let edited := (net.setSpan e.id applied.span).setParent e.id applied.parent
  o.changes.foldl (fun net id slot => net.setSpan id slot.span) edited

/-- Carries out an edit and all that follows from it. -/
def commit (net : Network) (settings : Settings) (e : Edit) :
    Except EditError (Network × Outcome) := do
  let stored ← net.root? e
  let o ← net.reflow settings e
  return (net.store e stored o, o)

end Network

end WorkPlan
