import WorkPlan.Issue

/-!
The outcome of a pass: new days for every item that has to move, the issues met on the way, and how
far the root moved. Carrying it out is up to the caller.
-/

namespace WorkPlan

/-- New days of an item, with the number of days that is shown for them. -/
@[ext] structure Slot where
  start : Option Date
  due : Option Date
  length : Int
deriving DecidableEq

namespace Slot

def ofSpan (s : Span) (placeholder : Int) : Slot := ⟨s.start, s.due, s.length placeholder⟩

def span (s : Slot) : Span := ⟨s.start, s.due⟩

theorem span_ofSpan (s : Span) (placeholder : Int) : (ofSpan s placeholder).span = s := rfl

end Slot

@[ext] structure Outcome where
  changes : IdMap Slot := ∅
  issues : List Issue := []
  delta : Int := 0
deriving DecidableEq

namespace Outcome

def insert (o : Outcome) (id : ItemId) (slot : Slot) : Outcome :=
  { o with changes := o.changes.insert id slot }

/-- Records an issue, unless it is recorded already. -/
def addIssue (o : Outcome) (issue : Issue) : Outcome :=
  if issue ∈ o.issues then o else { o with issues := o.issues ++ [issue] }

end Outcome

end WorkPlan
