import WorkPlan.Item

/-!
Links between items: one waits for the other.
-/

namespace WorkPlan

/-- The successor waits until the predecessor is due and `lag` full days more have passed. -/
@[ext] structure Link where
  predecessor : ItemId
  successor : ItemId
  lag : Nat := 0
deriving DecidableEq

namespace Link

/-- The first day on which the successor may start, given the day on which the predecessor is due. A
predecessor without a due day asks for nothing. -/
def release (l : Link) (due : Option Date) : Option Date := due.map (·.addDays (l.lag + 1))

def isLoop (l : Link) : Bool := l.predecessor = l.successor

end Link

end WorkPlan
