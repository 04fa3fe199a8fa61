import WorkPlan.Network.Basic

/-!
The days that a pass has settled so far. An item is settled once; from then on its settled days stand
for the ones that the network holds.
-/

namespace WorkPlan

@[ext] structure Settled where
  spans : IdMap Span := ∅
deriving DecidableEq

namespace Settled

def has (s : Settled) (id : ItemId) : Bool := s.spans.contains id

/-- Settles the days of an item, unless they are settled already. -/
def settle (s : Settled) (id : ItemId) (span : Span) : Settled := ⟨s.spans.insertIfNew id span⟩

/-- The days of an item: the settled ones, else those that the network holds. -/
def span? (s : Settled) (net : Network) (id : ItemId) : Option Span := s.spans[id]? <|> net.span? id

/-- The days by which a settled item has drifted from where the network holds it. -/
def drift (s : Settled) (net : Network) (id : ItemId) : Int :=
  match net.span? id, s.spans[id]? with
  | some before, some after => before.driftTo after
  | _, _ => 0

end Settled

end WorkPlan
