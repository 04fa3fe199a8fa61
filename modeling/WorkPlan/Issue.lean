import WorkPlan.Item

/-!
Inconsistencies that a pass meets and steps over. They are reported beside the outcome.
-/

namespace WorkPlan

/-- A broken link, a missing parent, or items that wait for one another. -/
inductive Issue where
  | danglingLink (predecessor successor : ItemId)
  | danglingParent (item parent : ItemId)
  | cycle (items : List ItemId)
deriving DecidableEq

def Issue.message : Issue → String
  | danglingLink p s =>
    "Follows relation " ++ p.text ++ " -> " ++ s.text ++ " references a missing item"
  | danglingParent item parent =>
    "Item " ++ item.text ++ " references missing parent " ++ parent.text
  | cycle items =>
    "Follows cycle through " ++ toString items.length ++ " item(s); dates left unchanged"

end WorkPlan
