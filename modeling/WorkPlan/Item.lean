import Std.Data.ExtTreeMap
import WorkPlan.Span
import WorkPlan.Text.Blank

/-!
Work items and the identifiers that name them. Identifiers are ordered by code points; this order
decides every tie in a pass and the order in which items are listed. Tables keyed by identifiers are
Std's extensional ordered maps, so two tables with the same entries are equal.
-/

namespace WorkPlan

@[ext] structure ItemId where
  text : String
deriving DecidableEq

namespace ItemId

instance : LT ItemId := ⟨fun a b => a.text < b.text⟩
instance : LE ItemId := ⟨fun a b => a.text ≤ b.text⟩
instance (a b : ItemId) : Decidable (a < b) := inferInstanceAs (Decidable (a.text < b.text))
instance (a b : ItemId) : Decidable (a ≤ b) := inferInstanceAs (Decidable (a.text ≤ b.text))

instance : Ord ItemId := ⟨fun a b => compare a.text b.text⟩

theorem compare_eq (a b : ItemId) : compare a b = compare a.text b.text := rfl

instance : Std.TransOrd ItemId where
  eq_swap {a b} := by
    rw [compare_eq, compare_eq]
    exact Std.OrientedCmp.eq_swap
  isLE_trans {a b c} hab hbc := by
    rw [compare_eq] at hab hbc ⊢
    exact Std.TransCmp.isLE_trans hab hbc

instance : Std.LawfulEqOrd ItemId where
  compare_self {a} := by
    rw [compare_eq]
    exact Std.ReflCmp.compare_self
  eq_of_compare {a b} h := by
    rw [compare_eq] at h
    exact ItemId.ext (Std.LawfulEqCmp.eq_of_compare h)

def isBlank (id : ItemId) : Bool := id.text.toList.all Text.isBlank

end ItemId

/-- A table keyed by identifiers. -/
abbrev IdMap (β : Type) := Std.ExtTreeMap ItemId β

/-- A unit of planned work. The due day is expected not to precede the start, but nothing here
demands it. -/
@[ext] structure Item where
  id : ItemId
  name : String := ""
  start : Option Date := none
  due : Option Date := none
  parent : Option ItemId := none
deriving DecidableEq

namespace Item

def span (x : Item) : Span := ⟨x.start, x.due⟩

def withSpan (x : Item) (s : Span) : Item := { x with start := s.start, due := s.due }

def withParent (x : Item) (parent : Option ItemId) : Item := { x with parent }

/-- An item without a start takes the given one; any other item stays as it is. -/
def adopt (x : Item) (start : Option Date) : Item :=
  if x.start.isNone then { x with start } else x

end Item

end WorkPlan
