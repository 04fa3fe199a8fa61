import WorkPlan.Item

/-!
Depth-first search over items that are visited in one of two roles. A visit as a follower covers all
later visits of the item; a visit as an ancestor covers later visits as an ancestor, but the item is
visited once more if it turns out to be a follower. So each item is visited twice at most, and a
limit of twice the number of items that can be met never cuts a search short.
-/

namespace WorkPlan

/-- How an item is met: only because it contains another item, or because it waits for one or is
inside an item that does. -/
inductive Role where
  | ancestor
  | follower
deriving DecidableEq

structure Visit where
  id : ItemId
  role : Role
deriving DecidableEq

namespace Visit

/-- Whether a visit makes another one needless: it is of the same item, in a role that is no
weaker. -/
def covers (v w : Visit) : Bool := v.id = w.id && (w.role = .ancestor || v.role = .follower)

/-- Visits the items waiting on a stack, the top first. `next` gives the visits that a visit asks
for, in the order in which they go on top of the stack. `seen` holds the visits that were made, the
latest first. -/
def search (next : Visit → List Visit) : Nat → List Visit → List Visit → List Visit
  | 0, seen, _ => seen
  | limit + 1, seen, stack =>
    match stack.dropWhile fun v => seen.any (·.covers v) with
    | [] => seen
    | v :: rest => search next limit (v :: seen) (next v ++ rest)

def trace (next : Visit → List Visit) (limit : Nat) (start : List Visit) : List Visit :=
  (search next limit [] start).reverse

end Visit

end WorkPlan
