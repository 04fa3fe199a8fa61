/-!
Readers: functions that take a piece off the head of a text and give what it means, with the text
behind it.
-/

namespace WorkPlan.Text

/-- Reads a value at the head of a text. -/
abbrev Reader (α : Type) := List Char → Option (α × List Char)

namespace Reader

/-- Reads with `read` so many times at most, and stops where it declines. -/
def upTo {α : Type} (read : Reader α) : Nat → List Char → List α × List Char
  | 0, cs => ([], cs)
  | limit + 1, cs =>
    match read cs with
    | none => ([], cs)
    | some (x, rest) =>
      let later := upTo read limit rest
      (x :: later.1, later.2)

/-- Reads with `read` until it declines. It has to take a character each time, so there is nothing
left to read when the limit is met. -/
def many {α : Type} (read : Reader α) (cs : List Char) : List α × List Char :=
  upTo read cs.length cs

/-- Reads one value at least, with a character between each two. A last separator without a value
behind it is left unread. -/
def separated {α : Type} (separator : Char) (read : Reader α) : Reader (List α) := fun cs => do
  let (first, rest) ← read cs
  let next : Reader α := fun cs =>
    match cs with
    | c :: rest => if c = separator then read rest else none
    | [] => none
  let (later, rest) := many next rest
  return (first :: later, rest)

/-- The text that stands before a rest of it. -/
def before (cs rest : List Char) : String := String.ofList (cs.take (cs.length - rest.length))

end Reader

end WorkPlan.Text
