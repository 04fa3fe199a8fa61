import WorkPlan.Date.Calendar
import WorkPlan.Text.Reader

/-!
TOML dates and times: a date, a time of day, or both with an optional offset. They are kept as they
are written.
-/

namespace WorkPlan.Toml

open WorkPlan.Text

/-- Reads a number of exactly so many digits between two bounds. -/
def fixed? (count low high : Nat) : Reader Nat := fun cs =>
  let digits := cs.take count
  let n := Nat.ofDigitChars 10 digits 0
  if digits.length = count ∧ digits.all Char.isDigit ∧ low ≤ n ∧ n ≤ high then
    some (n, cs.drop count)
  else none

def mark? (c : Char) : List Char → Option (List Char)
  | d :: rest => if d = c then some rest else none
  | [] => none

/-- Reads a date that exists. -/
def date? (cs : List Char) : Option (List Char) := do
  let (year, rest) ← fixed? 4 0 9999 cs
  let rest ← mark? '-' rest
  let (month, rest) ← fixed? 2 1 12 rest
  let rest ← mark? '-' rest
  let (day, rest) ← fixed? 2 1 31 rest
  if (Date.offset? (Date.monthLengths year) (month - 1) day).isSome then some rest else none

def time? (cs : List Char) : Option (List Char) := do
  let (_, rest) ← fixed? 2 0 23 cs
  let rest ← mark? ':' rest
  let (_, rest) ← fixed? 2 0 59 rest
  let rest ← mark? ':' rest
  let (_, rest) ← fixed? 2 0 60 rest
  match rest with
  | '.' :: digits =>
    let later := digits.dropWhile Char.isDigit
    if later.length < digits.length then some later else some rest
  | _ => some rest

/-- Reads an offset from universal time. -/
def offset? : List Char → Option (List Char)
  | 'Z' :: rest | 'z' :: rest => some rest
  | '+' :: rest | '-' :: rest => do
    let (_, rest) ← fixed? 2 0 23 rest
    let rest ← mark? ':' rest
    let (_, rest) ← fixed? 2 0 59 rest
    return rest
  | _ => none

/-- Reads a date, a time or both, and gives it as it is written. -/
def moment? : Reader String := fun cs =>
  let written := fun rest => (Reader.before cs rest, rest)
  match date? cs with
  | none => (time? cs).map written
  | some rest =>
    let time :=
      match rest with
      | 'T' :: later | 't' :: later | ' ' :: later => time? later
      | _ => none
    match time with
    | none => some (written rest)
    | some later => some (written ((offset? later).getD later))

end WorkPlan.Toml
