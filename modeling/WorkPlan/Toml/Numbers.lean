import WorkPlan.Text.Numeral
import WorkPlan.Toml.Strings

/-!
TOML numbers. Underscores may stand between digits, and a decimal number has no leading zeros. An
integer has to fit 64 bits with sign, whether it is used or not. A float is kept as it is written;
only one that would round up to infinity is refused.
-/

namespace WorkPlan.Toml

open WorkPlan.Text

/-- Reads digits with single underscores between, and gives the values of the digits. -/
def digits? (value? : Char → Option Nat) : Reader (List Nat) := fun cs =>
  let digit? : Reader Nat := fun cs =>
    match cs with
    | c :: rest => (value? c).map (·, rest)
    | [] => none
  match digit? cs with
  | none => none
  | some (first, rest) =>
    let (later, rest) := Reader.many (fun cs =>
      match cs with
      | '_' :: rest => digit? rest
      | _ => digit? cs) rest
    some (first :: later, rest)

def digitBelow? (base : Nat) (c : Char) : Option Nat := (hexValue? c).filter (· < base)

def ofDigits (base : Nat) (digits : List Nat) : Nat := digits.foldl (fun n d => base * n + d) 0

/-- Splits off a sign; the first part says whether it is a minus. -/
def splitSign : List Char → Bool × List Char
  | '-' :: rest => (true, rest)
  | '+' :: rest => (false, rest)
  | cs => (false, cs)

/-- Reads the digits of a decimal number; behind a leading zero there are none. -/
def decimal? : Reader (List Nat)
  | '0' :: rest => some ([0], rest)
  | cs => digits? (digitBelow? 10) cs

def fitting? (n : Int) : Option Int := if fitsInt64 n then some n else none

def integer? : Reader Int := fun cs => do
  let based (base : Nat) (rest : List Char) : Option (Int × List Char) := do
    let (digits, rest) ← digits? (digitBelow? base) rest
    return (← fitting? (ofDigits base digits), rest)
  match cs with
  | '0' :: 'x' :: rest => based 16 rest
  | '0' :: 'o' :: rest => based 8 rest
  | '0' :: 'b' :: rest => based 2 rest
  | _ =>
    let (negative, rest) := splitSign cs
    let (digits, rest) ← decimal? rest
    let n : Int := ofDigits 10 digits
    return (← fitting? (if negative then -n else n), rest)

/-! ## Floats -/

/-- Whether the number `digits` · 10^`exponent` rounds to infinity in binary64, whose finite numbers
end half a step below 2^1024. -/
def roundsToInfinity (digits : List Nat) (exponent : Int) : Bool :=
  let digits := digits.dropWhile (· = 0)
  let n := ofDigits 10 digits
  let bound := Nat.pow 2 1024 - Nat.pow 2 970
  if digits = [] then false
  else if digits.length + exponent > 309 then true
  else if digits.length + exponent < 309 then false
  else if exponent < 0 then bound * Nat.pow 10 exponent.natAbs ≤ n
  else bound ≤ n * Nat.pow 10 exponent.natAbs

def exponent? : Reader Int
  | 'e' :: rest | 'E' :: rest => do
    let (negative, rest) := splitSign rest
    let (digits, rest) ← digits? (digitBelow? 10) rest
    let n : Int := ofDigits 10 digits
    return (if negative then -n else n, rest)
  | _ => none

/-- Reads the part of a float behind the point. -/
def fraction? : Reader (List Nat)
  | '.' :: rest => digits? (digitBelow? 10) rest
  | _ => none

/-- Reads a float, and gives it as it is written. -/
def float? : Reader String := fun cs =>
  let (negative, unsigned) := splitSign cs
  match unsigned with
  | 'i' :: 'n' :: 'f' :: rest | 'n' :: 'a' :: 'n' :: rest => some (Reader.before cs rest, rest)
  | _ => do
    let (whole, rest) ← decimal? unsigned
    let (fraction, exponent, rest) ←
      match fraction? rest with
      | some (fraction, rest) =>
        match exponent? rest with
        | some (exponent, rest) => some (fraction, exponent, rest)
        | none => some (fraction, 0, rest)
      | none => (exponent? rest).map fun read => ([], read.1, read.2)
    if !negative && roundsToInfinity (whole ++ fraction) (exponent - fraction.length) then none
    else some (Reader.before cs rest, rest)

end WorkPlan.Toml
