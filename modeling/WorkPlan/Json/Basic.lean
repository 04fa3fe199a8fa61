import WorkPlan.Text.Numeral

/-!
JSON values, and readers for their parts. A reader answers `none` for a value of another form; of
an object it looks only at the fields that it asks for.
-/

namespace WorkPlan

/-- A JSON value. A number with a fraction or an exponent is no integer, whatever its value is; it is
kept as it is written. -/
inductive Json where
  | null
  | bool (b : Bool)
  | int (n : Int)
  | real (text : String)
  | str (s : String)
  | arr (values : List Json)
  | obj (fields : List (String × Json))
deriving Inhabited

namespace Json

def fields? : Json → Option (List (String × Json))
  | obj fields => some fields
  | _ => none

def str? : Json → Option String
  | str s => some s
  | _ => none

def list? {α : Type} (read? : Json → Option α) : Json → Option (List α)
  | arr values => values.mapM read?
  | _ => none

def intThat? (fits : Int → Bool) : Json → Option Int
  | int n => if fits n then some n else none
  | _ => none

def int64? : Json → Option Int := intThat? Text.fitsInt64

def nat32? (j : Json) : Option Nat := (intThat? Text.fitsNat32 j).map Int.toNat

/-- A name out of a fixed choice. It may also stand as the only field of an object, with nothing in
it. -/
def name? : Json → Option String
  | str s => some s
  | obj [(s, null)] => some s
  | _ => none

/-- Reads a value that may be null. -/
def nullable? {α : Type} (read? : Json → Option α) : Json → Option (Option α)
  | null => some none
  | j => (read? j).map some

def ofOption {α : Type} (write : α → Json) : Option α → Json
  | none => null
  | some x => write x

/-- Reads a field that has to be there. -/
def required? {α : Type} (read? : Json → Option α) (key : String) (fields : List (String × Json)) :
    Option α :=
  (fields.lookup key).bind read?

/-- Reads a field that may be null or absent. -/
def optional? {α : Type} (read? : Json → Option α) (key : String) (fields : List (String × Json)) :
    Option (Option α) :=
  match fields.lookup key with
  | some j => nullable? read? j
  | none => some none

/-- Reads a field that stands for a value of its own when it is absent. -/
def defaulted? {α : Type} (default : α) (read? : Json → Option α) (key : String)
    (fields : List (String × Json)) : Option α :=
  match fields.lookup key with
  | some j => read? j
  | none => some default

end Json

end WorkPlan
