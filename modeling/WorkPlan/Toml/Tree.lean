/-!
TOML trees, and the rules for defining their tables. A header opens its table once; a table that
exists only because a longer header or a dotted key named it can be opened or extended later, but
not both ways: dotted keys extend only tables made by dotted keys, and a header opens only tables
made by headers. Inline tables and arrays are complete where they stand.
-/

namespace WorkPlan.Toml

/-- How a table came to be. -/
inductive Origin where
  /-- A header names it. -/
  | header
  /-- A header names a table inside it. -/
  | implied
  /-- A dotted key goes through it. -/
  | dotted
deriving DecidableEq

/-- A value or a table of a document. Floats, dates and times are kept as they are written. -/
inductive Node where
  | str (s : String)
  | int (n : Int)
  | bool (b : Bool)
  | float (text : String)
  | moment (text : String)
  | array (values : List Node)
  | inline (fields : List (String × Node))
  | table (origin : Origin) (fields : List (String × Node))
  | tables (elements : List (List (String × Node)))

/-- The fields of a table, in the order of their definition. -/
abbrev Fields := List (String × Node)

namespace Fields

def get? (fields : Fields) (key : String) : Option Node := fields.lookup key

def replace (fields : Fields) (key : String) (node : Node) : Fields :=
  fields.map fun field => if field.1 = key then (key, node) else field

/-- Defines a key, behind the dotted path that leads to it. -/
def assign (key : String) (node : Node) : List String → Fields → Option Fields
  | [], fields => if (fields.get? key).isSome then none else some (fields ++ [(key, node)])
  | part :: path, fields =>
    match fields.get? part with
    | none => (assign key node path []).map fun sub => fields ++ [(part, .table .dotted sub)]
    | some (.table origin sub) =>
      if origin = .header ∨ (path = [] ∧ origin ≠ .dotted) then none
      else (assign key node path sub).map fun sub => fields.replace part (.table origin sub)
    | some (.tables elements) =>
      match path, elements.getLast? with
      | _ :: _, some last =>
        (assign key node path last).map fun last =>
          fields.replace part (.tables (elements.dropLast ++ [last]))
      | _, _ => none
    | some _ => none

/-- Changes the table at the path of a header. A path through an array of tables leads into its last
one. -/
def alter (change : Fields → Option Fields) : List String → Fields → Option Fields
  | [], fields => change fields
  | part :: path, fields =>
    match fields.get? part with
    | none => (alter change path []).map fun sub => fields ++ [(part, .table .implied sub)]
    | some (.table origin sub) =>
      (alter change path sub).map fun sub => fields.replace part (.table origin sub)
    | some (.tables elements) =>
      match elements.getLast? with
      | some last =>
        (alter change path last).map fun last =>
          fields.replace part (.tables (elements.dropLast ++ [last]))
      | none => none
    | some _ => none

/-- Opens a table by its header. -/
def openTable (key : String) (fields : Fields) : Option Fields :=
  match fields.get? key with
  | none => some (fields ++ [(key, .table .header [])])
  | some (.table .implied sub) => some (fields.replace key (.table .header sub))
  | some _ => none

/-- Opens a further table of an array of tables. -/
def openElement (key : String) (fields : Fields) : Option Fields :=
  match fields.get? key with
  | none => some (fields ++ [(key, .tables [[]])])
  | some (.tables elements) => some (fields.replace key (.tables (elements ++ [[]])))
  | some _ => none

/-- Defines a value under a key, whose last part names it. -/
def define (key : List String) (node : Node) (fields : Fields) : Option Fields :=
  match key.getLast? with
  | some last => fields.assign last node key.dropLast
  | none => none

end Fields

end WorkPlan.Toml
