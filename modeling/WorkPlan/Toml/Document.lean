import WorkPlan.Toml.Moments
import WorkPlan.Toml.Numbers
import WorkPlan.Toml.Tree

/-!
TOML documents. The values of a document are nested less deeply than the limit allows, and this is
what the reader of values recurses on. A document is a list of lines: blank ones, headers and
definitions; the lines are read first and then carried out one after the other.
-/

namespace WorkPlan.Toml

open WorkPlan.Text

/-- Reads a value that is no array and no inline table. -/
def scalar? : Reader Node
  | 't' :: 'r' :: 'u' :: 'e' :: rest => some (.bool true, rest)
  | 'f' :: 'a' :: 'l' :: 's' :: 'e' :: rest => some (.bool false, rest)
  | cs =>
    match string? cs with
    | some (s, rest) => some (.str s, rest)
    | none =>
      match moment? cs with
      | some (text, rest) => some (.moment text, rest)
      | none =>
        match float? cs with
        | some (text, rest) => some (.float text, rest)
        | none => (integer? cs).map fun read => (.int read.1, read.2)

/-- Reads an array, behind its opening bracket; a comma may follow the last value. -/
def array? (value? : Reader Node) : Reader Node := fun cs =>
  let element? : Reader Node := fun cs =>
    (value? (skipGaps cs)).map fun read => (read.1, skipGaps read.2)
  let (values, rest) :=
    match Reader.separated ',' element? cs with
    | some (values, ',' :: rest) => (values, rest)
    | some read => read
    | none => ([], cs)
  match skipGaps rest with
  | ']' :: rest => some (.array values, rest)
  | _ => none

/-- Reads a key, an equality sign and a value, with the spaces between. -/
def definition? (value? : Reader Node) : Reader (List String × Node) := fun cs =>
  match key? cs with
  | some (key, '=' :: rest) => (value? (skipSpaces rest)).map fun read => ((key, read.1), read.2)
  | _ => none

/-- Reads an inline table, behind its opening brace. -/
def inline? (value? : Reader Node) : Reader Node := fun cs =>
  let field? : Reader (List String × Node) := fun cs =>
    (definition? value? cs).map fun read => (read.1, skipSpaces read.2)
  let (definitions, rest) := (Reader.separated ',' field? cs).getD ([], skipSpaces cs)
  match rest with
  | '}' :: rest =>
    (definitions.foldlM (fun (fields : Fields) d => fields.define d.1 d.2) []).map fun fields =>
      (.inline fields, rest)
  | _ => none

/-- Reads a value with so many levels of arrays and inline tables at most. -/
def value? : Nat → Reader Node
  | depth + 1, '[' :: rest => array? (value? depth) rest
  | depth + 1, '{' :: rest => inline? (value? depth) rest
  | _, cs => scalar? cs

/-! ## Lines -/

inductive Line where
  | blank
  | table (path : List String)
  | element (path : List String)
  | definition (key : List String) (node : Node)

def line? : Reader Line := fun cs =>
  match skipSpaces cs with
  | [] => none
  | '#' :: rest => (lineRest? ('#' :: rest)).map (.blank, ·)
  | '[' :: '[' :: rest =>
    match key? rest with
    | some (path, ']' :: ']' :: rest) => (lineRest? rest).map (.element path, ·)
    | _ => none
  | '[' :: rest =>
    match key? rest with
    | some (path, ']' :: rest) => (lineRest? rest).map (.table path, ·)
    | _ => none
  | cs =>
    match newline? cs with
    | some rest => some (.blank, rest)
    | none => do
      let ((key, node), rest) ← definition? (value? (depthLimit - 1)) cs
      return (.definition key node, ← lineRest? rest)

/-- A document that is being read: its fields, and the path of the last header. -/
structure Draft where
  fields : Fields := []
  path : List String := []

def Draft.add (d : Draft) : Line → Option Draft
  | .blank => some d
  | .table path => do
    let key ← path.getLast?
    return { fields := ← d.fields.alter (Fields.openTable key) path.dropLast, path }
  | .element path => do
    let key ← path.getLast?
    return { fields := ← d.fields.alter (Fields.openElement key) path.dropLast, path }
  | .definition key node => do
    return { d with fields := ← d.fields.alter (Fields.define key node) d.path }

/-- Reads a document, which may begin with a byte order mark. -/
def document? (text : String) : Option Fields := do
  let cs :=
    match text.toList with
    | '\ufeff' :: rest => rest
    | cs => cs
  let (lines, rest) := Reader.many line? cs
  if skipSpaces rest = [] then (lines.foldlM Draft.add {}).map (·.fields) else none

end WorkPlan.Toml
