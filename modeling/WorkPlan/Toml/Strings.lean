import WorkPlan.Toml.Trivia

/-!
TOML strings and keys. A string between double quotes has escapes, one between single quotes has
none; three quotes of a kind enclose a text of several lines. A text of several lines loses a line
end right behind its opening quotes, and may end in one or two quotes of its own.
-/

namespace WorkPlan.Toml

open WorkPlan.Text

def hexValue? (c : Char) : Option Nat :=
  if c.isDigit then some (c.toNat - '0'.toNat)
  else if 'a' ≤ c && c ≤ 'f' then some (c.toNat - 'a'.toNat + 10)
  else if 'A' ≤ c && c ≤ 'F' then some (c.toNat - 'A'.toNat + 10)
  else none

def codePoint? (digits : Nat) : Reader Char := fun cs => do
  let values ← (cs.take digits).mapM hexValue?
  let n := values.foldl (fun n d => 16 * n + d) 0
  if values.length = digits ∧ n.isValidChar then some (Char.ofNat n, cs.drop digits) else none

/-- Reads an escape, behind its backslash. -/
def escape? : Reader Char
  | 'b' :: rest => some ('\x08', rest)
  | 't' :: rest => some ('\t', rest)
  | 'n' :: rest => some ('\n', rest)
  | 'f' :: rest => some ('\x0c', rest)
  | 'r' :: rest => some ('\r', rest)
  | '"' :: rest => some ('"', rest)
  | '\\' :: rest => some ('\\', rest)
  | 'u' :: rest => codePoint? 4 rest
  | 'U' :: rest => codePoint? 8 rest
  | _ => none

/-- Reads a character that stands for itself in a string with the given quote. -/
def plain? (quote : Char) (escapes : Bool) : Reader Char
  | c :: rest => if isPlain c && c ≠ quote && !(escapes && c = '\\') then some (c, rest) else none
  | [] => none

def character? (quote : Char) (escapes : Bool) : Reader Char := fun cs =>
  match escapes, cs with
  | true, '\\' :: rest => escape? rest
  | _, _ => plain? quote escapes cs

/-- Reads a string on one line, behind its opening quote. -/
def oneLine? (quote : Char) (escapes : Bool) : Reader String := fun cs =>
  let (chars, rest) := Reader.many (character? quote escapes) cs
  match rest with
  | c :: rest => if c = quote then some (String.ofList chars, rest) else none
  | [] => none

/-- Reads a backslash at the end of a line, with all spaces and line ends behind it. -/
def continuation? : List Char → Option (List Char)
  | '\\' :: rest =>
    (newline? (skipSpaces rest)).map fun rest =>
      (Reader.many (fun cs =>
        match cs with
        | ' ' :: rest | '\t' :: rest => some ((), rest)
        | _ => (newline? cs).map ((), ·)) rest).2
  | _ => none

def quotesAhead (quote : Char) (cs : List Char) : Nat := (cs.takeWhile (· = quote)).length

/-- Reads a piece of a text of several lines; fewer than three quotes stand for themselves. -/
def piece? (quote : Char) (escapes : Bool) : Reader (Option Char) := fun cs =>
  match newline? cs with
  | some rest => some (some '\n', rest)
  | none =>
    match if escapes then continuation? cs else none with
    | some rest => some (none, rest)
    | none =>
      if quotesAhead quote cs = 1 ∨ quotesAhead quote cs = 2 then some (some quote, cs.drop 1)
      else (character? quote escapes cs).map fun read => (some read.1, read.2)

/-- Reads a text of several lines, behind its opening quotes. Of four or five closing quotes the
first ones belong to the text. -/
def manyLines? (quote : Char) (escapes : Bool) : Reader String := fun cs =>
  let (pieces, rest) := Reader.many (piece? quote escapes) ((newline? cs).getD cs)
  let closing := min (quotesAhead quote rest) 5
  if closing < 3 then none
  else
    some (String.ofList (pieces.filterMap id ++ List.replicate (closing - 3) quote),
      rest.drop closing)

def string? : Reader String
  | '"' :: '"' :: '"' :: rest => manyLines? '"' true rest
  | '"' :: rest => oneLine? '"' true rest
  | '\'' :: '\'' :: '\'' :: rest => manyLines? '\'' false rest
  | '\'' :: rest => oneLine? '\'' false rest
  | _ => none

/-! ## Keys -/

def isKeyChar (c : Char) : Bool := c.isAlphanum || c = '_' || c = '-'

/-- Reads one part of a key, with the spaces around it. -/
def keyPart? : Reader String := fun cs => do
  let cs := skipSpaces cs
  let (key, rest) ←
    match cs with
    | '"' :: rest => oneLine? '"' true rest
    | '\'' :: rest => oneLine? '\'' false rest
    | _ =>
      let chars := cs.takeWhile isKeyChar
      if chars = [] then none else some (String.ofList chars, cs.drop chars.length)
  return (key, skipSpaces rest)

/-- The number of parts from which on a key is too long, and of levels from which on values are
nested too deeply. -/
def depthLimit : Nat := 80

def key? : Reader (List String) := fun cs => do
  let (parts, rest) ← Reader.separated '.' keyPart? cs
  if parts.length < depthLimit then some (parts, rest) else none

end WorkPlan.Toml
