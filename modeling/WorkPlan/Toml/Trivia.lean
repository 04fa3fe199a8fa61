import WorkPlan.Text.Reader

/-!
What stands between the parts of a TOML document: spaces and tabs, ends of lines, and comments. No
control character but the tab stands in a comment or, as it is, in a string.
-/

namespace WorkPlan.Toml

open WorkPlan.Text

def isPlain (c : Char) : Bool := c = '\t' || (0x20 ≤ c.toNat && c.toNat ≠ 0x7f)

def skipSpaces (cs : List Char) : List Char := cs.dropWhile fun c => c = ' ' || c = '\t'

def newline? : List Char → Option (List Char)
  | '\n' :: rest => some rest
  | '\r' :: '\n' :: rest => some rest
  | _ => none

def skipComment : List Char → List Char
  | '#' :: rest => rest.dropWhile isPlain
  | cs => cs

/-- Reads what may stand behind the last part of a line, and the end of the line or of the text. -/
def lineRest? (cs : List Char) : Option (List Char) :=
  match skipComment (skipSpaces cs) with
  | [] => some []
  | rest => newline? rest

/-- Reads one piece of what may stand between the values of an array. -/
def gap? : Reader Unit := fun cs =>
  match cs with
  | ' ' :: rest | '\t' :: rest => some ((), rest)
  | '#' :: rest => some ((), rest.dropWhile isPlain)
  | _ => (newline? cs).map ((), ·)

def skipGaps (cs : List Char) : List Char := (Reader.many gap? cs).2

end WorkPlan.Toml
