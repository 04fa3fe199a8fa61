/-!
Decimal numerals: writing a number with at least so many digits, and reading the digits at the
head of a text. The main statement is `number?_padded_append`: what is written reads back, if it
fits the limit of the reader and no further digit follows. Integers in texts are those of 64 bits
with sign.
-/

namespace WorkPlan.Text

/-- The decimal digits of a number, with zeros in front up to a width. -/
def padded (width n : Nat) : List Char :=
  List.replicate (width - (Nat.toDigits 10 n).length) '0' ++ Nat.toDigits 10 n

/-- Reads the digits at the head of a text, one at least and `limit` at most, and gives their number
and the text behind them. -/
def number? (limit : Nat) (cs : List Char) : Option (Nat × List Char) :=
  let ds := (cs.takeWhile Char.isDigit).take limit
  if ds = [] then none else some (Nat.ofDigitChars 10 ds 0, cs.drop ds.length)

theorem isDigit_of_mem_padded {width n : Nat} {c : Char} (h : c ∈ padded width n) :
    c.isDigit = true := by
  rcases List.mem_append.mp h with h | h
  · rw [(List.mem_replicate.mp h).2]; rfl
  · exact Nat.isDigit_of_mem_toDigits (by decide) (by decide) h

theorem padded_ne_nil (width n : Nat) : padded width n ≠ [] := by
  simp [padded, Nat.toDigits_ne_nil]

theorem ofDigitChars_padded (width n : Nat) : Nat.ofDigitChars 10 (padded width n) 0 = n := by
  simp [padded, Nat.ofDigitChars_append, Nat.ofDigitChars_replicate_zero]

theorem length_padded (width n : Nat) :
    (padded width n).length = max width (Nat.toDigits 10 n).length := by
  simp only [padded, List.length_append, List.length_replicate]
  omega

theorem takeWhile_isDigit_append {ds rest : List Char} (hd : ∀ c ∈ ds, c.isDigit = true)
    (hr : ∀ c ∈ rest.head?, c.isDigit = false) : (ds ++ rest).takeWhile Char.isDigit = ds := by
  rw [List.takeWhile_append_of_pos hd]
  cases rest with
  | nil => simp
  | cons c rest => simp [hr c rfl]

theorem number?_padded_append {limit width n : Nat} {rest : List Char}
    (hl : (padded width n).length ≤ limit) (hr : ∀ c ∈ rest.head?, c.isDigit = false) :
    number? limit (padded width n ++ rest) = some (n, rest) := by
  simp only [number?, takeWhile_isDigit_append (fun c => isDigit_of_mem_padded) hr,
    List.take_of_length_le hl, padded_ne_nil, ↓reduceIte, ofDigitChars_padded, List.drop_left]

def fitsInt64 (n : Int) : Bool := -9223372036854775808 ≤ n ∧ n ≤ 9223372036854775807

def fitsNat32 (n : Int) : Bool := 0 ≤ n ∧ n ≤ 4294967295

end WorkPlan.Text
