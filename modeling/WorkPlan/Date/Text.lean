import WorkPlan.Date.Calendar
import WorkPlan.Text.Blank
import WorkPlan.Text.Numeral

/-!
The text of a day: year, month and day of the month with hyphens between. Years from 0 to 9999 are
written with four digits, others with a sign and at least four digits. The reader is more lenient:
numbers need no leading zeros, any year may have a sign, and blanks may stand around each part.
The main statement is `read?_text`: the text of a day reads back as that day.
-/

namespace WorkPlan.Date

open WorkPlan.Text

/-- A year as it is written: four digits up to 9999, else a sign and at least four digits. -/
def yearText (y : Int) : List Char :=
  if 0 ≤ y ∧ y ≤ 9999 then padded 4 y.toNat
  else (if y < 0 then '-' else '+') :: padded 4 y.natAbs

def chars (d : Date) : List Char :=
  let c := d.civil
  yearText c.year ++ '-' :: (padded 2 c.month ++ '-' :: padded 2 c.day)

def text (d : Date) : String := String.ofList d.chars

/-- Reads a year: behind a sign any number of digits, else at most four. -/
def readYear? : List Char → Option (Int × List Char)
  | '-' :: rest => (number? rest.length rest).map fun read => (-(read.1 : Int), read.2)
  | '+' :: rest => (number? rest.length rest).map fun read => ((read.1 : Int), read.2)
  | cs => (number? 4 cs).map fun read => ((read.1 : Int), read.2)

/-- Reads a hyphen with the blanks around it. -/
def readHyphen? (cs : List Char) : Option (List Char) :=
  match skipBlanks cs with
  | '-' :: rest => some (skipBlanks rest)
  | _ => none

def readChars? (cs : List Char) : Option Date := do
  let (year, rest) ← readYear? (skipBlanks cs)
  let rest ← readHyphen? rest
  let (month, rest) ← number? 2 rest
  let rest ← readHyphen? rest
  let (day, rest) ← number? 2 rest
  if skipBlanks rest = [] then ofCivil? ⟨year, month, day⟩ else none

def read? (s : String) : Option Date := readChars? s.toList

/-! ## What is written reads back -/

theorem length_padded_four {n : Nat} (h : n ≤ 9999) : (padded 4 n).length ≤ 4 := by
  have := (Nat.length_toDigits_le_iff (b := 10) (n := n) (k := 4) (by decide) (by decide)).mpr
    (by omega)
  rw [length_padded]
  omega

theorem length_padded_two {n : Nat} (h : n < 100) : (padded 2 n).length ≤ 2 := by
  have := (Nat.length_toDigits_le_iff (b := 10) (n := n) (k := 2) (by decide) (by decide)).mpr
    (by omega)
  rw [length_padded]
  omega

theorem skipBlanks_padded_append (width n : Nat) (rest : List Char) :
    skipBlanks (padded width n ++ rest) = padded width n ++ rest := by
  cases h : padded width n with
  | nil => exact absurd h (padded_ne_nil width n)
  | cons c cs =>
    exact skipBlanks_cons_of_not (isBlank_eq_false_of_isDigit
      (isDigit_of_mem_padded (show c ∈ padded width n by simp [h]))) _

theorem readYear?_padded {n : Nat} (hn : n ≤ 9999) {rest : List Char}
    (hr : ∀ c ∈ rest.head?, c.isDigit = false) :
    readYear? (padded 4 n ++ rest) = some ((n : Int), rest) := by
  have hread := number?_padded_append (length_padded_four hn) hr
  cases h : padded 4 n with
  | nil => exact absurd h (padded_ne_nil 4 n)
  | cons c cs =>
    have hc : c.isDigit = true := isDigit_of_mem_padded (show c ∈ padded 4 n by simp [h])
    rw [h] at hread
    simp only [List.cons_append] at hread ⊢
    unfold readYear?
    split
    · rename_i heq; cases heq; exact absurd hc (by decide)
    · rename_i heq; cases heq; exact absurd hc (by decide)
    · rw [hread]; rfl

theorem readYear?_yearText (y : Int) {rest : List Char}
    (hr : ∀ c ∈ rest.head?, c.isDigit = false) : readYear? (yearText y ++ rest) = some (y, rest) := by
  unfold yearText
  split
  · rename_i h
    rw [readYear?_padded (by omega) hr]
    simp only [Option.some.injEq, Prod.mk.injEq, and_true]
    omega
  · have hread : number? (padded 4 y.natAbs ++ rest).length (padded 4 y.natAbs ++ rest)
        = some (y.natAbs, rest) := number?_padded_append (by simp) hr
    split
    · simp only [List.cons_append, readYear?, hread, Option.map_some, Option.some.injEq,
        Prod.mk.injEq, and_true]
      omega
    · simp only [List.cons_append, readYear?, hread, Option.map_some, Option.some.injEq,
        Prod.mk.injEq, and_true]
      omega

theorem skipBlanks_yearText_append (y : Int) (rest : List Char) :
    skipBlanks (yearText y ++ rest) = yearText y ++ rest := by
  unfold yearText
  split
  · exact skipBlanks_padded_append ..
  · split <;> exact skipBlanks_cons_of_not (by decide) _

theorem readHyphen?_cons_padded (width n : Nat) (rest : List Char) :
    readHyphen? ('-' :: (padded width n ++ rest)) = some (padded width n ++ rest) := by
  have h : skipBlanks ('-' :: (padded width n ++ rest)) = '-' :: (padded width n ++ rest) :=
    skipBlanks_cons_of_not (by decide) _
  simp only [readHyphen?, h, skipBlanks_padded_append]

theorem number?_padded_two {n : Nat} (hn : n < 100) {rest : List Char}
    (hr : ∀ c ∈ rest.head?, c.isDigit = false) :
    number? 2 (padded 2 n ++ rest) = some (n, rest) :=
  number?_padded_append (length_padded_two hn) hr

theorem read?_text (d : Date) : read? d.text = some d := by
  have hm := d.month_civil_le
  have hd := d.day_civil_le
  have hhyphen : ∀ (rest : List Char), ∀ c ∈ ('-' :: rest).head?, c.isDigit = false := by simp
  have hday : number? 2 (padded 2 d.civil.day ++ []) = some (d.civil.day, []) :=
    number?_padded_two (by omega) (by simp)
  rw [List.append_nil] at hday
  have hdayHyphen := readHyphen?_cons_padded 2 d.civil.day []
  rw [List.append_nil] at hdayHyphen
  simp only [read?, text, String.toList_ofList, readChars?, chars, skipBlanks_yearText_append,
    readYear?_yearText _ (hhyphen _), readHyphen?_cons_padded,
    number?_padded_two (show d.civil.month < 100 by omega) (hhyphen _), hdayHyphen, hday,
    Option.bind_eq_bind, Option.bind_some]
  exact ofCivil?_civil d

end WorkPlan.Date
