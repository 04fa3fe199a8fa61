import WorkPlan.Date.Basic

/-!
The Gregorian calendar, extended to all years; the year before 1 is 0. A day number splits into
year, month and day of the month by three steps: the year is estimated from the mean length of a
year and corrected by at most one, the rest of the days is walked month by month. The main
statement is `ofCivil?_civil`: the split of a day leads back to that day and to no other.
-/

namespace WorkPlan.Date

/-- The number of 1 January of a year: a leap day is counted for every fourth year before it, less
the hundredth ones, and the four hundredth ones again. -/
def yearStart (y : Int) : Int := 365 * y + (y + 3) / 4 - (y + 99) / 100 + (y + 399) / 400

def isLeap (y : Int) : Bool := y % 4 = 0 ∧ (y % 100 ≠ 0 ∨ y % 400 = 0)

def monthLengths (y : Int) : List Nat :=
  [31, if isLeap y then 29 else 28, 31, 30, 31, 30, 31, 31, 30, 31, 30, 31]

def total (lengths : List Nat) : Nat := lengths.foldr (· + ·) 0

theorem total_cons (l : Nat) (rest : List Nat) : total (l :: rest) = l + total rest := rfl

theorem yearStart_succ (y : Int) : yearStart (y + 1) = yearStart y + total (monthLengths y) := by
  have h : (total (monthLengths y) : Int) = if isLeap y then 366 else 365 := by
    cases hl : isLeap y <;> simp [total, monthLengths, hl]
  rw [h]
  unfold yearStart isLeap
  simp only [decide_eq_true_eq]
  split <;> omega

/-- The year of a day number. The mean year has 146097 / 400 days, and the estimate from it is at
most one year off. -/
def yearOf (n : Int) : Int :=
  let y := n * 400 / 146097
  if n < yearStart y then y - 1 else if yearStart (y + 1) ≤ n then y + 1 else y

theorem yearStart_yearOf_le (n : Int) : yearStart (yearOf n) ≤ n := by
  simp only [yearOf]
  generalize hy : n * 400 / 146097 = y
  split
  · unfold yearStart; omega
  · split
    · assumption
    · omega

theorem lt_yearStart_yearOf_succ (n : Int) : n < yearStart (yearOf n + 1) := by
  simp only [yearOf]
  generalize hy : n * 400 / 146097 = y
  split
  · rename_i h
    simpa using h
  · split
    · unfold yearStart; omega
    · omega

/-! ## Days of a year by months -/

/-- Walks the lengths of the months: the position of the month that holds a day of the year, both
counted from 0, and the day of that month, counted from 1. -/
def locate : List Nat → Nat → Nat × Nat
  | [], k => (0, k + 1)
  | l :: rest, k => if k < l then (0, k + 1) else ((locate rest (k - l)).1 + 1, (locate rest (k - l)).2)

/-- The day of the year, counted from 0, of a day of the month at a position, if that month has it. -/
def offset? : List Nat → Nat → Nat → Option Nat
  | [], _, _ => none
  | l :: _, 0, d => if 1 ≤ d ∧ d ≤ l then some (d - 1) else none
  | l :: rest, i + 1, d => (offset? rest i d).map (l + ·)

theorem offset?_locate (lengths : List Nat) (k : Nat) (h : k < total lengths) :
    offset? lengths (locate lengths k).1 (locate lengths k).2 = some k := by
  induction lengths generalizing k with
  | nil => simp [total] at h
  | cons l rest ih =>
    simp only [locate]
    split
    · rename_i hk
      have hd : 1 ≤ k + 1 ∧ k + 1 ≤ l := ⟨by omega, by omega⟩
      simp [offset?, hd]
    · rename_i hk
      rw [total_cons] at h
      simp only [offset?, ih (k - l) (by omega), Option.map_some, Option.some.injEq]
      omega

theorem locate_fst_lt (lengths : List Nat) (k : Nat) (h : k < total lengths) :
    (locate lengths k).1 < lengths.length := by
  induction lengths generalizing k with
  | nil => simp [total] at h
  | cons l rest ih =>
    rw [total_cons] at h
    simp only [locate]
    split
    · simp
    · have := ih (k - l) (by omega)
      simp only [List.length_cons]
      omega

theorem locate_snd_le {bound : Nat} (lengths : List Nat) (k : Nat) (h : k < total lengths)
    (hb : ∀ l ∈ lengths, l ≤ bound) : (locate lengths k).2 ≤ bound := by
  induction lengths generalizing k with
  | nil => simp [total] at h
  | cons l rest ih =>
    rw [total_cons] at h
    simp only [locate]
    split
    · have := hb l (by simp)
      simp only
      omega
    · exact ih (k - l) (by omega) fun x hx => hb x (by simp [hx])

theorem monthLengths_le (y : Int) : ∀ l ∈ monthLengths y, l ≤ 31 := by
  cases h : isLeap y <;> simp [monthLengths, h]

/-! ## Year, month and day -/

/-- A day as a calendar names it; the month counts from 1. -/
structure Civil where
  year : Int
  month : Nat
  day : Nat
deriving DecidableEq

/-- The year, month and day of the month of a day. -/
def civil (d : Date) : Civil :=
  let y := yearOf d.day
  let place := locate (monthLengths y) (d.day - yearStart y).toNat
  ⟨y, place.1 + 1, place.2⟩

/-- The day that a year, a month and a day of the month name, if there is such a day and it is
supported. -/
def ofCivil? (c : Civil) : Option Date :=
  match c.month with
  | 0 => none
  | i + 1 => (offset? (monthLengths c.year) i c.day).bind fun k => ofDay? (yearStart c.year + k)

theorem dayOfYear_lt (d : Date) :
    (d.day - yearStart (yearOf d.day)).toNat < total (monthLengths (yearOf d.day)) := by
  have h₁ := yearStart_yearOf_le d.day
  have h₂ := lt_yearStart_yearOf_succ d.day
  rw [yearStart_succ] at h₂
  omega

theorem month_civil_le (d : Date) : d.civil.month ≤ 12 := locate_fst_lt _ _ d.dayOfYear_lt

theorem day_civil_le (d : Date) : d.civil.day ≤ 31 :=
  locate_snd_le _ _ d.dayOfYear_lt (monthLengths_le _)

theorem ofCivil?_civil (d : Date) : ofCivil? d.civil = some d := by
  have h₁ := yearStart_yearOf_le d.day
  have hn : yearStart (yearOf d.day) + ((d.day - yearStart (yearOf d.day)).toNat : Int) = d.day := by
    omega
  simp only [ofCivil?, civil, offset?_locate _ _ d.dayOfYear_lt, Option.bind_some, hn, ofDay?_day]

theorem day_first : first.day = yearStart (-262143) := by decide

theorem day_last : last.day + 1 = yearStart 262143 := by decide

end WorkPlan.Date
