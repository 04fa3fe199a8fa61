import Mathlib.Logic.Function.Iterate
import WorkPlan.Date.Calendar

/-! # Days follow one another as in the calendar

Day numbers count the days of the calendar: the day with the next number is the next day of the month,
else the first day of the next month, else the first day of the next year (`civil_addDays_one`). So the
distance between two days is the number of steps in the calendar from one to the other
(`civil_eq_iterate_next`). The year of a day number is the only one that holds it (`yearOf_eq`), and the
walk along the months comes, one day of the year further, one day further in the month or to the first
day of the next one (`locate_succ`). -/

namespace WorkPlan.Date

/-- The day behind a day of the calendar. -/
def Civil.next (c : Civil) : Civil :=
  if c.day < (monthLengths c.year).getD (c.month - 1) 0 then ⟨c.year, c.month, c.day + 1⟩
  else if c.month < 12 then ⟨c.year, c.month + 1, 1⟩
  else ⟨c.year + 1, 1, 1⟩

/-! ## The months of a year -/

section Months
variable {lengths : List Nat} {k : Nat}

theorem locate_zero (hpos : ∀ l ∈ lengths, 0 < l) : locate lengths 0 = (0, 1) := by
  cases lengths with
  | nil => rfl
  | cons l rest => exact if_pos (hpos l List.mem_cons_self)

theorem locate_succ (hpos : ∀ l ∈ lengths, 0 < l) (h : k + 1 < total lengths) :
    locate lengths (k + 1) =
      if (locate lengths k).2 < lengths.getD (locate lengths k).1 0 then
        ((locate lengths k).1, (locate lengths k).2 + 1)
      else ((locate lengths k).1 + 1, 1) := by
  induction lengths generalizing k with
  | nil => simp [total] at h
  | cons l rest ih =>
    have hrest : ∀ x ∈ rest, 0 < x := fun x hx => hpos x (List.mem_cons_of_mem l hx)
    rw [total_cons] at h
    -- the next day is in the first month, on the first day behind it, or further on
    rcases Nat.lt_trichotomy (k + 1) l with hin | hend | hout
    · have hk : k < l := by omega
      simp [locate, hin, hk]
    · have hk : k < l := by omega
      have hover : ¬ k + 1 < l := by omega
      have hfirst : k + 1 - l = 0 := by omega
      simp [locate, hk, hover, hfirst, locate_zero hrest]
    · have hk : ¬ k < l := by omega
      have hover : ¬ k + 1 < l := by omega
      have hsub : k + 1 - l = k - l + 1 := by omega
      simp only [locate, if_neg hk, if_neg hover, hsub, ih hrest (show k - l + 1 < total rest by omega),
        List.getD_cons_succ]
      split <;> rfl

theorem locate_last (hpos : ∀ l ∈ lengths, 0 < l) (h : k + 1 = total lengths) :
    (locate lengths k).1 + 1 = lengths.length ∧
      (locate lengths k).2 = lengths.getD (locate lengths k).1 0 := by
  induction lengths generalizing k with
  | nil => simp [total] at h
  | cons l rest ih =>
    rw [total_cons] at h
    have hrest : ∀ x ∈ rest, 0 < x := fun x hx => hpos x (List.mem_cons_of_mem l hx)
    by_cases hk : k < l
    · cases rest with
      | nil =>
        have hl : k + 1 = l := h
        simp [locate, hk, hl]
      | cons next later =>
        have hnext := hrest next List.mem_cons_self
        rw [total_cons] at h
        omega
    · obtain ⟨hlast, hlength⟩ := ih hrest (show k - l + 1 = total rest by omega)
      simp only [locate, if_neg hk, List.length_cons, List.getD_cons_succ]
      exact ⟨by omega, hlength⟩

end Months

theorem monthLengths_pos (y : Int) : ∀ l ∈ monthLengths y, 0 < l := by
  cases h : isLeap y <;> simp [monthLengths, h]

theorem length_monthLengths (y : Int) : (monthLengths y).length = 12 := rfl

/-! ## The years -/

theorem yearStart_mono {y z : Int} (h : y ≤ z) : yearStart y ≤ yearStart z := by
  unfold yearStart
  omega

theorem yearOf_eq {n y : Int} (hle : yearStart y ≤ n) (hlt : n < yearStart (y + 1)) : yearOf n = y := by
  have hle' := yearStart_yearOf_le n
  have hlt' := lt_yearStart_yearOf_succ n
  rcases Int.lt_trichotomy (yearOf n) y with hbefore | heq | hbehind
  · have := yearStart_mono (show yearOf n + 1 ≤ y by omega)
    omega
  · exact heq
  · have := yearStart_mono (show y + 1 ≤ yearOf n by omega)
    omega

/-! ## The next day -/

theorem civil_eq {d : Date} {y : Int} {k : Nat} (hd : d.day = yearStart y + k)
    (hk : k < total (monthLengths y)) :
    d.civil = ⟨y, (locate (monthLengths y) k).1 + 1, (locate (monthLengths y) k).2⟩ := by
  have hyear : yearOf d.day = y := by
    apply yearOf_eq
    · omega
    · rw [yearStart_succ]
      omega
  have hplace : (d.day - yearStart y).toNat = k := by omega
  simp only [civil, hyear, hplace]

theorem exists_day_eq (d : Date) :
    ∃ (y : Int) (k : Nat), d.day = yearStart y + k ∧ k < total (monthLengths y) := by
  have hstart := yearStart_yearOf_le d.day
  exact ⟨yearOf d.day, (d.day - yearStart (yearOf d.day)).toNat, by omega, d.dayOfYear_lt⟩

theorem day_addDays_one {d : Date} (h : d ≠ last) : (d.addDays 1).day = d.day + 1 := by
  have hne : d.day ≠ lastDay := fun he => h (Date.ext he)
  have hfirst := d.first_le
  have hlast := d.le_last
  rw [day_addDays]
  omega

theorem civil_addDays_one {d : Date} (h : d ≠ last) : (d.addDays 1).civil = d.civil.next := by
  obtain ⟨y, k, hd, hk⟩ := d.exists_day_eq
  have hpos := monthLengths_pos y
  have hnext := day_addDays_one h
  rw [civil_eq hd hk, Civil.next, Nat.add_sub_cancel]
  -- only behind the last day of the year, the walk along the months starts again
  by_cases hyear : k + 1 < total (monthLengths y)
  · have hmonth := locate_fst_lt _ _ hyear
    rw [civil_eq (k := k + 1) (by omega) hyear, locate_succ hpos hyear]
    rw [locate_succ hpos hyear] at hmonth
    split
    · rfl
    · rename_i hover
      rw [if_neg hover, length_monthLengths] at hmonth
      exact (if_pos hmonth).symm
  · obtain ⟨hmonth, hday⟩ := locate_last hpos (show k + 1 = total (monthLengths y) by omega)
    have hstart : (d.addDays 1).day = yearStart (y + 1) + (0 : Nat) := by
      rw [yearStart_succ]
      omega
    have htotal : 0 < total (monthLengths (y + 1)) := by
      rw [monthLengths, total_cons]
      omega
    rw [civil_eq hstart htotal, locate_zero (monthLengths_pos (y + 1)), hday, hmonth, length_monthLengths,
      if_neg (Nat.lt_irrefl _), if_neg (Nat.lt_irrefl _)]

theorem civil_eq_iterate_next {a b : Date} {n : Nat} (h : a.daysUntil b = n) :
    b.civil = Civil.next^[n] a.civil := by
  rw [daysUntil] at h
  induction n generalizing a with
  | zero =>
    have hsame : b = a := Date.ext (by omega)
    rw [hsame, Function.iterate_zero_apply]
  | succ n ih =>
    have hnot : a ≠ last := by
      rintro rfl
      have hlast : last.day = lastDay := by decide
      have hle := b.le_last
      omega
    have hnext := day_addDays_one hnot
    rw [Function.iterate_succ_apply, ← civil_addDays_one hnot]
    exact ih (by omega)

end WorkPlan.Date
