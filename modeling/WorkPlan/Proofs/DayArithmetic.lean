import WorkPlan.Span
import WorkPlan.Date.Stretch
import WorkPlan.Text.Numeral
import WorkPlan.Proofs.Lateness
import WorkPlan.Proofs.NextDay

/-! # Adding days up to the ends of the range

Adding days is exact: it leads to the only day so far away, if there is one, and else to the end of the
range on that side (`addDays_of_daysUntil`, `addDays_of_forall_ne`). A stretch of time that is too long
and one that leads out of the range are not told apart, and need not be (`reach_eq_addDays`). So whatever
is added, the order of days is kept and no two days are driven apart (`natAbs_daysUntil_addDays_le`), and
days may be added in parts on one side (`addDays_addDays`). -/

namespace WorkPlan

namespace Date
variable {a b d e : Date} {m n : Int}

theorem daysUntil_addDays (h : d.daysUntil e = n) : d.daysUntil (d.addDays n) = n := by
  rw [addDays_of_daysUntil h, h]

theorem day_add_of_forall_ne (h : ∀ e, d.daysUntil e ≠ n) :
    d.day + n < -lastDay ∨ lastDay < d.day + n := by
  by_contra hin
  have hrange : -lastDay ≤ d.day + n ∧ d.day + n ≤ lastDay := by omega
  refine h ⟨d.day + n, hrange.1, hrange.2⟩ ?_
  show d.day + n - d.day = n
  omega

theorem addDays_of_forall_ne (h : ∀ e, d.daysUntil e ≠ n) :
    d.addDays n = if n < 0 then first else last := by
  have hfirst : first.day = -lastDay := by decide
  have hlast : last.day = lastDay := by decide
  have hover := day_add_of_forall_ne h
  have hle := d.first_le
  have hge := d.le_last
  split
  · ext
    rw [day_addDays, hfirst]
    omega
  · ext
    rw [day_addDays, hlast]
    omega

theorem ne_zero_of_forall_ne (h : ∀ e, d.daysUntil e ≠ n) : n ≠ 0 := by
  rintro rfl
  exact h d (Int.sub_self _)

theorem reach_eq_addDays (d : Date) (n : Int) : d.reach n = d.addDays n := by
  cases hday : (Stretch.ofDays? n).bind d.after? with
  | some e =>
    rw [reach, hday, Option.getD_some, addDays_of_daysUntil (bind_after?_eq_some_iff.mp hday)]
  | none =>
    -- whichever of the two failed, there is no day so far away
    have hnone : ∀ e, d.daysUntil e ≠ n := fun e he => by
      rw [bind_after?_eq_some_iff.mpr he] at hday
      cases hday
    rw [reach, hday, Option.getD_none, addDays_of_forall_ne hnone]

theorem natAbs_daysUntil_addDays_le (a b : Date) (n : Int) :
    ((a.addDays n).daysUntil (b.addDays n)).natAbs ≤ (a.daysUntil b).natAbs := by
  simp only [daysUntil, day_addDays]
  omega

theorem addDays_addDays (h : 0 ≤ m ∧ 0 ≤ n ∨ m ≤ 0 ∧ n ≤ 0) (d : Date) :
    (d.addDays m).addDays n = d.addDays (m + n) := by
  have hfirst := d.first_le
  have hlast := d.le_last
  ext
  rw [day_addDays, day_addDays, day_addDays]
  omega

theorem fitsInt64_daysUntil (a b : Date) : Text.fitsInt64 (a.daysUntil b) = true := by
  have h := natAbs_daysUntil_le a b
  refine decide_eq_true ?_
  unfold lastDay at h
  omega

end Date

/-- A span in order gets no longer by a shift. -/
theorem Span.length_shift_le {start due : Date} (h : start ≤ due) (n placeholder : Int) :
    ((Span.mk (some start) (some due)).shift n).length placeholder ≤
      (Span.mk (some start) (some due)).length placeholder := by
  have hdays := Date.natAbs_daysUntil_addDays_le start due n
  have hle : 0 ≤ start.daysUntil due := Int.sub_nonneg.mpr h
  simp only [shift, length, Option.map_some]
  omega

/-- **Adding days is exact up to the ends of the supported range.** The range is that of the days from
1 January of the year -262143 to 31 December of the year 262142, and the distance between two days is the
number of steps in the calendar. Any number of days, also one too large for a stretch of time, leads to the
day so far away, if there is one, else forwards to the last day and backwards to the first one. Hence days
keep their order and are not driven apart, and no span in order gets longer. The distance to another day
fits 64 bits and leads there; the distance to the day that is reached is what was added, unless an end
stood in the way. Days on one side may be added in parts. -/
theorem Date.addDays_exact :
    (first.civil = ⟨-262143, 1, 1⟩ ∧ last.civil = ⟨262142, 12, 31⟩ ∧
      ∀ (a b : Date) (n : Nat), a.daysUntil b = n → b.civil = Civil.next^[n] a.civil) ∧
    (∀ (d : Date) (n : Int), d.reach n = d.addDays n ∧
      (∀ e, d.daysUntil e = n → d.addDays n = e) ∧
      ((∀ e, d.daysUntil e ≠ n) → 0 < n ∧ d.addDays n = last ∨ n < 0 ∧ d.addDays n = first)) ∧
    (∀ (a b : Date) (m n : Int), a ≤ b → m ≤ n → a.addDays m ≤ b.addDays n) ∧
    (∀ (a b : Date) (n : Int),
      ((a.addDays n).daysUntil (b.addDays n)).natAbs ≤ (a.daysUntil b).natAbs ∧
      ∀ placeholder, a ≤ b → ((Span.mk (some a) (some b)).shift n).length placeholder ≤
        (Span.mk (some a) (some b)).length placeholder) ∧
    (∀ a b : Date, (a.stretchTo b).days = a.daysUntil b ∧ Text.fitsInt64 (a.daysUntil b) = true ∧
      a.addDays (a.daysUntil b) = b) ∧
    (∀ (d : Date) (n : Int), (∃ e, d.daysUntil e = n) → d.daysUntil (d.addDays n) = n) ∧
    ∀ (d : Date) (m n : Int), 0 ≤ m ∧ 0 ≤ n ∨ m ≤ 0 ∧ n ≤ 0 →
      (d.addDays m).addDays n = d.addDays (m + n) := by
  have hrange : first.civil = ⟨-262143, 1, 1⟩ ∧ last.civil = ⟨262142, 12, 31⟩ := by decide
  refine ⟨⟨hrange.1, hrange.2, fun _ _ _ => civil_eq_iterate_next⟩,
    fun d n => ⟨reach_eq_addDays d n, fun _ => addDays_of_daysUntil, fun hnone => ?_⟩,
    fun _ _ _ _ => addDays_mono,
    fun a b n => ⟨natAbs_daysUntil_addDays_le a b n, fun p hle => Span.length_shift_le hle n p⟩,
    fun a b => ⟨days_stretchTo a b, fitsInt64_daysUntil a b, addDays_daysUntil a b⟩,
    fun _ _ ⟨_, he⟩ => daysUntil_addDays he, fun d _ _ hside => addDays_addDays hside d⟩
  rw [addDays_of_forall_ne hnone]
  rcases Int.lt_or_gt_of_ne (ne_zero_of_forall_ne hnone) with hback | hon
  · exact Or.inr ⟨hback, if_pos hback⟩
  · exact Or.inl ⟨hon, if_neg (by omega)⟩

/-! ## The eve of a leap day -/

/-- 28 February 2024. -/
def leapDayEve : Date := Date.clamp 739309

/-- 28 February 2028. -/
def nextLeapDayEve : Date := Date.clamp 740770

theorem addDays_leapDayEve :
    (leapDayEve.daysUntil nextLeapDayEve = (1461 : Nat) ∧
        Date.Civil.next^[1461] ⟨2024, 2, 28⟩ = ⟨2028, 2, 28⟩ ∧
        leapDayEve.addDays 1461 = nextLeapDayEve ∧
        leapDayEve.daysUntil (leapDayEve.addDays 1461) = 1461) ∧
      ((∀ e, leapDayEve.daysUntil e ≠ 9223372036854775807) ∧
        leapDayEve.reach 9223372036854775807 = Date.last) ∧
      ((∀ e, leapDayEve.daysUntil e ≠ -9223372036854775808) ∧
        leapDayEve.reach (-9223372036854775808) = Date.first) ∧
      (leapDayEve ≤ nextLeapDayEve ∧ (-9223372036854775808 : Int) ≤ 9223372036854775807 ∧
        leapDayEve.addDays (-9223372036854775808) ≤ nextLeapDayEve.addDays 9223372036854775807 ∧
        ((Span.mk (some leapDayEve) (some nextLeapDayEve)).shift 9223372036854775807).length 0 ≤ 1462) ∧
      ((0 : Int) ≤ 9223372036854775806 ∧ (0 : Int) ≤ 1 ∧
        (leapDayEve.addDays 9223372036854775806).addDays 1 =
          leapDayEve.addDays 9223372036854775807) := by
  have hdays : leapDayEve.daysUntil nextLeapDayEve = (1461 : Nat) := by decide
  have heve : leapDayEve.civil = ⟨2024, 2, 28⟩ := by decide
  have hnextEve : nextLeapDayEve.civil = ⟨2028, 2, 28⟩ := by decide
  have hle : leapDayEve ≤ nextLeapDayEve := by decide
  have hfar : ∀ n : Int, 2 * lastDay < n.natAbs → ∀ e, leapDayEve.daysUntil e ≠ n := by
    rintro _ hn e rfl
    exact absurd (leapDayEve.natAbs_daysUntil_le e) (Int.not_le.mpr hn)
  have hon := hfar 9223372036854775807 (by decide)
  have hback := hfar (-9223372036854775808) (by decide)
  obtain ⟨⟨_, _, hsteps⟩, hexact, hmono, hapart, _, hdistance, hparts⟩ := Date.addDays_exact
  obtain ⟨hreachOn, _, hlast⟩ := hexact leapDayEve 9223372036854775807
  obtain ⟨hreachBack, _, hfirst⟩ := hexact leapDayEve (-9223372036854775808)
  have hcalendar := hsteps _ _ _ hdays
  rw [heve, hnextEve] at hcalendar
  refine ⟨⟨hdays, hcalendar.symm, (hexact _ _).2.1 _ hdays, hdistance _ _ ⟨_, hdays⟩⟩,
    ⟨hon, hreachOn.trans ?_⟩, ⟨hback, hreachBack.trans ?_⟩,
    ⟨hle, by decide, hmono _ _ _ _ hle (by decide), (hapart _ _ _).2 0 hle⟩,
    by decide, by decide, hparts _ _ _ (Or.inl (by decide))⟩
  · exact (hlast hon).elim And.right fun h => absurd h.1 (by decide)
  · exact (hfirst hback).elim (fun h => absurd h.1 (by decide)) And.right

end WorkPlan
