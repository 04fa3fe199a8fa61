import WorkPlan.Date.Basic

/-!
Stretches of time, forwards and backwards. A stretch has as many milliseconds as a signed number of 64 bits
can tell: more days than the supported range, but fewer than such a number can tell of them. So two things
can go wrong on the way to the day that lies a number of days away: the days may be too many for a stretch,
and the stretch may lead out of the range. `Date.reach` does not ask which of them it was and stops at the
end of the range on that side. Nothing goes wrong exactly if there is a day so far away
(`bind_after?_eq_some_iff`).
-/

namespace WorkPlan

def dayMillis : Int := 86400000

/-- The milliseconds of the longest stretch forwards; backwards it is as long. -/
def longestMillis : Int := 9223372036854775807

/-- A stretch of time; one that leads backwards is negative. -/
@[ext] structure Stretch where
  millis : Int
  neg_longest_le : -longestMillis ≤ millis
  le_longest : millis ≤ longestMillis
deriving DecidableEq

namespace Stretch
variable {s : Stretch} {n : Int}

def ofDays? (n : Int) : Option Stretch :=
  if h : -longestMillis ≤ n * dayMillis ∧ n * dayMillis ≤ longestMillis then
    some ⟨n * dayMillis, h.1, h.2⟩
  else none

def days (s : Stretch) : Int := s.millis.tdiv dayMillis

theorem ofDays?_eq_some_iff : ofDays? n = some s ↔ s.millis = n * dayMillis := by
  constructor
  · intro h
    obtain ⟨_, hs⟩ := Option.dite_none_right_eq_some.mp h
    exact congrArg millis (Option.some.inj hs).symm
  · intro h
    have hfits := h ▸ And.intro s.neg_longest_le s.le_longest
    exact (dif_pos hfits).trans (congrArg some (Stretch.ext h.symm))

theorem days_eq (h : s.millis = n * dayMillis) : s.days = n := by
  rw [days, h, Int.mul_tdiv_cancel n (by decide)]

end Stretch

namespace Date

/-- The day at the end of a stretch, if it is supported. -/
def after? (d : Date) (s : Stretch) : Option Date := ofDay? (d.day + s.days)

def stretchTo (a b : Date) : Stretch where
  millis := a.daysUntil b * dayMillis
  neg_longest_le := by
    have h := natAbs_daysUntil_le a b
    simp only [dayMillis, longestMillis, lastDay] at h ⊢
    omega
  le_longest := by
    have h := natAbs_daysUntil_le a b
    simp only [dayMillis, longestMillis, lastDay] at h ⊢
    omega

/-- The day at the end of a stretch of `n` days, or the end of the range on that side if there is no such
stretch or no such day. -/
def reach (d : Date) (n : Int) : Date :=
  ((Stretch.ofDays? n).bind d.after?).getD (if n < 0 then first else last)

theorem days_stretchTo (a b : Date) : (a.stretchTo b).days = a.daysUntil b := Stretch.days_eq rfl

theorem bind_after?_eq_some_iff {d e : Date} {n : Int} :
    (Stretch.ofDays? n).bind d.after? = some e ↔ d.daysUntil e = n := by
  constructor
  · intro h
    obtain ⟨s, hs, he⟩ := Option.bind_eq_some_iff.mp h
    rw [after?, Stretch.days_eq (Stretch.ofDays?_eq_some_iff.mp hs), ofDay?_eq_some_iff] at he
    rw [daysUntil]
    omega
  · rintro rfl
    have hday : d.day + d.daysUntil e = e.day := by
      rw [daysUntil]
      omega
    have hs : Stretch.ofDays? (d.daysUntil e) = some (d.stretchTo e) :=
      Stretch.ofDays?_eq_some_iff.mpr rfl
    rw [hs, Option.bind_some, after?, days_stretchTo, hday, ofDay?_day]

end Date

end WorkPlan
