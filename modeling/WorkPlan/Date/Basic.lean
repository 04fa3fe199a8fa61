/-!
Calendar days. A day is its number, counted from 1 January of the year 0 and kept inside the
supported range, which is the same distance on both sides. Adding days stops at the ends of the
range, so day arithmetic never fails: `day_addDays` says what it yields, and `addDays_daysUntil`
that the distance to another day leads there.
-/

namespace WorkPlan

/-- The number of the last supported day; the first one is its negative. -/
def lastDay : Int := 95745764

/-- A calendar day of the supported range, counted from 1 January of the year 0. -/
@[ext] structure Date where
  day : Int
  first_le : -lastDay ≤ day
  le_last : day ≤ lastDay
deriving DecidableEq

namespace Date

instance : LE Date := ⟨fun a b => a.day ≤ b.day⟩
instance : LT Date := ⟨fun a b => a.day < b.day⟩
instance (a b : Date) : Decidable (a ≤ b) := inferInstanceAs (Decidable (a.day ≤ b.day))
instance (a b : Date) : Decidable (a < b) := inferInstanceAs (Decidable (a.day < b.day))
instance : Max Date := maxOfLe
instance : Min Date := minOfLe

theorem le_iff {a b : Date} : a ≤ b ↔ a.day ≤ b.day := Iff.rfl

theorem lt_iff {a b : Date} : a < b ↔ a.day < b.day := Iff.rfl

@[simp] theorem day_max (a b : Date) : (max a b).day = max a.day b.day := by
  show (if a ≤ b then b else a).day = _
  split <;> rename_i h <;> rw [le_iff] at h <;> omega

@[simp] theorem day_min (a b : Date) : (min a b).day = min a.day b.day := by
  show (if a ≤ b then a else b).day = _
  split <;> rename_i h <;> rw [le_iff] at h <;> omega

/-- The supported day nearest to a day number. -/
def clamp (n : Int) : Date where
  day := max (-lastDay) (min n lastDay)
  first_le := by omega
  le_last := by unfold lastDay; omega

def ofDay? (n : Int) : Option Date :=
  if h : -lastDay ≤ n ∧ n ≤ lastDay then some ⟨n, h.1, h.2⟩ else none

theorem ofDay?_day (d : Date) : ofDay? d.day = some d := by
  simp [ofDay?, d.first_le, d.le_last]

theorem ofDay?_eq_some_iff {n : Int} {d : Date} : ofDay? n = some d ↔ d.day = n := by
  constructor
  · intro h
    obtain ⟨_, hd⟩ := Option.dite_none_right_eq_some.mp h
    exact congrArg day (Option.some.inj hd).symm
  · rintro rfl
    exact ofDay?_day d

def first : Date := clamp (-lastDay)

def last : Date := clamp lastDay

/-- The day `n` days later, or the end of the range that lies on the way. -/
def addDays (d : Date) (n : Int) : Date := clamp (d.day + n)

def daysUntil (a b : Date) : Int := b.day - a.day

theorem day_addDays (d : Date) (n : Int) :
    (d.addDays n).day = max (-lastDay) (min (d.day + n) lastDay) := rfl

theorem addDays_daysUntil (a b : Date) : a.addDays (a.daysUntil b) = b := by
  have h₁ := b.first_le
  have h₂ := b.le_last
  ext
  rw [day_addDays, daysUntil]
  omega

theorem addDays_of_daysUntil {d e : Date} {n : Int} (h : d.daysUntil e = n) : d.addDays n = e :=
  h ▸ addDays_daysUntil d e

theorem natAbs_daysUntil_le (a b : Date) : ((a.daysUntil b).natAbs : Int) ≤ 2 * lastDay := by
  have ha₁ := a.first_le
  have ha₂ := a.le_last
  have hb₁ := b.first_le
  have hb₂ := b.le_last
  rw [daysUntil]
  omega

/-- The later of two optional days; a missing one never wins. -/
def laterOf : Option Date → Option Date → Option Date
  | some a, some b => some (max a b)
  | some a, none => some a
  | none, b => b

/-- The earlier of two optional days; a missing one never wins. -/
def earlierOf : Option Date → Option Date → Option Date
  | some a, some b => some (min a b)
  | some a, none => some a
  | none, b => b

end Date

end WorkPlan
