import WorkPlan.Date.Basic

/-!
Spans of days. Both ends are optional and the last day belongs to the span, so an item that starts
and is due on one day lasts one day. Three operations move spans in a pass: `Span.hull` gathers the
spans of the children of an item, `Span.notBefore` keeps such a hull behind a bound, and
`Span.yieldTo` moves the span of an item without children behind a bound.
-/

namespace WorkPlan

/-- The days of an item: its first day and its last day, each optional. -/
@[ext] structure Span where
  start : Option Date
  due : Option Date
deriving DecidableEq

namespace Span

def undated : Span := ⟨none, none⟩

def isUndated (s : Span) : Bool := s.start.isNone && s.due.isNone

/-- The number of days from the first to the last one, both counted; `placeholder` if an end is
missing. -/
def length (s : Span) (placeholder : Int) : Int :=
  match s.start, s.due with
  | some start, some due => start.daysUntil due + 1
  | _, _ => placeholder

/-- Moves every end that is present by a number of days. -/
def shift (s : Span) (n : Int) : Span := ⟨s.start.map (·.addDays n), s.due.map (·.addDays n)⟩

/-- The tightest span around two spans; an end that neither sets stays missing. -/
def join (s t : Span) : Span := ⟨Date.earlierOf s.start t.start, Date.laterOf s.due t.due⟩

/-- The tightest span around any number of spans. -/
def hull (spans : List Span) : Span := spans.foldl join undated

/-- A span kept behind a bound: a start is raised to the bound, and a due day that would precede the
raised start is raised to it too. A missing end stays missing. -/
def notBefore (s : Span) (bound : Option Date) : Span :=
  let start := s.start.map fun start => bound.elim start (max start)
  { start
    due := s.due.map fun due => start.elim due (max · due) }

/-- The days between two spans of one item: between the due days if both are set, else between the
starts if both are set, else zero. -/
def driftTo (before after : Span) : Int :=
  match before.due, after.due with
  | some old, some new => old.daysUntil new
  | _, _ =>
    match before.start, after.start with
    | some old, some new => old.daysUntil new
    | _, _ => 0

/-- The span of an item without children that must not start before a bound and may be pulled to an
earlier day by as many days as a negative `pull` says. Without a bound it stays. Without a start it
starts at the bound, and a due day before that is raised to it. Otherwise both ends move by the same
number of days: as far as the pull goes, but not past the bound. -/
def yieldTo (s : Span) (bound : Option Date) (pull : Int) : Span :=
  match bound, s.start with
  | none, _ => s
  | some bound, none => ⟨some bound, s.due.map (max · bound)⟩
  | some bound, some start => s.shift (max (start.daysUntil bound) (min pull 0))

end Span

end WorkPlan
