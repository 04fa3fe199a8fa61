import WorkPlan.Proofs.FinalDays
import WorkPlan.Proofs.SpansInOrder

/-! # Spans ordered by containment

Containment is an order on spans in which the hull is the least span around the given ones
(`contains_hull_iff`): two lists with the same spans around them have one hull, whatever their order, repeats
and grouping. Keeping a span behind a bound changes no end that is missing, puts the ends in order, and is
done with at once (`notBefore_notBefore`). -/

namespace WorkPlan

theorem Date.earlierOf_eq_or (a b : Option Date) :
    Date.earlierOf a b = a ∨ Date.earlierOf a b = b := by
  cases a with
  | none => exact Or.inr rfl
  | some a =>
    cases b with
    | none => exact Or.inl rfl
    | some b =>
      rcases Int.le_total a.day b.day with hab | hba
      · exact Or.inl (congrArg some (Date.ext (by rw [Date.day_min, Int.min_eq_left hab])))
      · exact Or.inr (congrArg some (Date.ext (by rw [Date.day_min, Int.min_eq_right hba])))

/-- Two optional days are equal if each of them is set where the other one is, and lies on one side of it. -/
theorem Date.eq_of_mutual {r : Date → Date → Prop} (hr : ∀ a b, r a b → r b a → a = b)
    {a b : Option Date} (hab : ∀ d, b = some d → ∃ d', a = some d' ∧ r d' d)
    (hba : ∀ d, a = some d → ∃ d', b = some d' ∧ r d' d) : a = b := by
  cases a with
  | none =>
    cases b with
    | none => rfl
    | some b =>
      obtain ⟨_, hnone, _⟩ := hab b rfl
      cases hnone
  | some a =>
    obtain ⟨b, rfl, hle⟩ := hba a rfl
    obtain ⟨a', ha, hle'⟩ := hab b rfl
    obtain rfl : a = a' := Option.some.inj ha
    exact congrArg some (hr a b hle' hle)

namespace Span
variable {s t outer : Span} {l l' : List Span} {bound : Option Date} {start due : Date}

/-! ## The least span around some spans -/

instance decidableContains (outer inner : Span) : Decidable (outer.Contains inner) :=
  decidable_of_iff ((∀ d ∈ inner.start, ∃ d' ∈ outer.start, d' ≤ d) ∧
    ∀ d ∈ inner.due, ∃ d' ∈ outer.due, d ≤ d') ⟨fun h => ⟨h.1, h.2⟩, fun h => ⟨h.start, h.due⟩⟩

theorem contains_undated (s : Span) : s.Contains undated where
  start _ hd := by cases hd
  due _ hd := by cases hd

theorem Contains.antisymm (hst : s.Contains t) (hts : t.Contains s) : s = t :=
  Span.ext (Date.eq_of_mutual (fun _ _ => Date.le_antisymm) hst.start hts.start)
    (Date.eq_of_mutual (fun _ _ hab hba => Date.le_antisymm hba hab) hst.due hts.due)

theorem contains_join_iff : outer.Contains (s.join t) ↔ outer.Contains s ∧ outer.Contains t := by
  constructor
  · intro h
    exact ⟨h.trans (join_contains_left s t), h.trans (join_comm s t ▸ join_contains_left t s)⟩
  · rintro ⟨hs, ht⟩
    constructor
    case start =>
      intro d hd
      rcases Date.earlierOf_eq_or s.start t.start with he | he
      · exact hs.start d (he ▸ hd)
      · exact ht.start d (he ▸ hd)
    case due =>
      intro d hd
      rcases Date.laterOf_eq_or s.due t.due with he | he
      · exact hs.due d (he ▸ hd)
      · exact ht.due d (he ▸ hd)

theorem contains_hull_iff : outer.Contains (hull l) ↔ ∀ s ∈ l, outer.Contains s := by
  induction l with
  | nil => exact iff_of_true (contains_undated outer) (List.forall_mem_nil _)
  | cons s rest ih => rw [hull_cons, contains_join_iff, ih, List.forall_mem_cons]

/-- The hull is told by which spans are listed. -/
theorem hull_congr (h : ∀ s, s ∈ l ↔ s ∈ l') : hull l = hull l' :=
  Contains.antisymm (contains_hull_iff.mpr fun s hs => hull_contains ((h s).mpr hs))
    (contains_hull_iff.mpr fun s hs => hull_contains ((h s).mp hs))

theorem hull_map_hull (groups : List (List Span)) : hull (groups.map hull) = hull groups.flatten := by
  induction groups with
  | nil => rfl
  | cons l rest ih => rw [List.map_cons, hull_cons, ih, List.flatten_cons, hull_append]

/-! ## Spans kept behind a bound -/

theorem start_notBefore_of_some (hs : s.start = some start) :
    (s.notBefore bound).start = Date.laterOf s.start bound := by
  simp only [notBefore, hs, Option.map_some]
  cases bound <;> rfl

theorem due_notBefore_of_some (hs : s.due = some due) :
    (s.notBefore bound).due = Date.laterOf s.due (s.notBefore bound).start := by
  simp only [notBefore, hs, Option.map_some]
  cases s.start.map fun start => bound.elim start (max start) with
  | none => rfl
  | some a => exact congrArg some (Date.ext (by simp only [Option.elim_some, Date.day_max, Int.max_comm]))

theorem notBefore_notBefore (s : Span) (bound : Option Date) :
    (s.notBefore bound).notBefore bound = s.notBefore bound := by
  have h := notBefore_join_notBefore s undated bound
  simpa only [join_comm _ undated, undated_join] using h

/-- **The hull is the least span around the given ones, and a span kept behind a bound stays there.** Which
spans are listed decides the hull, and neither their order nor their repeats do; hulls of groups have the hull
of all. A span kept behind a bound sets the ends that it set before. It starts at the later of its start and
the bound, is due at the later of its due day and this start, and is in order; to keep it behind the bound
once more changes nothing. -/
theorem hull_notBefore_laws :
    (∀ l : List Span, (∀ s ∈ l, (hull l).Contains s) ∧
      ∀ outer : Span, (∀ s ∈ l, outer.Contains s) → outer.Contains (hull l)) ∧
    (∀ l l' : List Span, (∀ s, s ∈ l ↔ s ∈ l') → hull l = hull l') ∧
    (∀ groups : List (List Span), hull (groups.map hull) = hull groups.flatten) ∧
    ∀ (s : Span) (bound : Option Date),
      ((s.notBefore bound).start.isSome = s.start.isSome ∧
        (s.notBefore bound).due.isSome = s.due.isSome) ∧
      (s.start.isSome = true → (s.notBefore bound).start = Date.laterOf s.start bound) ∧
      (s.due.isSome = true →
        (s.notBefore bound).due = Date.laterOf s.due (s.notBefore bound).start) ∧
      (s.notBefore bound).InOrder ∧
      (s.notBefore bound).notBefore bound = s.notBefore bound := by
  refine ⟨fun l => ⟨fun s hs => hull_contains hs, fun outer => contains_hull_iff.mpr⟩,
    fun _ _ => hull_congr, hull_map_hull, fun s bound => ⟨⟨Option.isSome_map, Option.isSome_map⟩,
      fun hs => ?_, fun hs => ?_, inOrder_notBefore s bound, notBefore_notBefore s bound⟩⟩
  · obtain ⟨start, hstart⟩ := Option.isSome_iff_exists.mp hs
    exact start_notBefore_of_some hstart
  · obtain ⟨due, hdue⟩ := Option.isSome_iff_exists.mp hs
    exact due_notBefore_of_some hdue

end Span

/-! ## Three trades -/

/-- The days of three trades: one without a due day, one without a start, and one with both. -/
def tradeSpans : List Span :=
  [⟨Date.ofDay? 6, none⟩, ⟨none, Date.ofDay? 9⟩, ⟨Date.ofDay? 3, Date.ofDay? 4⟩]

theorem hull_tradeSpans :
    (∀ s ∈ tradeSpans, (Span.hull tradeSpans).Contains s) ∧
      (∀ s ∈ tradeSpans, (Span.mk (Date.ofDay? 1) (Date.ofDay? 9)).Contains s) ∧
      (Span.mk (Date.ofDay? 1) (Date.ofDay? 9)).Contains (Span.hull tradeSpans) ∧
      (∀ s, s ∈ tradeSpans ++ tradeSpans.reverse ↔ s ∈ tradeSpans) ∧
      Span.hull (tradeSpans ++ tradeSpans.reverse) = ⟨Date.ofDay? 3, Date.ofDay? 9⟩ ∧
      Span.hull [Span.hull (tradeSpans.take 1), Span.hull (tradeSpans.drop 1)] =
        ⟨Date.ofDay? 3, Date.ofDay? 9⟩ ∧
      (Span.hull tradeSpans).start.isSome = true ∧ (Span.hull tradeSpans).due.isSome = true ∧
      ((Span.hull tradeSpans).notBefore (Date.ofDay? 12)).start = Date.ofDay? 12 ∧
      ((Span.hull tradeSpans).notBefore (Date.ofDay? 12)).due = Date.ofDay? 12 := by
  have hhull : Span.hull tradeSpans = ⟨Date.ofDay? 3, Date.ofDay? 9⟩ := by decide
  have houter : ∀ s ∈ tradeSpans, (Span.mk (Date.ofDay? 1) (Date.ofDay? 9)).Contains s := by decide
  have hsame : ∀ s, s ∈ tradeSpans ++ tradeSpans.reverse ↔ s ∈ tradeSpans := by simp
  have hstart : (Span.hull tradeSpans).start.isSome = true := by decide
  have hdue : (Span.hull tradeSpans).due.isSome = true := by decide
  obtain ⟨hleast, hcongr, hgroups, hbehind⟩ := Span.hull_notBefore_laws
  obtain ⟨hcontains, hcontained⟩ := hleast tradeSpans
  obtain ⟨_, hlater, hlaterDue, _⟩ := hbehind (Span.hull tradeSpans) (Date.ofDay? 12)
  refine ⟨hcontains, houter, hcontained _ houter, hsame, (hcongr _ _ hsame).trans hhull,
    (hgroups [_, _]).trans hhull, hstart, hdue, (hlater hstart).trans (by decide), ?_⟩
  rw [hlaterDue hdue, hlater hstart]
  decide

end WorkPlan
