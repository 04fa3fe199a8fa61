import WorkPlan.Proofs.Monotone
import WorkPlan.Proofs.Precedence

/-! # How items without children move

A pass computes the days of an item without children from days that are not all final yet. Still, what it
lists for such an item follows one law in terms of the committed network (`Span.LeafMove`): an item without
a start is placed at its soonest start, and any other one moves as a whole, to a later day just as far as
its soonest start, and to an earlier day no further than that and no further than some predecessor moved
(`leafMove_of_commit`). So an item that has time to spare stays where it is unless a predecessor moves to an
earlier day. -/

namespace WorkPlan

/-- How a start moves if the item may start on `soonest` and its predecessors have moved by so many
days. -/
structure Date.StartMove (start start' soonest : Date) (policy : PullPolicy) (moves : List Int) :
    Prop where
  ne : start' ≠ start
  later : start < start' → start' = soonest
  sooner : start' < start → policy = .follow ∧ soonest ≤ start' ∧
    ∃ n ∈ moves, n ≤ start.daysUntil start'

/-- How the days of an item without children move if it may start on `soonest` and its predecessors have
moved by so many days. Its length stays unless the due day would leave the supported range. -/
structure Span.LeafMove (before after : Span) (soonest : Date) (policy : PullPolicy) (moves : List Int) :
    Prop where
  placed : before.start = none →
    after.start = some soonest ∧ after.due = before.due.map (max · soonest)
  moved : ∀ start, before.start = some start → ∃ start', after.start = some start' ∧
    start.StartMove start' soonest policy moves ∧
    after.due = before.due.map (·.addDays (start.daysUntil start')) ∧
    ((∀ due, before.due = some due → -lastDay ≤ due.day + start.daysUntil start' ∧
        due.day + start.daysUntil start' ≤ lastDay) →
      ∀ placeholder, after.length placeholder = before.length placeholder)

/-- A start with time to spare moves only if a predecessor has moved to an earlier day. -/
theorem Date.StartMove.exists_neg {start start' soonest : Date} {policy : PullPolicy} {moves : List Int}
    (h : start.StartMove start' soonest policy moves) (hspare : soonest ≤ start) :
    ∃ n ∈ moves, n < 0 := by
  rw [le_iff] at hspare
  have hne : start'.day ≠ start.day := fun he => h.ne (Date.ext he)
  have hnotLater : ¬ start < start' := by
    intro hlater
    have hsoonest := h.later hlater
    rw [hsoonest, lt_iff] at hlater
    omega
  have hsooner : start' < start := by
    rw [lt_iff] at hnotLater ⊢
    omega
  obtain ⟨_, _, n, hn, hle⟩ := h.sooner hsooner
  rw [lt_iff] at hsooner
  rw [daysUntil] at hle
  exact ⟨n, hn, by omega⟩

namespace Span
variable {s : Span} {start b : Date}

theorem length_shift {start' : Date} (hs : s.start = some start)
    (hdue : ∀ due, s.due = some due → -lastDay ≤ due.day + start.daysUntil start' ∧
      due.day + start.daysUntil start' ≤ lastDay) (placeholder : Int) :
    (s.shift (start.daysUntil start')).length placeholder = s.length placeholder := by
  obtain ⟨first, due⟩ := s
  obtain rfl : first = some start := hs
  cases due with
  | none => rfl
  | some due =>
    have hrange := hdue due rfl
    simp only [length, shift, Option.map_some, Date.addDays_daysUntil]
    rw [Date.daysUntil, Date.day_addDays, Date.daysUntil]
    rw [Date.daysUntil] at hrange ⊢
    omega

/-- A yielding span moves as a whole, and its start ends up exactly so many days away. -/
theorem exists_yieldTo_eq_shift_daysUntil (hs : s.start = some start) (b : Date) (pull : Int) :
    ∃ start', start.daysUntil start' = max (start.daysUntil b) (min pull 0) ∧
      s.yieldTo (some b) pull = s.shift (start.daysUntil start') := by
  have hdays : start.daysUntil (start.addDays (max (start.daysUntil b) (min pull 0))) =
      max (start.daysUntil b) (min pull 0) := by
    have hfirst := b.first_le
    have hlast := b.le_last
    have hlast' := start.le_last
    rw [Date.daysUntil, Date.daysUntil, Date.day_addDays]
    omega
  exact ⟨_, hdays, by rw [hdays, yieldTo_of_start hs]⟩

/-- **How a span without children moves when it yields.** -/
theorem leafMove_yieldTo {policy : PullPolicy} {moves : List Int}
    (hne : s.yieldTo (some b) (policy.pull moves) ≠ s) :
    s.LeafMove (s.yieldTo (some b) (policy.pull moves)) b policy moves := by
  constructor
  case placed =>
    intro hs
    simp [yieldTo, hs]
  case moved =>
    intro start hs
    obtain ⟨start', hdays, hshift⟩ :=
      exists_yieldTo_eq_shift_daysUntil hs b (policy.pull moves)
    rw [hshift] at hne ⊢
    refine ⟨start', by simp [shift, hs, Date.addDays_daysUntil], ?_, rfl,
      fun hdue => length_shift hs hdue⟩
    constructor
    case ne =>
      intro he
      have hzero : start.daysUntil start' = 0 := by rw [he, Date.daysUntil, Int.sub_self]
      exact hne (by rw [hzero, shift_zero])
    case later =>
      intro hlater
      ext
      rw [Date.lt_iff] at hlater
      simp only [Date.daysUntil] at hdays
      omega
    case sooner =>
      intro hsooner
      rw [Date.lt_iff] at hsooner
      have hneg : start.daysUntil start' < 0 := by
        rw [Date.daysUntil]
        omega
      have hpull : policy.pull moves < 0 := by omega
      obtain ⟨hfollow, n, hn, hle⟩ := PullPolicy.exists_le_pull hpull
      refine ⟨hfollow, ?_, n, hn, by omega⟩
      rw [Date.le_iff]
      simp only [Date.daysUntil] at hdays
      omega

end Span

/-! ## Committed days -/

namespace Network
variable {net after : Network} {settings : Settings} {e : Edit} {o : Outcome} {x : ItemId}

/-- What an outcome lists for an item other than the root is what the commit makes of its stored days. -/
theorem exists_pass_of_change (h : net.commit settings e = .ok (after, o)) (hx : x ≠ e.id) {slot : Slot}
    (hslot : o.changes[x]? = some slot) : ∃ p former before span, p.before = net ∧
      Pass.Ready p former ∧ p.CarriedOut settings.policy after ∧ x ∈ p.agenda.order ∧
      net.span? x = some before ∧ after.span? x = some span ∧ span ≠ before ∧
      slot = Slot.ofSpan span settings.placeholder := by
  cases ht : e.touched.isEmpty with
  | true =>
    obtain ⟨_, _, hreflow, _⟩ := commit_eq_ok.mp h
    obtain ⟨_, _, rfl⟩ := reflow_eq_ok.mp hreflow
    simp [ht] at hslot
  | false =>
    obtain ⟨p, _, rfl, hroot, ⟨former, hp⟩, rfl, hc⟩ := Pass.carriedOut_of_commit h ht
    rw [Pass.changes_outcome, Pass.changes_eq_some] at hslot
    obtain ⟨before, span, href, hsettled, hne, hslot⟩ := hslot
    rw [← hroot] at hx
    rw [Pass.reference?, if_neg hx] at href
    have hspan : after.span? x = some span := (hc.span x).trans (Settled.span?_of_settled hsettled)
    have ho : x ∈ p.agenda.order := by
      by_contra ho
      rw [Pass.Ready.settled_of_not_mem_order hx ho] at hsettled
      cases hsettled
    exact ⟨p, former, before, span, rfl, hp, hc, ho, href, hspan, hne, hslot⟩

theorem exists_leafMove (h : net.commit settings e = .ok (after, o)) (hx : x ≠ e.id)
    (hleaf : after.hasChildren x = false) (hself : ∀ l ∈ after.bindingLinks x, l.predecessor ≠ x)
    {slot : Slot} (hslot : o.changes[x]? = some slot) : ∃ before soonest,
      net.span? x = some before ∧ after.soonestStart x = some soonest ∧
      slot.length = slot.span.length settings.placeholder ∧
      before.LeafMove slot.span soonest settings.policy
        ((after.bindingLinks x).map fun l => net.driftTo after.span? l.predecessor) := by
  obtain ⟨p, former, before, span, rfl, hp, hc, ho, hbefore, hspan, hne, rfl⟩ :=
    exists_pass_of_change h hx hslot
  have hr : p.agenda.roles[x]? = some .follower := by
    by_contra hr
    have hstill := hc.span?_of_not_follower hp ho hleaf hr
    rw [hspan, hbefore] at hstill
    exact hne (Option.some.inj hstill)
  obtain ⟨stored, hstored, hdays⟩ := hc.span?_follower hp ho hself hleaf hr
  obtain rfl : before = stored := Option.some.inj (hbefore.symm.trans hstored)
  obtain rfl := Option.some.inj (hspan.symm.trans hdays)
  cases hsoonest : after.soonestStart x with
  | none =>
    rw [hsoonest] at hne
    exact absurd rfl hne
  | some soonest =>
    rw [hsoonest] at hne
    exact ⟨before, soonest, hbefore, rfl, rfl, Span.leafMove_yieldTo hne⟩

/-- **How items without children move.** What a commit lists for one follows the law, in terms of the bound
and the predecessors that the item has afterwards, and one with time to spare is not listed unless a
predecessor has moved to an earlier day. -/
theorem leafMove_of_commit (h : net.commit settings e = .ok (after, o)) (hx : x ≠ e.id)
    (hleaf : after.hasChildren x = false)
    (hself : ∀ l ∈ after.bindingLinks x, l.predecessor ≠ x) :
    let moves := (after.bindingLinks x).map fun l => net.driftTo after.span? l.predecessor
    (∀ slot, o.changes[x]? = some slot → ∃ before soonest, net.span? x = some before ∧
      after.soonestStart x = some soonest ∧ slot.length = slot.span.length settings.placeholder ∧
      before.LeafMove slot.span soonest settings.policy moves) ∧
    (∀ before start, net.span? x = some before → before.start = some start →
      Date.Within (after.soonestStart x) (some start) → (∀ n ∈ moves, 0 ≤ n) →
      o.changes[x]? = none) := by
  intro moves
  refine ⟨fun slot => exists_leafMove h hx hleaf hself, ?_⟩
  intro before start hbefore hstart hspare hmoves
  by_contra hlisted
  obtain ⟨slot, hslot⟩ := Option.ne_none_iff_exists'.mp hlisted
  obtain ⟨before', soonest, hbefore', hsoonest, _, hmove⟩ := exists_leafMove h hx hleaf hself hslot
  obtain rfl : before = before' := Option.some.inj (hbefore.symm.trans hbefore')
  obtain ⟨start', _, hstartMove, _⟩ := hmove.moved start hstart
  rw [hsoonest] at hspare
  obtain ⟨n, hn, hneg⟩ := hstartMove.exists_neg hspare
  exact absurd (hmoves n hn) (by omega)

end Network

/-- The pour pulls framing along by two days, and does not touch it where it has time to spare. -/
theorem leafMove_frame :
    (pourAndFrame 4 8).commit {} (pourOn 2) = .ok (pourAndFrame 2 6, framedOn 6 (-2)) ∧
      ⟨"frame"⟩ ≠ (pourOn 2).id ∧ (pourAndFrame 2 6).hasChildren ⟨"frame"⟩ = false ∧
      (∀ l ∈ (pourAndFrame 2 6).bindingLinks ⟨"frame"⟩, l.predecessor ≠ ⟨"frame"⟩) ∧
      (∃ before soonest, (pourAndFrame 4 8).span? ⟨"frame"⟩ = some before ∧
        (pourAndFrame 2 6).soonestStart ⟨"frame"⟩ = some soonest ∧
        before.LeafMove ⟨some (.clamp 6), some (.clamp 8)⟩ soonest .follow
          (((pourAndFrame 2 6).bindingLinks ⟨"frame"⟩).map fun l =>
            (pourAndFrame 4 8).driftTo (pourAndFrame 2 6).span? l.predecessor)) ∧
      ∃ o, (pourAndFrame 4 10).commit {} (pourOn 7) = .ok (pourAndFrame 7 10, o) ∧
        o.changes[ItemId.mk "frame"]? = none := by
  have hleaf : (pourAndFrame 2 6).hasChildren ⟨"frame"⟩ = false := by decide +kernel
  have hself : ∀ l ∈ (pourAndFrame 2 6).bindingLinks ⟨"frame"⟩, l.predecessor ≠ ⟨"frame"⟩ := by
    decide +kernel
  have hslot : (framedOn 6 (-2)).changes[ItemId.mk "frame"]? =
      some ⟨some (.clamp 6), some (.clamp 8), 3⟩ := by decide +kernel
  obtain ⟨before, soonest, hbefore, hsoonest, _, hmove⟩ :=
    (Network.leafMove_of_commit commit_pourOn_two (by decide) hleaf hself).1 _ hslot
  have hspare : (pourAndFrame 4 10).commit {} (pourOn 7) = .ok (pourAndFrame 7 10, { delta := 3 }) := by
    decide +kernel
  have hstays := (Network.leafMove_of_commit (x := ⟨"frame"⟩) hspare (by decide) (by decide +kernel)
    (by decide +kernel)).2 ⟨some (.clamp 10), some (.clamp 12)⟩ (.clamp 10) (by decide +kernel) rfl
    (by decide +kernel) (by decide +kernel)
  exact ⟨commit_pourOn_two, by decide, hleaf, hself, ⟨before, soonest, hbefore, hsoonest, hmove⟩,
    _, hspare, hstays⟩

end WorkPlan
