import WorkPlan.Proofs.LeafMoves
import WorkPlan.Audit

/-! # Spans that end before they start

No rule by which a pass computes days puts the due day of an item before its start. Keeping a hull behind a
bound raises the due day to the start, whatever the hull was gathered from (`Span.inOrder_notBefore`), and
an item without children has a span that was in order kept so, also at the ends of the supported range
(`Span.InOrder.yieldTo`). So in a plan without inverted days only the edit itself can invert any, and only
those of the root (`inOrder_of_commit`). -/

namespace WorkPlan

/-! ## Spans -/

namespace Span
variable {s : Span}

/-- Whether a span that sets both ends is due no earlier than it starts. -/
def InOrder (s : Span) : Prop := ∀ start ∈ s.start, ∀ due ∈ s.due, start ≤ due

instance decidableInOrder (s : Span) : Decidable s.InOrder :=
  inferInstanceAs (Decidable (∀ start ∈ s.start, ∀ due ∈ s.due, start ≤ due))

theorem inOrder_notBefore (s : Span) (bound : Option Date) : (s.notBefore bound).InOrder := by
  intro start hstart due hdue
  obtain ⟨d, _, rfl⟩ := Option.map_eq_some_iff.mp hdue
  simp only [notBefore, Option.mem_def] at hstart
  rw [hstart, Option.elim_some, Date.le_iff, Date.day_max]
  omega

theorem InOrder.shift (h : s.InOrder) (n : Int) : (s.shift n).InOrder := by
  intro start hstart due hdue
  obtain ⟨a, ha, rfl⟩ := Option.map_eq_some_iff.mp hstart
  obtain ⟨b, hb, rfl⟩ := Option.map_eq_some_iff.mp hdue
  exact Date.addDays_mono (h a ha b hb) (Int.le_refl n)

theorem InOrder.yieldTo (h : s.InOrder) (bound : Option Date) (pull : Int) :
    (s.yieldTo bound pull).InOrder := by
  cases bound with
  | none => exact h
  | some b =>
    cases hs : s.start with
    | some start =>
      rw [yieldTo_of_start hs]
      exact h.shift _
    | none =>
      simp only [Span.yieldTo, hs]
      intro start hstart due hdue
      obtain rfl : b = start := Option.some.inj hstart
      obtain ⟨d, _, rfl⟩ := Option.map_eq_some_iff.mp hdue
      rw [Date.le_iff, Date.day_max]
      omega

end Span

/-! ## Audits -/

namespace Network
variable {net after : Network} {x : ItemId}

theorem mem_itemFaults_invertedDates {item : Item} {start due : Date} :
    .invertedDates x start due ∈ net.itemFaults item ↔
      item.id = x ∧ item.start = some start ∧ item.due = some due ∧ due < start := by
  rw [itemFaults]
  cases item.start with
  | none => simp
  | some a =>
    cases item.due with
    | none => simp
    | some b =>
      simp only [List.mem_append, List.mem_ite_nil_right, List.mem_singleton, List.mem_map,
        Fault.invertedDates.injEq, Option.some.injEq, reduceCtorEq, and_false, exists_false, or_false]
      constructor
      · rintro ⟨hlt, rfl, rfl, rfl⟩
        exact ⟨rfl, rfl, rfl, hlt⟩
      · rintro ⟨rfl, rfl, rfl, hlt⟩
        exact ⟨hlt, rfl, rfl, rfl⟩

theorem invertedDates_not_mem_faultsOfLink {l : Link} {start due : Date} :
    .invertedDates x start due ∉ net.faultsOfLink l := by
  rw [faultsOfLink]
  split
  · simp
  · split <;> simp

/-- An audit reports the items whose spans are out of order, with the days at fault. -/
theorem mem_faults_invertedDates {start due : Date} : .invertedDates x start due ∈ net.faults ↔
    ∃ item, net.item? x = some item ∧ item.start = some start ∧ item.due = some due ∧
      due < start := by
  simp only [faults, List.mem_append, List.mem_flatMap, List.mem_map, reduceCtorEq, and_false,
    exists_false, or_false, invertedDates_not_mem_faultsOfLink, mem_itemFaults_invertedDates]
  exact exists_mem_itemList_iff

theorem not_inOrder_of_mem_faults {start due : Date} (h : .invertedDates x start due ∈ net.faults) :
    ∃ s, net.span? x = some s ∧ ¬ s.InOrder := by
  obtain ⟨item, hitem, hstart, hdue, hlt⟩ := mem_faults_invertedDates.mp h
  exact ⟨item.span, span?_of_item? hitem,
    fun hord => Int.not_le.mpr hlt (hord start hstart due hdue)⟩

end Network

/-! ## Committed spans -/

/-- A pass leaves an item in order that contains others, or that was in order before. -/
theorem Pass.CarriedOut.inOrder {p : Pass} {policy : PullPolicy} {after : Network}
    {former : Option ItemId} {x : ItemId} {span : Span} (hc : p.CarriedOut policy after)
    (hp : p.Ready former) (ho : x ∈ p.agenda.order) (hspan : after.span? x = some span)
    (h : after.hasChildren x = true ∨ ∀ before, p.before.span? x = some before → before.InOrder) :
    span.InOrder := by
  have hfinal := hc.finalDays hp
  cases hchildren : p.working.hasChildren x with
  | true =>
    rw [hfinal.parent x ho hchildren] at hspan
    exact Option.some.inj hspan ▸ Span.inOrder_notBefore _ _
  | false =>
    have hbefore : ∀ before, p.before.span? x = some before → before.InOrder := by
      rcases h with h | h
      · rw [hc.hasChildren, hchildren] at h
        cases h
      · exact h
    by_cases hr : p.agenda.roles[x]? = some .follower
    · obtain ⟨stored, hstored, hdays⟩ := hfinal.follower x ho hchildren hr
      rw [hdays] at hspan
      exact Option.some.inj hspan ▸ (hbefore stored hstored).yieldTo _ _
    · rw [hc.span?_of_not_follower hp ho (hc.hasChildren.trans hchildren) hr] at hspan
      exact hbefore span hspan

/-- **A pass inverts no item that it schedules**: what a commit lists for an item other than the root is in
order if the item contains others, or if its days were in order before. So if that holds of all days, the
root is the only item that an audit can report as inverted afterwards. -/
theorem Network.inOrder_of_commit {net after : Network} {settings : Settings} {e : Edit} {o : Outcome}
    (h : net.commit settings e = .ok (after, o)) :
    (∀ x slot, x ≠ e.id → o.changes[x]? = some slot →
      (after.hasChildren x = true ∨ ∀ before, net.span? x = some before → before.InOrder) →
        slot.span.InOrder) ∧
    ((∀ x ∈ net.itemList, x.span.InOrder) →
      ∀ x start due, .invertedDates x start due ∈ after.faults → x = e.id) := by
  have hlisted : ∀ x slot, x ≠ e.id → o.changes[x]? = some slot →
      (after.hasChildren x = true ∨ ∀ before, net.span? x = some before → before.InOrder) →
        slot.span.InOrder := by
    intro x slot hx hslot hor
    obtain ⟨p, former, before, span, rfl, hp, hc, ho, _, hspan, _, rfl⟩ :=
      exists_pass_of_change h hx hslot
    rw [Slot.span_ofSpan]
    exact hc.inOrder hp ho hspan hor
  refine ⟨hlisted, fun hnet x start due hfault => ?_⟩
  have hbefore : ∀ before, net.span? x = some before → before.InOrder :=
    forall_span?_iff.mpr hnet x
  by_contra hx
  obtain ⟨span, hspan, hinverted⟩ := not_inOrder_of_mem_faults hfault
  rw [span?_of_commit h, spanAfter?] at hspan
  cases hslot : o.changes[x]? with
  | some slot =>
    rw [hslot] at hspan
    exact hinverted (Option.some.inj hspan ▸ hlisted x slot hx hslot (Or.inr hbefore))
  | none =>
    simp only [hslot, if_neg hx] at hspan
    exact hinverted (hbefore span hspan)

/-! ## A root put in backwards -/

def pourBackwards : Edit :=
  (({ id := ⟨"pour"⟩ } : Edit).withStart (Date.ofDay? 12)).withDue (Date.ofDay? 9)

def backwardsPourPlan : Network := .ofLists
  [{ id := ⟨"frame"⟩, start := Date.ofDay? 10, due := Date.ofDay? 12, parent := some ⟨"shell"⟩ },
    { id := ⟨"pour"⟩, start := Date.ofDay? 12, due := Date.ofDay? 9 },
    { id := ⟨"shell"⟩, start := Date.ofDay? 10, due := Date.ofDay? 12 }]
  shellLinks

/-- Framing and the shell are in order, and the pour is what an audit finds. -/
theorem inOrder_backwardsPourPlan :
    shellPlan.commit {} pourBackwards = .ok (backwardsPourPlan, shellLater) ∧
      (∀ x ∈ shellPlan.itemList, x.span.InOrder) ∧
      backwardsPourPlan.hasChildren ⟨"shell"⟩ = true ∧
      backwardsPourPlan.hasChildren ⟨"frame"⟩ = false ∧
      (∀ x ∈ [ItemId.mk "frame", ItemId.mk "shell"], ∃ slot, shellLater.changes[x]? = some slot ∧
        slot.span.InOrder) ∧
      .invertedDates ⟨"pour"⟩ (.clamp 12) (.clamp 9) ∈ backwardsPourPlan.faults ∧
      ∀ x start due, .invertedDates x start due ∈ backwardsPourPlan.faults → x = ⟨"pour"⟩ := by
  have hcommit : shellPlan.commit {} pourBackwards = .ok (backwardsPourPlan, shellLater) := by
    decide +kernel
  have hbefore : ∀ x ∈ shellPlan.itemList, x.span.InOrder := by decide +kernel
  have hshell : backwardsPourPlan.hasChildren ⟨"shell"⟩ = true := by decide +kernel
  obtain ⟨hlisted, hreported⟩ := Network.inOrder_of_commit hcommit
  refine ⟨hcommit, hbefore, hshell, by decide +kernel, ?_, by decide +kernel, hreported hbefore⟩
  intro x hx
  obtain rfl | rfl : x = ⟨"frame"⟩ ∨ x = ⟨"shell"⟩ := by simpa using hx
  · have hslot : shellLater.changes[ItemId.mk "frame"]? =
        some ⟨some (.clamp 10), some (.clamp 12), 3⟩ := by decide +kernel
    have hstored : shellPlan.span? ⟨"frame"⟩ = some ⟨some (.clamp 6), some (.clamp 8)⟩ := by
      decide +kernel
    refine ⟨_, hslot, hlisted _ _ (by decide) hslot (Or.inr fun before hframe => ?_)⟩
    exact Option.some.inj (hstored.symm.trans hframe) ▸ by decide
  · have hslot : shellLater.changes[ItemId.mk "shell"]? =
        some ⟨some (.clamp 10), some (.clamp 12), 3⟩ := by decide +kernel
    exact ⟨_, hslot, hlisted _ _ (by decide) hslot (Or.inl hshell)⟩

end WorkPlan
