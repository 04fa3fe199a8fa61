import WorkPlan.Proofs.Dependence
import WorkPlan.Proofs.Monotone
import WorkPlan.Proofs.Precedence

/-! # Held items come as early as they can

If items are held where they are, a pass only ever moves them to later days. `Admissible` says which plans
come into question then: parents have the hull of their children, and every other ordered item is put off
by some number of days until it keeps its bound. Of these the pass finds the earliest
(`earliest_of_commit`): its own plan is one of them, and along the order no other one has an item on an
earlier day. An edit that touches no attribute starts no pass, and what it stores need not even be
admissible (`notEarliest_after_silent_pour`). -/

namespace WorkPlan

/-! ## Putting off -/

namespace Span
variable {s : Span} {a b bound : Option Date} {k : Int}

theorem exists_yieldTo_eq_shift (hs : s.start.isSome = true) (bound : Option Date) :
    ∃ k, 0 ≤ k ∧ s.yieldTo bound 0 = s.shift k := by
  obtain ⟨start, hstart⟩ := Option.isSome_iff_exists.mp hs
  cases bound with
  | none => exact ⟨0, Int.le_refl 0, (shift_zero s).symm⟩
  | some b => exact ⟨_, by omega, yieldTo_of_start hstart b 0⟩

theorem within_start_yieldTo {pull : Int} {d : Date} (hd : (s.yieldTo bound pull).start = some d) :
    Date.Within bound (some d) := by
  cases bound with
  | none => trivial
  | some b => exact start_yieldTo hd rfl

/-- A span that yields to a bound is put off no further than any that is put off until it keeps that bound
or a later one. -/
theorem yieldTo_noLater_shift (hs : s.start.isSome = true) (hab : Date.NoLater a b) (hk : 0 ≤ k)
    (hkept : ∀ d, (s.shift k).start = some d → Date.Within b (some d)) :
    (s.yieldTo a 0).NoLater (s.shift k) := by
  obtain ⟨start, hstart⟩ := Option.isSome_iff_exists.mp hs
  cases hab with
  | none =>
    have hshift := (NoLater.refl s).shift hk
    rw [shift_zero] at hshift
    exact hshift
  | @some a b hab =>
    have hkept : b ≤ start.addDays k := hkept _ (by simp [shift, hstart])
    -- a start that stops at the end of the range has come no further than it was asked to
    have hmove : start.daysUntil a ≤ k := by
      have hfirst := start.first_le
      rw [Date.le_iff] at hab hkept
      rw [Date.day_addDays] at hkept
      rw [Date.daysUntil]
      omega
    rw [yieldTo_of_start hstart]
    exact (NoLater.refl s).shift (by omega)

end Span

/-! ## Plans that come into question -/

/-- Which days a plan may have after a change of the root if no item may come to an earlier day: the root
has the days that it is given, what is not in order has its stored days, an ordered item with children has
their hull behind its own bound, and any other one is put off until it keeps its bound. -/
structure Admissible (before working : Network) (root : Item) (agenda : Agenda)
    (days : ItemId → Option Span) : Prop where
  atRoot : days root.id = some root.span
  unordered : ∀ x, x ≠ root.id → x ∉ agenda.order → days x = before.span? x
  parent : ∀ x ∈ agenda.order, working.hasChildren x = true →
    days x = some ((Span.hull ((working.childrenOf x).filterMap days)).notBefore
      (working.soonestStartBy days x))
  childless : ∀ x ∈ agenda.order, working.hasChildren x = false →
    ∃ stored k, before.span? x = some stored ∧ 0 ≤ k ∧ days x = some (stored.shift k) ∧
      ∀ d, (stored.shift k).start = some d → Date.Within (working.soonestStartBy days x) (some d)

/-- Whether a plan is the earliest of those that come into question. -/
structure Earliest (before working : Network) (root : Item) (agenda : Agenda)
    (days : ItemId → Option Span) : Prop where
  admissible : Admissible before working root agenda days
  noLater : ∀ days', Admissible before working root agenda days' →
    ∀ x, Option.Rel Span.NoLater (days x) (days' x)

namespace Pass
variable {p : Pass} {x y : ItemId}

/-- The days that a pass leaves if it holds every item where it is. -/
def heldDays (p : Pass) : ItemId → Option Span := (p.settled .hold).span? p.working

theorem CarriedOut.span?_eq_heldDays {policy : PullPolicy} {after : Network}
    (hc : p.CarriedOut policy after) (hhold : policy = .hold) : after.span? = p.heldDays := by
  funext x
  rw [hc.span, hhold]
  rfl

/-- A pass that leaves the root in its place, over a plan with all dates in which no item depends directly
on itself. -/
structure Steady (p : Pass) : Prop extends p.Ready none where
  parent : p.root.parent = p.stored.parent
  dated : p.before.Dated
  selfFree : p.before.SelfFree

namespace Steady
variable (h : p.Steady)
include h

theorem ne_of_dependency (ho : x ∈ p.agenda.order) (hy : y ∈ p.working.dependencies x) : y ≠ x := by
  intro he
  have hfree := h.selfFree.sameShape (h.sameShape h.parent)
  exact Network.selfFree_iff.mp hfree x (h.contains_of_mem_order ho) (he ▸ hy)

theorem soonestStartBy_seenBy (ho : x ∈ p.agenda.order) (days : ItemId → Option Span) :
    p.working.soonestStartBy (p.before.seenBy days x) x = p.working.soonestStartBy days x :=
  Network.soonestStartBy_seenBy fun _ hl =>
    h.ne_of_dependency ho (Network.predecessor_mem_dependencies hl)

/-- What holds out of order, and of an ordered item as soon as it holds of all that this one depends on,
holds of all items. -/
theorem induct {P : ItemId → Prop} (hrest : ∀ x, x ∉ p.agenda.order → P x)
    (hstep : ∀ x ∈ p.agenda.order, (∀ y ∈ p.working.dependencies x, P y) → P x) (x : ItemId) : P x :=
  h.toReady.induct hrest
    (fun x ho ih => hstep x ho fun y hy => ih y hy (h.ne_of_dependency ho hy)) x

theorem heldDays_childless (ho : x ∈ p.agenda.order) (hc : p.working.hasChildren x = false) :
    ∃ stored, p.before.span? x = some stored ∧
      p.heldDays x = some (stored.yieldTo (p.working.soonestStartBy p.heldDays x) 0) := by
  obtain ⟨stored, hstored, hdays⟩ := h.finalDays.follower x ho hc (h.follower_of_childless ho hc)
  refine ⟨stored, hstored, hdays.trans ?_⟩
  rw [h.soonestStartBy_seenBy ho]
  rfl

/-- The plan that the pass leaves comes into question. -/
theorem admissible : Admissible p.before p.working p.root p.agenda p.heldDays := by
  have hfinal : FinalDays p.before p.working p.root p.agenda .hold p.heldDays := h.finalDays
  constructor
  case atRoot => exact hfinal.atRoot
  case unordered => exact hfinal.unordered
  case parent =>
    intro x ho hc
    have hdays := hfinal.parent x ho hc
    rw [h.soonestStartBy_seenBy ho] at hdays
    exact hdays
  case childless =>
    intro x ho hc
    obtain ⟨stored, hstored, hdays⟩ := h.heldDays_childless ho hc
    obtain ⟨k, hk, hshift⟩ := Span.exists_yieldTo_eq_shift (h.dated x stored hstored).start
      (p.working.soonestStartBy p.heldDays x)
    refine ⟨stored, k, hstored, hk, hshift ▸ hdays, fun d hd => ?_⟩
    rw [← hshift] at hd
    exact Span.within_start_yieldTo hd

/-- No plan that comes into question has an item on an earlier day. -/
theorem noLater {days : ItemId → Option Span}
    (hdays : Admissible p.before p.working p.root p.agenda days) (x : ItemId) :
    Option.Rel Span.NoLater (p.heldDays x) (days x) := by
  have hheld := h.admissible
  refine h.induct (P := fun x => Option.Rel Span.NoLater (p.heldDays x) (days x)) ?_ ?_ x
  · intro y ho
    by_cases hy : y = p.root.id
    · rw [hy, hheld.atRoot, hdays.atRoot]
      exact Span.rel_noLater_refl _
    · rw [hheld.unordered y hy ho, hdays.unordered y hy ho]
      exact Span.rel_noLater_refl _
  · intro y ho ih
    have hbound : Date.NoLater (p.working.soonestStartBy p.heldDays y)
        (p.working.soonestStartBy days y) :=
      Network.soonestStartBy_related Date.stable_le fun l hl =>
        Span.NoLater.rel_iff_related.mp (ih _ (Network.predecessor_mem_dependencies hl))
    cases hc : p.working.hasChildren y with
    | true =>
      have hhull := Span.Related.hull Date.stable_le (forall₂_filterMap fun c hchild =>
        Span.NoLater.rel_iff_related.mp (ih c (Network.child_mem_dependencies hchild)))
      rw [hheld.parent y ho hc, hdays.parent y ho hc]
      exact .some (Span.NoLater.iff_related.mpr (hhull.notBefore Date.stable_le hbound))
    | false =>
      obtain ⟨stored, hstored, hspan⟩ := h.heldDays_childless ho hc
      obtain ⟨stored', k, hstored', hk, hspan', hkept⟩ := hdays.childless y ho hc
      obtain rfl : stored = stored' := Option.some.inj (hstored.symm.trans hstored')
      -- the other plan may put the item off by more, but its bound is no earlier
      rw [hspan, hspan']
      exact .some (Span.yieldTo_noLater_shift (h.dated y stored hstored).start hbound hk hkept)

theorem earliest : Earliest p.before p.working p.root p.agenda p.heldDays :=
  ⟨h.admissible, fun _ => h.noLater⟩

end Steady

end Pass

/-! ## Committing days -/

/-- Whether an edit proposes nothing but days that are there. -/
structure Edit.ProposesOnlyDays (e : Edit) : Prop where
  parent : e.proposed.parent = false
  start : e.proposed.start = true → e.start.isSome = true
  due : e.proposed.due = true → e.due.isSome = true

theorem Edit.ProposesOnlyDays.keepsDates {e : Edit} {stored : Item} (h : e.ProposesOnlyDays)
    (hstored : stored.span.Dated) : e.KeepsDates stored := by
  refine ⟨h.parent, ?_, ?_⟩
  · simp only [Item.span, applyTo]
    split
    · rename_i hp
      exact h.start hp
    · exact hstored.start
  · simp only [Item.span, applyTo]
    split
    · rename_i hp
      exact h.due hp
    · exact hstored.due

theorem Edit.KeepsDates.steady {e : Edit} {stored : Item} {net : Network} (h : e.KeepsDates stored)
    (hstored : net.item? e.id = some stored) (hd : net.Dated) (hs : net.SelfFree) :
    (Pass.prepare net e stored).Steady :=
  { h.ready hstored with
    parent := h.root_eq ▸ h.parent_applyTo
    dated := hd
    selfFree := hs }

/-- **Held items come as early as they can**: a commit that holds items leaves the earliest of the plans
that come into question, provided that its edit touches an attribute. -/
theorem Network.earliest_of_commit {net after : Network} {settings : Settings} {e : Edit} {o : Outcome}
    (hd : net.Dated) (hs : net.SelfFree) (he : e.ProposesOnlyDays) (ht : e.touched.isEmpty = false)
    (hhold : settings.policy = .hold) (h : net.commit settings e = .ok (after, o)) :
    ∃ stored, net.item? e.id = some stored ∧
      let root := e.applyTo stored
      let working := net.insert root
      let agenda := Agenda.ofChange working e.id none
      Earliest net working root agenda after.span? := by
  obtain ⟨stored, hstored, hc⟩ := carriedOut_prepare h ht
  have hkeeps := he.keepsDates (hd e.id _ (span?_of_item? hstored))
  have hsteady := hkeeps.steady hstored hd hs
  have hagenda := hsteady.agenda
  rw [Pass.id_root_prepare hstored] at hagenda
  have hworking : (Pass.prepare net e stored).working = net.insert (e.applyTo stored) :=
    hsteady.working.trans (congrArg net.insert hkeeps.root_eq)
  refine ⟨stored, hstored, ?_⟩
  have hearliest := hsteady.earliest
  rw [hagenda, hworking, hkeeps.root_eq] at hearliest
  rw [hc.span?_eq_heldDays hhold]
  exact hearliest

theorem selfFree_pourAndFrame : (pourAndFrame 4 8).SelfFree := by decide +kernel

theorem Edit.ProposesDates.proposesOnlyDays {e : Edit} {start due : Date}
    (h : e.ProposesDates start due) : e.ProposesOnlyDays where
  parent := by rw [h.proposed]
  start _ := by rw [h.start]; rfl
  due _ := by rw [h.due]; rfl

theorem commit_pourOn_seven : (pourAndFrame 4 8).commit { policy := .hold } (pourOn 7) =
    .ok (pourAndFrame 7 9, framedOn 9 3) := by decide +kernel

theorem earliest_pourOn_seven :
    (pourAndFrame 4 8).Dated ∧ (pourAndFrame 4 8).SelfFree ∧ (pourOn 7).ProposesOnlyDays ∧
      (pourOn 7).touched.isEmpty = false ∧
      (pourAndFrame 4 8).commit { policy := .hold } (pourOn 7) =
        .ok (pourAndFrame 7 9, framedOn 9 3) ∧
      ∃ stored, (pourAndFrame 4 8).item? (pourOn 7).id = some stored ∧
        let root := (pourOn 7).applyTo stored
        let working := (pourAndFrame 4 8).insert root
        let agenda := Agenda.ofChange working (pourOn 7).id none
        Earliest (pourAndFrame 4 8) working root agenda (pourAndFrame 7 9).span? := by
  have hdated := dated_pourAndFrame 4 8
  have hdays := (proposesDates_pourOn 7).proposesOnlyDays
  exact ⟨hdated, selfFree_pourAndFrame, hdays, rfl, commit_pourOn_seven,
    Network.earliest_of_commit hdated selfFree_pourAndFrame hdays rfl rfl commit_pourOn_seven⟩

/-- A pour that is moved without a touched attribute leaves framing where it was, three days before it may
start. -/
theorem notEarliest_after_silent_pour :
    (pourAndFrame 4 8).Dated ∧ (pourAndFrame 4 8).SelfFree ∧ (silentPourOn 9).ProposesOnlyDays ∧
      (silentPourOn 9).proposed.start = true ∧
      (pourAndFrame 4 8).commit { policy := .hold } (silentPourOn 9) = .ok (pourAndFrame 9 8, {}) ∧
      ¬ ∃ stored, (pourAndFrame 4 8).item? (silentPourOn 9).id = some stored ∧
        let root := (silentPourOn 9).applyTo stored
        let working := (pourAndFrame 4 8).insert root
        let agenda := Agenda.ofChange working (silentPourOn 9).id none
        Earliest (pourAndFrame 4 8) working root agenda (pourAndFrame 9 8).span? := by
  refine ⟨dated_pourAndFrame 4 8, selfFree_pourAndFrame,
    (proposesDates_silentPourOn 9).proposesOnlyDays, rfl, by decide +kernel, ?_⟩
  intro hearliest
  obtain ⟨stored, hstored, hearliest⟩ := hearliest
  obtain rfl : { id := ⟨"pour"⟩, start := some (.clamp 4), due := some (.clamp 5) } = stored := by
    have hpour : (pourAndFrame 4 8).item? (silentPourOn 9).id =
        some { id := ⟨"pour"⟩, start := some (.clamp 4), due := some (.clamp 5) } := by decide +kernel
    exact Option.some.inj (hpour.symm.trans hstored)
  obtain ⟨_, k, _, _, hdays, hkept⟩ := hearliest.admissible.childless ⟨"frame"⟩ (by decide +kernel)
    (by decide +kernel)
  have hframe : (pourAndFrame 9 8).span? ⟨"frame"⟩ = some ⟨some (.clamp 8), some (.clamp 10)⟩ := by
    decide +kernel
  rw [hframe] at hdays
  rw [← Option.some.inj hdays] at hkept
  exact absurd (hkept (.clamp 8) rfl) (by decide +kernel)

end WorkPlan
