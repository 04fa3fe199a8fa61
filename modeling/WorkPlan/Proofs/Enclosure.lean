import WorkPlan.Proofs.Consistency

/-! # Parents and their children after a pass

A parent that a pass computes gets the hull of the final days of its children, kept behind its own bound.
So it is due no earlier than any of them, and it starts no later than any of them that starts at the bound
or after it (`CarriedOut.containsBehind`). A child that the pass computed as well does so, because it keeps
its own bound and inherits that of its parent (`CarriedOut.exempt_of_lt`). What may stand out at the front
are the root, children that the pass did not compute, and childless ancestors, which it leaves as they are
(`containsBehind_of_commit`). -/

namespace WorkPlan

namespace Pass.CarriedOut
variable {p : Pass} {policy : PullPolicy} {after : Network} {former : Option ItemId}
  {parent child : ItemId} {outer inner : Span} (hc : p.CarriedOut policy after) (hp : p.Ready former)
include hc hp

/-- A computed parent contains its children, up to what lies before its bound. -/
theorem containsBehind (ho : parent ∈ p.agenda.order)
    (hself : ∀ l ∈ after.bindingLinks parent, l.predecessor ≠ parent)
    (hchild : after.parent? child = some parent) (hinner : after.span? child = some inner) :
    ∃ outer, after.span? parent = some outer ∧
      Span.ContainsBehind (after.soonestStart parent) outer inner := by
  have hmem : inner ∈ (after.childrenOf parent).filterMap after.span? :=
    List.mem_filterMap.mpr ⟨child, Network.mem_childrenOf.mpr hchild, hinner⟩
  exact ⟨_, hc.span?_parent hp ho hself (Network.hasChildren_iff.mpr ⟨child, hchild⟩),
    Span.notBefore_containsBehind (Span.hull_contains hmem) _⟩

/-- A computed item is a follower, or it contains others, or it is a childless ancestor. -/
theorem follower_or_hasChildren (ho : child ∈ p.agenda.order) :
    (p.agenda.roles[child]? = some .follower ∨ p.working.hasChildren child = true) ∨
      after.hasChildren child = false ∧ p.agenda.roles[child]? = some .ancestor := by
  obtain ⟨role, hrole⟩ := Option.isSome_iff_exists.mp
    (Std.ExtTreeMap.mem_iff_isSome_getElem?.mp (hp.mem_roles_of_mem_order ho))
  cases role with
  | follower => exact Or.inl (Or.inl hrole)
  | ancestor =>
    cases hchildren : p.working.hasChildren child with
    | true => exact Or.inl (Or.inr rfl)
    | false => exact Or.inr ⟨hc.hasChildren.trans hchildren, hrole⟩

/-- A child that starts before the bound of an existing parent was not brought behind it by the pass. -/
theorem exempt_of_lt {start bound : Date} (hin : after.Inside child parent)
    (hself : ∀ l ∈ after.bindingLinks child, l.predecessor ≠ child)
    (hinner : after.span? child = some inner) (hstart : inner.start = some start)
    (hbound : after.soonestStart parent = some bound) (hlt : start < bound) :
    child ∉ p.agenda.order ∨
      after.hasChildren child = false ∧ p.agenda.roles[child]? = some .ancestor := by
  by_cases ho : child ∈ p.agenda.order
  · rcases hc.follower_or_hasChildren hp ho with hr | hleft
    · have hkept := hc.keepsBound_of_mem_order hp ho hr hself
      have hle := Date.within_some_iff.mp (hkept.within_of_inside hin hinner hstart) bound hbound
      exact absurd hle (Int.not_le.mpr hlt)
    · exact Or.inr hleft
  · exact Or.inl ho

end Pass.CarriedOut

/-- **Parents that a commit computes hold their children**, whatever the network looks like: such a parent
is due no earlier than its child, and starts no later unless the child starts before the bound of the
parent. Then the child is the root, or the pass did not compute it, or it is an ancestor without children. -/
theorem Network.containsBehind_of_commit {net after : Network} {settings : Settings} {e : Edit}
    {o : Outcome} {p : Pass} {parent child : ItemId}
    (h : net.commit settings e = .ok (after, o)) (ht : e.touched.isEmpty = false)
    (hself : ∀ x ∈ after.itemList, ∀ l ∈ after.bindingLinks x.id, l.predecessor ≠ x.id)
    (hp : net.pass? e = .ok p) (ho : parent ∈ p.agenda.order)
    (hchild : after.parent? child = some parent) :
    ∃ outer inner, after.span? parent = some outer ∧ after.span? child = some inner ∧
      Span.ContainsBehind (after.soonestStart parent) outer inner ∧
      ∀ start bound, inner.start = some start → after.soonestStart parent = some bound →
        start < bound → child = e.id ∨ child ∉ p.agenda.order ∨
          after.hasChildren child = false ∧ p.agenda.roles[child]? = some .ancestor := by
  obtain ⟨q, hq, _, _, ⟨former, hready⟩, _, hc⟩ := Pass.carriedOut_of_commit h ht
  obtain rfl : p = q := Except.ok.inj (hp.symm.trans hq)
  have hfree : ∀ x, after.contains x = true → ∀ l ∈ after.bindingLinks x, l.predecessor ≠ x :=
    forall_contains_iff.mpr hself
  have hparent : after.contains parent = true :=
    (hc.contains hready).trans (hready.contains_of_mem_order ho)
  have hin : after.contains child = true := contains_of_parent? hchild
  obtain ⟨inner, hinner⟩ := Option.isSome_iff_exists.mp (contains_eq_isSome_span? ▸ hin)
  obtain ⟨outer, houter, hcontains⟩ :=
    hc.containsBehind hready ho (hfree parent hparent) hchild hinner
  refine ⟨outer, inner, houter, hinner, hcontains, fun start bound hstart hbound hlt => Or.inr ?_⟩
  exact hc.exempt_of_lt hready (inside_iff.mpr ⟨hchild, hparent⟩) (hfree child hin) hinner hstart
    hbound hlt

/-! ## A task that starts before its phase may -/

/-- The task is to start three days before its phase may. -/
def taskEarly : Edit := (({ id := ⟨"task"⟩ } : Edit).withStart (Date.ofDay? 3)).withDue (Date.ofDay? 20)

/-- The task has the days it was given, and the phase starts as soon as it may. -/
def earlySurveyPlan : Network := .ofLists
  [{ id := ⟨"permit"⟩, due := Date.ofDay? 5 },
    { id := ⟨"phase"⟩, start := Date.ofDay? 6, due := Date.ofDay? 20 },
    { id := ⟨"survey"⟩, due := Date.ofDay? 10 },
    { id := ⟨"task"⟩, start := Date.ofDay? 3, due := Date.ofDay? 20, parent := some ⟨"phase"⟩ }]
  [{ predecessor := ⟨"permit"⟩, successor := ⟨"phase"⟩ },
    { predecessor := ⟨"survey"⟩, successor := ⟨"task"⟩ }]

def earlySurvey : Outcome where
  changes := .ofList [(ItemId.mk "phase", Slot.mk (Date.ofDay? 6) (Date.ofDay? 20) 15)]

/-- The phase is due with its task, and the task, which is the root, stands out at the front. -/
theorem containsBehind_earlySurvey :
    surveyPlan.commit {} taskEarly = .ok (earlySurveyPlan, earlySurvey) ∧
      taskEarly.touched.isEmpty = false ∧
      (∀ x ∈ earlySurveyPlan.itemList, ∀ l ∈ earlySurveyPlan.bindingLinks x.id,
        l.predecessor ≠ x.id) ∧
      ∃ p, surveyPlan.pass? taskEarly = .ok p ∧ ⟨"phase"⟩ ∈ p.agenda.order ∧
        earlySurveyPlan.parent? ⟨"task"⟩ = some ⟨"phase"⟩ ∧
        ∃ outer inner, earlySurveyPlan.span? ⟨"phase"⟩ = some outer ∧
          earlySurveyPlan.span? ⟨"task"⟩ = some inner ∧
          Span.ContainsBehind (earlySurveyPlan.soonestStart ⟨"phase"⟩) outer inner ∧
          ¬ outer.Contains inner ∧
          ∀ start bound, inner.start = some start →
            earlySurveyPlan.soonestStart ⟨"phase"⟩ = some bound → start < bound →
              ⟨"task"⟩ = taskEarly.id ∨ ⟨"task"⟩ ∉ p.agenda.order ∨
                earlySurveyPlan.hasChildren ⟨"task"⟩ = false ∧
                  p.agenda.roles[ItemId.mk "task"]? = some .ancestor := by
  have hcommit : surveyPlan.commit {} taskEarly = .ok (earlySurveyPlan, earlySurvey) := by
    decide +kernel
  have hself : ∀ x ∈ earlySurveyPlan.itemList, ∀ l ∈ earlySurveyPlan.bindingLinks x.id,
      l.predecessor ≠ x.id := by decide +kernel
  have hpass : surveyPlan.pass? taskEarly = .ok (Pass.prepare surveyPlan taskEarly
      { id := ⟨"task"⟩, parent := some ⟨"phase"⟩ }) :=
    Network.pass?_eq_ok.mpr ⟨by decide +kernel, _, by decide +kernel, by decide +kernel, rfl⟩
  have horder : ⟨"phase"⟩ ∈ (Pass.prepare surveyPlan taskEarly
      { id := ⟨"task"⟩, parent := some ⟨"phase"⟩ }).agenda.order := by decide +kernel
  have hparent : earlySurveyPlan.parent? ⟨"task"⟩ = some ⟨"phase"⟩ := by decide +kernel
  obtain ⟨outer, inner, houter, hinner, hcontains, hexempt⟩ :=
    Network.containsBehind_of_commit hcommit rfl hself hpass horder hparent
  refine ⟨hcommit, rfl, hself, _, hpass, horder, hparent, outer, inner, houter, hinner, hcontains,
    fun h => ?_, hexempt⟩
  have hspans : earlySurveyPlan.span? ⟨"phase"⟩ = some ⟨some (.clamp 6), some (.clamp 20)⟩ ∧
      earlySurveyPlan.span? ⟨"task"⟩ = some ⟨some (.clamp 3), some (.clamp 20)⟩ := by
    decide +kernel
  obtain rfl := Option.some.inj (houter.symm.trans hspans.1)
  obtain rfl := Option.some.inj (hinner.symm.trans hspans.2)
  obtain ⟨d, hd, hle⟩ := h.start _ rfl
  rw [← Option.some.inj hd] at hle
  revert hle
  decide

end WorkPlan
