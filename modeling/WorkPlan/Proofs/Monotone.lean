import WorkPlan.Proofs.Commit
import WorkPlan.Proofs.Lateness

/-! # The later the root, the later the plan

Two passes over one network that take the root to different days do the same work in the same order. An
item reads the days of what it depends on only in ways that respect the order of days, so along the
common order each item comes no later in the pass that takes the root to the earlier days
(`Pass.NoLater.settled`). This carries over to the committed networks (`noLater_of_commits`), unless
only one of the edits touches an attribute: an edit that touches none starts no pass and leaves all
other items where they are (`later_frame_after_silent_pour`). -/

namespace WorkPlan

/-! ## Passes -/

namespace Settled
variable {s t : Settled} {net net' : Network} {x : ItemId}

theorem span?_rel {R : Span → Span → Prop} (h : Option.Rel R s.spans[x]? t.spans[x]?)
    (hnet : Option.Rel R (net.span? x) (net'.span? x)) :
    Option.Rel R (s.span? net x) (t.span? net' x) := by
  rw [span?, span?]
  generalize s.spans[x]? = a, t.spans[x]? = b at h
  cases h with
  | some h => exact .some h
  | none => exact hnet

theorem drift_le (h : Option.Rel Span.NoLater s.spans[x]? t.spans[x]?) :
    s.drift net x ≤ t.drift net x := by
  rw [drift, drift]
  generalize s.spans[x]? = a, t.spans[x]? = b at h
  cases net.span? x with
  | none => exact Int.le_refl 0
  | some before =>
    cases h with
    | some h => exact Span.NoLater.driftTo before h
    | none => exact Int.le_refl 0

end Settled

namespace Pass
variable {p q : Pass} {former : Option ItemId} {policy : PullPolicy} {x : ItemId}

/-- Whether two passes start from one network and take the same root to places of which the first one
is no later. -/
structure NoLater (p q : Pass) (former : Option ItemId) : Prop where
  ready : p.Ready former
  ready_later : q.Ready former
  before : q.before = p.before
  root_id : q.root.id = p.root.id
  root_parent : q.root.parent = p.root.parent
  root_span : p.root.span.NoLater q.root.span

namespace NoLater
variable (h : p.NoLater q former)
include h

theorem sameShape : SameShape p.working q.working := by
  constructor
  · rw [h.ready.working, h.ready_later.working, h.before]
    rfl
  · intro x
    rw [h.ready.working, h.ready_later.working, h.before, Network.parent?_insert,
      Network.parent?_insert, h.root_id, h.root_parent]
  · intro x
    rw [h.ready.contains_working, h.ready_later.contains_working, h.before]

theorem agenda_eq : p.agenda.roles = q.agenda.roles ∧ p.agenda.order = q.agenda.order := by
  have hroot := h.ready.contains_root
  rw [h.ready.agenda, h.ready_later.agenda, h.root_id]
  exact ⟨h.sameShape.roles_eq hroot, h.sameShape.order_eq hroot⟩

theorem span?_working : Option.Rel Span.NoLater (p.working.span? x) (q.working.span? x) := by
  rw [h.ready.working, h.ready_later.working, h.before, Network.span?_insert, Network.span?_insert,
    h.root_id]
  split
  · exact .some h.root_span
  · exact Span.rel_noLater_refl _

/-- The days of an item come no later where those of its dependencies do not. -/
theorem spanFor {s t : Settled} {item : Item} (hs : ∀ y ∈ p.working.dependencies item.id,
      Option.Rel Span.NoLater s.spans[y]? t.spans[y]?) :
    (p.spanFor policy s item).NoLater (q.spanFor policy t item) := by
  have hspan : ∀ y ∈ p.working.dependencies item.id,
      Option.Rel Span.NoLater (s.span? p.working y) (t.span? q.working y) :=
    fun y hy => Settled.span?_rel (hs y hy) h.span?_working
  have hsoonest : Date.NoLater (p.working.soonestStartBy (s.span? p.working) item.id)
      (q.working.soonestStartBy (t.span? q.working) item.id) := by
    rw [← h.sameShape.soonestStartBy_eq]
    exact Network.soonestStartBy_related Date.stable_le fun l hl =>
      Span.NoLater.rel_iff_related.mp (hspan _ (Network.predecessor_mem_dependencies hl))
  have hchildren : List.Forall₂ (Span.Related (· ≤ ·))
      ((p.working.childrenOf item.id).filterMap (s.span? p.working))
      ((q.working.childrenOf item.id).filterMap (t.span? q.working)) := by
    rw [← h.sameShape.childrenOf_eq]
    exact forall₂_filterMap fun c hc =>
      Span.NoLater.rel_iff_related.mp (hspan c (Network.child_mem_dependencies hc))
  have hpull : policy.pull ((p.working.bindingLinks item.id).map fun l =>
        s.drift p.before l.predecessor) ≤
      policy.pull ((q.working.bindingLinks item.id).map fun l =>
        t.drift q.before l.predecessor) := by
    refine PullPolicy.pull_mono fun n hn => ?_
    obtain ⟨l, hl, rfl⟩ := List.mem_map.mp hn
    have hl := h.sameShape.mem_bindingLinks.mpr hl
    refine ⟨_, List.mem_map.mpr ⟨l, hl, rfl⟩, ?_⟩
    rw [h.before]
    exact Settled.drift_le (hs _ (Network.predecessor_mem_dependencies hl))
  simp only [Pass.spanFor, ← h.sameShape.hasChildren_eq, ← h.agenda_eq.1]
  split
  · have hhull := Span.Related.hull Date.stable_le hchildren
    exact Span.NoLater.iff_related.mpr (hhull.notBefore Date.stable_le hsoonest)
  · split
    · exact Span.NoLater.yieldTo _ hsoonest hpull
    · exact .refl _

/-- **What a pass settles moves with the root**, whatever the order of its steps. -/
theorem settled : Option.Rel Span.NoLater (p.settled policy).spans[x]? (q.settled policy).spans[x]? := by
  refine h.ready.settled_induct
    (P := fun x span => Option.Rel Span.NoLater span (q.settled policy).spans[x]?) ?_ ?_ ?_ x
  · rw [← h.root_id, h.ready_later.settled_root]
    exact .some h.root_span
  · intro y hy ho
    rw [Ready.settled_of_not_mem_order (h.root_id ▸ hy) (h.agenda_eq.2 ▸ ho)]
    exact .none
  · intro y hy item hitem ih
    have hne : y ≠ p.root.id := h.ready.ne_root_of_mem_order hy
    have hsame : q.working.item? y = some item := by
      rw [h.ready.working, Network.item?_insert, if_neg (Ne.symm hne)] at hitem
      rw [h.ready_later.working, Network.item?_insert, h.root_id, if_neg (Ne.symm hne), h.before,
        hitem]
    rw [h.ready_later.settled_ordered (h.agenda_eq.2 ▸ hy) hsame]
    refine .some (h.spanFor fun z hz => ?_)
    rw [Settled.getElem?_without, Settled.getElem?_without]
    split
    · exact .none
    · rename_i hyz
      exact ih z hz (Ne.symm hyz)

theorem span? : Option.Rel Span.NoLater ((p.settled policy).span? p.working x)
    ((q.settled policy).span? q.working x) :=
  Settled.span?_rel h.settled h.span?_working

end NoLater
end Pass

/-! ## Dated plans -/

structure Span.Dated (s : Span) : Prop where
  start : s.start.isSome = true
  due : s.due.isSome = true

/-- Whether all items of a network have both dates. -/
def Network.Dated (net : Network) : Prop := ∀ x s, net.span? x = some s → s.Dated

namespace Span.Dated
variable {s t : Span} {bound : Option Date} {pull : Int}

theorem of_contains (h : t.Dated) (hst : s.Contains t) : s.Dated := by
  obtain ⟨start, hstart⟩ := Option.isSome_iff_exists.mp h.start
  obtain ⟨due, hdue⟩ := Option.isSome_iff_exists.mp h.due
  obtain ⟨start', hstart', _⟩ := hst.start start hstart
  obtain ⟨due', hdue', _⟩ := hst.due due hdue
  exact ⟨Option.isSome_of_eq_some hstart', Option.isSome_of_eq_some hdue'⟩

theorem notBefore (h : s.Dated) : (s.notBefore bound).Dated := by
  constructor
  · rw [Span.notBefore, Option.isSome_map, h.start]
  · rw [Span.notBefore, Option.isSome_map, h.due]

theorem yieldTo (h : s.Dated) : (s.yieldTo bound pull).Dated := by
  cases bound with
  | none => exact h
  | some bound =>
    obtain ⟨start, hstart⟩ := Option.isSome_iff_exists.mp h.start
    simp only [Span.yieldTo, hstart, shift]
    exact ⟨rfl, Option.isSome_map.trans h.due⟩

end Span.Dated

namespace Settled
variable {s : Settled} {net : Network} {x : ItemId} {t : Span}

theorem exists_span? (hc : net.contains x = true) : ∃ t, s.span? net x = some t := by
  rw [Network.contains_eq_isSome_span?] at hc
  obtain ⟨t, hspan⟩ := Option.isSome_iff_exists.mp hc
  cases hs : s.spans[x]? with
  | some t => exact ⟨t, span?_of_settled hs⟩
  | none => exact ⟨t, (span?_of_unsettled hs).trans hspan⟩

theorem dated_span? (hd : net.Dated) (hs : ∀ t : Span, s.spans[x]? = some t → t.Dated)
    (ht : s.span? net x = some t) : t.Dated := by
  cases hx : s.spans[x]? with
  | some u =>
    rw [span?_of_settled hx] at ht
    cases ht
    exact hs _ hx
  | none =>
    rw [span?_of_unsettled hx] at ht
    exact hd x t ht

end Settled

namespace Pass.Ready
variable {p : Pass} {former : Option ItemId} {policy : PullPolicy} {x : ItemId}
  (hp : p.Ready former)
include hp

/-- A pass over a dated network leaves no item without a date. -/
theorem dated_settled (hd : p.working.Dated) {span : Span}
    (h : (p.settled policy).spans[x]? = some span) : span.Dated := by
  have hdated : ∀ (x : ItemId) (s : Span), (p.settled policy).spans[x]? = some s → s.Dated := by
    refine hp.settled_induct (P := fun _ days => ∀ s : Span, days = some s → s.Dated) ?_ ?_ ?_
    · rintro _ ⟨⟩
      exact hd p.root.id _ (by rw [hp.working, Network.span?_insert, if_pos rfl])
    · rintro _ _ _ _ ⟨⟩
    · rintro y _ item hitem ih _ ⟨⟩
      have hitemDated : item.span.Dated := hd y _ (Network.span?_of_item? hitem)
      unfold spanFor
      split
      · rename_i hchildren
        obtain ⟨c, hc⟩ := Network.hasChildren_iff.mp hchildren
        have hchild := Network.mem_childrenOf.mpr hc
        obtain ⟨t, ht⟩ := ((p.settled policy).without y).exists_span?
          (Network.contains_of_parent? hc)
        have htDated : t.Dated := by
          refine Settled.dated_span? hd (fun u hu => ?_) ht
          rw [Settled.getElem?_without] at hu
          split at hu
          · cases hu
          · rename_i hne
            exact ih c (Network.child_mem_dependencies hchild) (Ne.symm hne) u hu
        have hmem : t ∈ (p.working.childrenOf item.id).filterMap
            (((p.settled policy).without y).span? p.working) :=
          List.mem_filterMap.mpr ⟨c, hchild, ht⟩
        exact (htDated.of_contains (Span.hull_contains hmem)).notBefore
      · split
        · exact hitemDated.yieldTo
        · exact hitemDated
  exact hdated x span h

end Pass.Ready

/-! ## Committing dates -/

/-- Whether an edit leaves a stored item in its place, with both dates. -/
structure Edit.KeepsDates (e : Edit) (stored : Item) : Prop where
  parent : e.proposed.parent = false
  dated : (e.applyTo stored).span.Dated

namespace Edit.KeepsDates
variable {e : Edit} {stored : Item} {net : Network} (h : e.KeepsDates stored)
include h

theorem parent_applyTo : (e.applyTo stored).parent = stored.parent := by
  simp only [applyTo, h.parent, Bool.false_eq_true, if_false]

theorem seed_eq : Pass.seed net e (e.applyTo stored) = e.applyTo stored := by
  have hstart : (e.applyTo stored).start.isNone = false := by
    rw [← Option.not_isSome]
    exact congrArg not h.dated.start
  unfold Pass.seed Item.adopt
  rw [hstart]
  split
  · split <;> rfl
  · rfl

theorem formerParent_eq : Pass.formerParent e stored (e.applyTo stored) = none := by
  rw [Pass.formerParent, h.parent_applyTo]
  simp

theorem root_eq : (Pass.prepare net e stored).root = e.applyTo stored := h.seed_eq

theorem ready (hstored : net.item? e.id = some stored) :
    (Pass.prepare net e stored).Ready none :=
  h.formerParent_eq ▸ Pass.ready_prepare hstored

end Edit.KeepsDates

/-- Whether an edit proposes a start and a due day, and nothing else. -/
structure Edit.ProposesDates (e : Edit) (start due : Date) : Prop where
  start : e.start = some start
  due : e.due = some due
  proposed : e.proposed = { start := true, due := true }

namespace Edit.ProposesDates
variable {e : Edit} {start due : Date} {stored : Item} {net : Network}
  (h : e.ProposesDates start due)
include h

theorem applyTo_eq : e.applyTo stored = stored.withSpan ⟨some start, some due⟩ := by
  simp [applyTo, h.start, h.due, h.proposed, Item.withSpan]

theorem keepsDates : e.KeepsDates stored :=
  ⟨by rw [h.proposed], by rw [h.applyTo_eq]; exact ⟨rfl, rfl⟩⟩

theorem root_eq : (Pass.prepare net e stored).root = stored.withSpan ⟨some start, some due⟩ :=
  h.keepsDates.root_eq.trans h.applyTo_eq

theorem noLater_prepare {e' : Edit} {start' due' : Date} (h' : e'.ProposesDates start' due')
    (hid : e.id = e'.id) (hstart : start ≤ start') (hdue : due ≤ due')
    (hstored : net.item? e.id = some stored) :
    (Pass.prepare net e stored).NoLater (Pass.prepare net e' stored) none := by
  have hstored' : net.item? e'.id = some stored := hid ▸ hstored
  constructor
  case ready => exact h.keepsDates.ready hstored
  case ready_later => exact h'.keepsDates.ready hstored'
  case before => rfl
  case root_id => rw [h.root_eq, h'.root_eq]; rfl
  case root_parent => rw [h.root_eq, h'.root_eq]; rfl
  case root_span =>
    rw [h.root_eq, h'.root_eq]
    exact ⟨.some hstart, .some hdue⟩

end Edit.ProposesDates

namespace Network
variable {net after : Network} {settings : Settings} {e : Edit} {o : Outcome}

/-- An edit that touches nothing is stored, and nothing else. -/
theorem span?_commit_of_untouched (h : net.commit settings e = .ok (after, o))
    (ht : e.touched.isEmpty = true) : ∃ stored, net.item? e.id = some stored ∧
      ∀ x, after.span? x = if x = e.id then some (e.applyTo stored).span else net.span? x := by
  obtain ⟨stored, hroot, hreflow, _⟩ := commit_eq_ok.mp h
  have hstored := (root?_eq_ok.mp hroot).2
  obtain ⟨p, _, rfl⟩ := reflow_eq_ok.mp hreflow
  refine ⟨stored, hstored, fun x => ?_⟩
  rw [span?_of_commit h, if_pos ht, spanAfter?]
  simp only [Std.ExtTreeMap.getElem?_empty]
  split
  · rename_i hx
    rw [hx, hstored]
    rfl
  · rfl

theorem carriedOut_prepare (h : net.commit settings e = .ok (after, o))
    (ht : e.touched.isEmpty = false) : ∃ stored, net.item? e.id = some stored ∧
      (Pass.prepare net e stored).CarriedOut settings.policy after := by
  obtain ⟨p, hpass, _, _, _, _, hc⟩ := Pass.carriedOut_of_commit h ht
  obtain ⟨_, stored, hstored, _, rfl⟩ := pass?_eq_ok.mp hpass
  exact ⟨stored, hstored, hc⟩

/-- A commit of two dates leaves no item of a dated network without a date. -/
theorem dated_commit {start due : Date} (he : e.ProposesDates start due)
    (h : net.commit settings e = .ok (after, o)) (hd : net.Dated) : after.Dated := by
  intro x s hs
  cases ht : e.touched.isEmpty with
  | true =>
    obtain ⟨stored, hstored, hspan⟩ := span?_commit_of_untouched h ht
    rw [hspan, he.applyTo_eq] at hs
    split at hs
    · cases hs
      exact ⟨rfl, rfl⟩
    · exact hd x s hs
  | false =>
    obtain ⟨stored, hstored, hc⟩ := carriedOut_prepare h ht
    have hready := Pass.ready_prepare hstored
    have hworking : (Pass.prepare net e stored).working.Dated := by
      intro y t hy
      rw [hready.working, span?_insert, he.root_eq] at hy
      split at hy
      · cases hy
        exact ⟨rfl, rfl⟩
      · exact hd y t hy
    rw [hc.span] at hs
    exact Settled.dated_span? hworking (fun _ => hready.dated_settled hworking) hs

/-- **The later the root, the later the plan.** Of two edits that propose both dates of one item, the one
with the earlier dates leaves no item on a later day than the other one does, provided that both touch an
attribute or neither does. In a dated network all of these days are there. -/
theorem noLater_of_commits {after₁ after₂ : Network} {e₁ e₂ : Edit} {o₁ o₂ : Outcome}
    {start₁ due₁ start₂ due₂ : Date} (he₁ : e₁.ProposesDates start₁ due₁)
    (he₂ : e₂.ProposesDates start₂ due₂) (hid : e₁.id = e₂.id) (hstart : start₁ ≤ start₂)
    (hdue : due₁ ≤ due₂) (ht : e₁.touched.isEmpty = e₂.touched.isEmpty)
    (h₁ : net.commit settings e₁ = .ok (after₁, o₁))
    (h₂ : net.commit settings e₂ = .ok (after₂, o₂)) :
    (∀ x, Option.Rel Span.NoLater (after₁.span? x) (after₂.span? x)) ∧
      (net.Dated → after₁.Dated ∧ after₂.Dated) := by
  refine ⟨fun x => ?_, fun hd => ⟨dated_commit he₁ h₁ hd, dated_commit he₂ h₂ hd⟩⟩
  cases ht₂ : e₂.touched.isEmpty with
  | true =>
    obtain ⟨stored, hstored, hspan₁⟩ := span?_commit_of_untouched h₁ (ht.trans ht₂)
    obtain ⟨stored', hstored', hspan₂⟩ := span?_commit_of_untouched h₂ ht₂
    rw [hspan₁, hspan₂, he₁.applyTo_eq, he₂.applyTo_eq, hid]
    split
    · exact .some ⟨.some hstart, .some hdue⟩
    · exact Span.rel_noLater_refl _
  | false =>
    obtain ⟨stored, hstored, hc₁⟩ := carriedOut_prepare h₁ (ht.trans ht₂)
    obtain ⟨stored', hstored', hc₂⟩ := carriedOut_prepare h₂ ht₂
    obtain rfl : stored = stored' := Option.some.inj (hstored.symm.trans (hid ▸ hstored'))
    rw [hc₁.span, hc₂.span]
    exact (he₁.noLater_prepare he₂ hid hstart hdue hstored).span?

end Network

/-! ## A pour with time to spare -/

theorem Network.dated_ofLists {items : List Item} {links : List Link}
    (hn : (items.map (·.id)).Nodup) (h : ∀ x ∈ items, x.span.Dated) :
    (Network.ofLists items links).Dated := by
  intro k s hs
  obtain ⟨x, hx, rfl⟩ := Option.map_eq_some_iff.mp hs
  rw [ofLists, item?_foldl_addLink, item?_foldl_insert hn, item?_empty, Option.or_none] at hx
  exact h x (List.mem_of_find?_eq_some hx)

/-- Framing waits for the pour; the days on which the two start are given. -/
def pourAndFrame (pour frame : Int) : Network := .ofLists
  [{ id := ⟨"frame"⟩, start := some (.clamp frame), due := some (.clamp (frame + 2)) },
    { id := ⟨"pour"⟩, start := some (.clamp pour), due := some (.clamp (pour + 1)) }]
  shellLinks

def pourOn (day : Int) : Edit :=
  (({ id := ⟨"pour"⟩ } : Edit).withStart (some (.clamp day))).withDue (some (.clamp (day + 1)))

/-- The pour starts on another day, without any attribute touched. -/
def silentPourOn (day : Int) : Edit := { pourOn day with touched := {} }

theorem dated_pourAndFrame (pour frame : Int) : (pourAndFrame pour frame).Dated := by
  refine Network.dated_ofLists (by simp) fun x hx => ?_
  simp only [List.mem_cons, List.not_mem_nil, or_false] at hx
  rcases hx with rfl | rfl <;> exact ⟨rfl, rfl⟩

theorem proposesDates_pourOn (day : Int) :
    (pourOn day).ProposesDates (.clamp day) (.clamp (day + 1)) := ⟨rfl, rfl, rfl⟩

theorem proposesDates_silentPourOn (day : Int) :
    (silentPourOn day).ProposesDates (.clamp day) (.clamp (day + 1)) := ⟨rfl, rfl, rfl⟩

def framedOn (frame delta : Int) : Outcome where
  changes := .ofList [(ItemId.mk "frame",
    Slot.mk (some (.clamp frame)) (some (.clamp (frame + 2))) 3)]
  delta

theorem commit_pourOn_two :
    (pourAndFrame 4 8).commit {} (pourOn 2) = .ok (pourAndFrame 2 6, framedOn 6 (-2)) := by
  decide +kernel

theorem noLater_pourAndFrame :
    (pourAndFrame 4 8).commit {} (pourOn 1) = .ok (pourAndFrame 1 5, framedOn 5 (-3)) ∧
      (pourAndFrame 4 8).commit {} (pourOn 2) = .ok (pourAndFrame 2 6, framedOn 6 (-2)) ∧
      (pourAndFrame 4 8).Dated ∧
      (∀ x, Option.Rel Span.NoLater ((pourAndFrame 1 5).span? x) ((pourAndFrame 2 6).span? x)) ∧
      (pourAndFrame 1 5).Dated ∧ (pourAndFrame 2 6).Dated := by
  have hfirst : (pourAndFrame 4 8).commit {} (pourOn 1) =
      .ok (pourAndFrame 1 5, framedOn 5 (-3)) := by decide +kernel
  have hdated := dated_pourAndFrame 4 8
  obtain ⟨hlater, hafter⟩ := Network.noLater_of_commits (proposesDates_pourOn 1)
    (proposesDates_pourOn 2) rfl (by decide) (by decide) rfl hfirst commit_pourOn_two
  exact ⟨hfirst, commit_pourOn_two, hdated, hlater, hafter hdated⟩

/-- A pour that is moved without a touched attribute starts earlier than the other one, and still framing
starts later: only the other pour pulls it along. -/
theorem later_frame_after_silent_pour :
    (pourAndFrame 4 8).Dated ∧
      (silentPourOn 1).ProposesDates (.clamp 1) (.clamp 2) ∧
      (pourOn 2).ProposesDates (.clamp 2) (.clamp 3) ∧
      (pourAndFrame 4 8).commit {} (silentPourOn 1) = .ok (pourAndFrame 1 8, {}) ∧
      (pourAndFrame 4 8).commit {} (pourOn 2) = .ok (pourAndFrame 2 6, framedOn 6 (-2)) ∧
      ¬ Option.Rel Span.NoLater ((pourAndFrame 1 8).span? ⟨"frame"⟩)
        ((pourAndFrame 2 6).span? ⟨"frame"⟩) := by
  refine ⟨dated_pourAndFrame 4 8, proposesDates_silentPourOn 1, proposesDates_pourOn 2,
    by decide +kernel, commit_pourOn_two, ?_⟩
  have hsilent : (pourAndFrame 1 8).span? ⟨"frame"⟩ = some ⟨some (.clamp 8), some (.clamp 10)⟩ := by
    decide +kernel
  have hpulled : (pourAndFrame 2 6).span? ⟨"frame"⟩ = some ⟨some (.clamp 6), some (.clamp 8)⟩ := by
    decide +kernel
  rw [hsilent, hpulled]
  rintro (⟨⟨⟨hstart⟩, _⟩⟩)
  exact absurd hstart (by decide)

end WorkPlan
