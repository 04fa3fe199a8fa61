import Mathlib.Control.Monad.Basic
import WorkPlan.Proofs.Pass

/-! # The days after an edit solve equations

`Network.spanAfter?` reads off an outcome which days every item has once it stands. These days solve
`FinalDays`: each span is the hull of the final days inside it, or yields to what the final days of
its predecessors ask for, or is the stored one. So nothing was computed from a date that moved later
in the pass. The one exception is part of the equations: an item that a link ties to itself answers to
its own stored days. -/

namespace WorkPlan

/-- The days of every item once the outcome of an edit stands: those of its slot, else those that
the edit proposes for the root and the stored ones for any other item. -/
def Network.spanAfter? (net : Network) (e : Edit) (o : Outcome) (id : ItemId) : Option Span :=
  match o.changes[id]? with
  | some slot => some slot.span
  | none =>
    if id = e.id then (net.item? id).map fun stored => (e.applyTo stored).span else net.span? id

/-- The given days as the item `x` sees them: its own are the stored ones. -/
def Network.seenBy (before : Network) (days : ItemId → Option Span) (x y : ItemId) : Option Span :=
  if y = x then before.span? y else days y

def Network.driftTo (before : Network) (days : ItemId → Option Span) (y : ItemId) : Int :=
  match before.span? y, days y with
  | some stored, some span => stored.driftTo span
  | _, _ => 0

theorem Network.soonestStartBy_seenBy {net before : Network} {days : ItemId → Option Span} {x : ItemId}
    (hself : ∀ l ∈ net.bindingLinks x, l.predecessor ≠ x) :
    net.soonestStartBy (before.seenBy days x) x = net.soonestStartBy days x :=
  soonestStartBy_congr (fun _ => Iff.rfl) fun l hl => by rw [seenBy, if_neg (hself l hl)]

/-- What days have to satisfy to be the result of a pass from the network `before`. `working` holds
the root as the pass takes it, and `agenda` is what the change of the root concerns. -/
structure FinalDays (before working : Network) (root : Item) (agenda : Agenda) (policy : PullPolicy)
    (days : ItemId → Option Span) : Prop where
  atRoot : days root.id = some root.span
  unordered : ∀ x, x ≠ root.id → x ∉ agenda.order → days x = before.span? x
  parent : ∀ x ∈ agenda.order, working.hasChildren x = true →
    days x = some ((Span.hull ((working.childrenOf x).filterMap days)).notBefore
      (working.soonestStartBy (before.seenBy days x) x))
  follower : ∀ x ∈ agenda.order, working.hasChildren x = false →
    agenda.roles[x]? = some .follower →
    ∃ stored, before.span? x = some stored ∧
      days x = some (stored.yieldTo (working.soonestStartBy (before.seenBy days x) x)
        (policy.pull ((working.bindingLinks x).map fun l =>
          before.driftTo (before.seenBy days x) l.predecessor)))
  ancestor : ∀ x ∈ agenda.order, working.hasChildren x = false →
    agenda.roles[x]? = some .ancestor → days x = before.span? x

/-! ## Reading an outcome -/

namespace Span

theorem driftTo_self (s : Span) : s.driftTo s = 0 := by
  obtain ⟨start, due⟩ := s
  cases due with
  | some due => exact Int.sub_self _
  | none =>
    cases start with
    | some start => exact Int.sub_self _
    | none => rfl

theorem hull_append (l m : List Span) : hull (l ++ m) = (hull l).join (hull m) := by
  rw [hull, List.foldl_append, foldl_join]; rfl

/-- A hull kept behind a bound may be computed with an own share in it from before or after. -/
theorem notBefore_hull_of_eq {f g : ItemId → Option Span} {x : ItemId} {bound : Option Date}
    {l : List ItemId} (hl : l.Nodup) (hfg : ∀ y, y ≠ x → f y = g y) (hf : (f x).isSome = true)
    (hg : g x = some ((hull (l.filterMap f)).notBefore bound)) :
    (hull (l.filterMap g)).notBefore bound = (hull (l.filterMap f)).notBefore bound := by
  by_cases hx : x ∈ l
  · obtain ⟨a, b, rfl⟩ := List.append_of_mem hx
    obtain ⟨s, hs⟩ := Option.isSome_iff_exists.mp hf
    obtain ⟨_, hb, hd⟩ := List.nodup_append.mp hl
    have ha : a.filterMap g = a.filterMap f := List.filterMap_congr fun y hy =>
      (hfg y fun he => hd y hy x List.mem_cons_self he).symm
    have hb : b.filterMap g = b.filterMap f := List.filterMap_congr fun y hy =>
      (hfg y fun he => (List.nodup_cons.mp hb).1 (he ▸ hy)).symm
    have hsplit : ∀ t, hull (a.filterMap f ++ t :: b.filterMap f) =
        t.join (hull (a.filterMap f ++ b.filterMap f)) := fun t => by
      rw [hull_append, hull_cons, ← join_assoc, join_comm _ t, join_assoc, hull_append]
    have hjoin : hull ((a ++ x :: b).filterMap f) =
        s.join (hull (a.filterMap f ++ b.filterMap f)) := by
      rw [List.filterMap_append, List.filterMap_cons_some hs, hsplit]
    rw [hjoin] at hg ⊢
    rw [List.filterMap_append, List.filterMap_cons_some hg, ha, hb, hsplit]
    exact notBefore_join_notBefore s _ bound
  · rw [List.filterMap_congr fun y hy => (hfg y fun he => hx (he ▸ hy)).symm]

end Span

theorem Network.driftTo_congr {before : Network} {days days' : ItemId → Option Span} {y : ItemId}
    (h : days y = days' y) : before.driftTo days y = before.driftTo days' y := by
  rw [driftTo, driftTo, h]

theorem Network.driftTo_of_eq {before : Network} {days : ItemId → Option Span} {y : ItemId}
    (h : days y = before.span? y) : before.driftTo days y = 0 := by
  rw [driftTo, h]
  cases before.span? y with
  | none => rfl
  | some s => exact s.driftTo_self

theorem Network.driftTo_of_some {before : Network} {days : ItemId → Option Span} {y : ItemId}
    {span : Span} (h : days y = some span) :
    before.driftTo days y = (before.span? y).elim 0 (·.driftTo span) := by
  rw [driftTo, h]
  cases before.span? y <;> rfl

theorem Settled.drift_of_settled {s : Settled} {net : Network} {k : ItemId} {span : Span}
    (h : s.spans[k]? = some span) : s.drift net k = (net.span? k).elim 0 (·.driftTo span) := by
  rw [drift, h]
  cases net.span? k <;> rfl

theorem Settled.drift_of_unsettled {s : Settled} {net : Network} {k : ItemId}
    (h : s.spans[k]? = none) : s.drift net k = 0 := by
  rw [drift, h]
  cases net.span? k <;> rfl

theorem Network.spanAfter?_of_some {net : Network} {e : Edit} {o : Outcome} {x : ItemId}
    {before : Span} (h : (if x = e.id then (net.item? x).map fun stored => (e.applyTo stored).span
      else net.span? x) = some before) :
    net.spanAfter? e o x = some (((o.changes[x]?).map Slot.span).getD before) := by
  unfold spanAfter?
  cases o.changes[x]? with
  | some slot => rfl
  | none => exact h

namespace Pass
variable {p : Pass} {former : Option ItemId} {settings : Settings} {policy : PullPolicy} {x : ItemId}

theorem getElem?_changes : (p.changes settings)[x]? =
    (p.settled settings.policy).spans[x]?.bind fun span => match p.reference? x with
      | some before => if span = before then none else some (Slot.ofSpan span settings.placeholder)
      | none => none := by
  exact Std.ExtTreeMap.getElem?_filterMap'

/-- An outcome lists the settled items whose days differ from the ones to compare with. -/
theorem changes_eq_some {slot : Slot} : (p.changes settings)[x]? = some slot ↔
    ∃ before span, p.reference? x = some before ∧
      (p.settled settings.policy).spans[x]? = some span ∧ span ≠ before ∧
      slot = Slot.ofSpan span settings.placeholder := by
  rw [getElem?_changes, Option.bind_eq_some_iff]
  constructor
  · intro h
    obtain ⟨span, hspan, h⟩ := h
    split at h
    · rename_i before href
      split at h
      · cases h
      · rename_i hne
        exact ⟨before, span, href, hspan, hne, (Option.some.inj h).symm⟩
    · cases h
  · intro h
    obtain ⟨before, span, href, hspan, hne, hslot⟩ := h
    exact ⟨span, hspan, by rw [href, hslot]; exact if_neg hne⟩

theorem changes_getD {span before : Span} (hs : (p.settled settings.policy).spans[x]? = some span)
    (href : p.reference? x = some before) :
    (((p.changes settings)[x]?).map Slot.span).getD before = span := by
  rw [getElem?_changes, hs, Option.bind_some, href]
  by_cases he : span = before
  · simp [he]
  · simp [he, Slot.span_ofSpan]

/-- The days that an outcome leaves are the settled ones. -/
theorem spanAfter?_outcome {net : Network} {e : Edit} {stored : Item}
    (h : net.item? e.id = some stored) :
    net.spanAfter? e ((prepare net e stored).outcome settings) x =
      ((prepare net e stored).settled settings.policy).span? (prepare net e stored).working x := by
  have hready := ready_prepare h
  have hid : (prepare net e stored).root.id = e.id := id_root_prepare h
  have href : (prepare net e stored).reference? x =
      if x = e.id then (net.item? x).map fun stored => (e.applyTo stored).span
      else net.span? x := by
    rw [reference?, hid]
    split
    · rename_i hx
      rw [hx, h]
      rfl
    · rfl
  cases hs : ((prepare net e stored).settled settings.policy).spans[x]? with
  | some span =>
    have hbefore : ∃ before, (prepare net e stored).reference? x = some before := by
      unfold reference?
      split
      · exact ⟨_, rfl⟩
      · have hc := hready.contains_of_mem_settled hs
        rw [hready.contains_working, Network.contains_eq_isSome_span?] at hc
        exact Option.isSome_iff_exists.mp hc
    obtain ⟨before, hbefore⟩ := hbefore
    rw [Settled.span?_of_settled hs, Network.spanAfter?_of_some (href.symm.trans hbefore),
      changes_outcome, changes_getD hs hbefore]
  | none =>
    have hne : x ≠ (prepare net e stored).root.id := by
      rintro rfl
      rw [hready.settled_root] at hs; cases hs
    have hchanges : ((prepare net e stored).changes settings)[x]? = none := by
      rw [getElem?_changes, hs, Option.bind_none]
    rw [Settled.span?_of_unsettled hs, hready.span?_working hne, Network.spanAfter?,
      changes_outcome, hchanges]
    exact href.symm.trans (if_neg hne)

/-! ## The equations -/

namespace Ready
variable (hp : p.Ready former)
include hp

theorem days_of_unsettled (hx : x ≠ p.root.id) (hs : (p.settled policy).spans[x]? = none) :
    (p.settled policy).span? p.working x = p.before.span? x := by
  rw [Settled.span?_of_unsettled hs, hp.span?_working hx]

/-- What an ordered item reads in the middle of the pass, in terms of the final days. -/
theorem span?_without (hx : x ≠ p.root.id) (y : ItemId) :
    ((p.settled policy).without x).span? p.working y =
      p.before.seenBy ((p.settled policy).span? p.working) x y := by
  rw [Network.seenBy]
  split
  · rename_i hy
    rw [hy, Settled.span?_of_unsettled (by rw [Settled.getElem?_without, if_pos rfl]),
      hp.span?_working hx]
  · rename_i hy
    exact Settled.span?_congr (by rw [Settled.getElem?_without, if_neg (Ne.symm hy)])

theorem drift_without (y : ItemId) :
    ((p.settled policy).without x).drift p.before y =
      p.before.driftTo (p.before.seenBy ((p.settled policy).span? p.working) x) y := by
  by_cases hy : y = x
  · have hs : ((p.settled policy).without x).spans[y]? = none := by
      rw [Settled.getElem?_without, if_pos hy.symm]
    rw [Settled.drift_of_unsettled hs, Network.driftTo_of_eq]
    rw [Network.seenBy, if_pos hy]
  · have hs : ((p.settled policy).without x).spans[y]? = (p.settled policy).spans[y]? := by
      rw [Settled.getElem?_without, if_neg (Ne.symm hy)]
    rw [Settled.drift_congr hs]
    cases hspan : (p.settled policy).spans[y]? with
    | some span =>
      have hdays : p.before.seenBy ((p.settled policy).span? p.working) x y = some span := by
        rw [Network.seenBy, if_neg hy, Settled.span?_of_settled hspan]
      rw [Settled.drift_of_settled hspan, Network.driftTo_of_some hdays]
    | none =>
      have hroot : y ≠ p.root.id := by
        rintro rfl
        rw [hp.settled_root] at hspan; cases hspan
      rw [Settled.drift_of_unsettled hspan, Network.driftTo_of_eq]
      rw [Network.seenBy, if_neg hy, hp.days_of_unsettled hroot hspan]

theorem finalDays : FinalDays p.before p.working p.root p.agenda policy
    ((p.settled policy).span? p.working) := by
  have hordered : ∀ x ∈ p.agenda.order, ∃ item, p.before.span? x = some item.span ∧
      item.id = x ∧ (p.settled policy).span? p.working x =
        some (p.spanFor policy ((p.settled policy).without x) item) := by
    intro x hx
    obtain ⟨item, hi⟩ := Network.contains_iff.mp (hp.contains_of_mem_order hx)
    refine ⟨item, ?_, Network.id_of_item? hi, Settled.span?_of_settled (hp.settled_ordered hx hi)⟩
    rw [← hp.span?_working (hp.ne_root_of_mem_order hx)]
    exact Network.span?_of_item? hi
  have hbound : ∀ x ∈ p.agenda.order,
      p.working.soonestStartBy (((p.settled policy).without x).span? p.working) x =
        p.working.soonestStartBy (p.before.seenBy ((p.settled policy).span? p.working) x) x :=
    fun x hx => congrArg (p.working.soonestStartBy · x)
      (funext fun y => hp.span?_without (hp.ne_root_of_mem_order hx) y)
  constructor
  case atRoot => exact Settled.span?_of_settled hp.settled_root
  case unordered =>
    intro x hx ho
    exact hp.days_of_unsettled hx (settled_of_not_mem_order hx ho)
  case parent =>
    intro x hx hc
    obtain ⟨item, hstored, rfl, hspan⟩ := hordered x hx
    have hne := hp.ne_root_of_mem_order hx
    simp only [spanFor, hc, if_true, hbound item.id hx] at hspan
    -- the hull was taken over the days as seen by the item; its own share may be the final one
    rw [hspan, Span.notBefore_hull_of_eq (x := item.id) ?_ ?_ ?_ hspan]
    · exact Network.nodup_childrenOf
    · intro y hy
      rw [hp.span?_without hne, Network.seenBy, if_neg hy]
    · rw [hp.span?_without hne, Network.seenBy, if_pos rfl, hstored]; rfl
  case follower =>
    intro x hx hc hr
    obtain ⟨item, hstored, rfl, hspan⟩ := hordered x hx
    refine ⟨item.span, hstored, ?_⟩
    rw [hspan]
    simp only [spanFor, hc, hr, hbound item.id hx, if_true, Bool.false_eq_true, if_false]
    rw [List.map_congr_left fun l _ => hp.drift_without l.predecessor]
  case ancestor =>
    intro x hx hc hr
    obtain ⟨item, hstored, rfl, hspan⟩ := hordered x hx
    rw [hspan, hstored]
    simp [spanFor, hc, hr]

end Ready

end Pass

/-- **The days after an edit solve the equations of its pass.** -/
theorem Network.reflow_finalDays {net : Network} {settings : Settings} {e : Edit} {o : Outcome}
    (h : net.reflow settings e = .ok o) (ht : e.touched.isEmpty = false) :
    ∃ stored, net.item? e.id = some stored ∧
      let root := Pass.seed net e (e.applyTo stored)
      let working := net.insert root
      let agenda := Agenda.ofChange working e.id (Pass.formerParent e stored (e.applyTo stored))
      FinalDays net working root agenda settings.policy (net.spanAfter? e o) := by
  obtain ⟨p, hp, ho⟩ := Network.reflow_eq_ok.mp h
  obtain ⟨_, stored, hstored, _, rfl⟩ := Network.pass?_eq_ok.mp hp
  rw [ht, if_neg Bool.false_ne_true] at ho
  have hdays : net.spanAfter? e o = ((Pass.prepare net e stored).settled settings.policy).span?
      (Pass.prepare net e stored).working :=
    funext fun x => ho ▸ Pass.spanAfter?_outcome hstored
  refine ⟨stored, hstored, ?_⟩
  rw [hdays, ← Pass.id_root_prepare hstored]
  exact (Pass.ready_prepare hstored).finalDays

/-! ## A small plan -/

/-- Framing is all there is to the shell. -/
def shellItems : List Item :=
  [{ id := ⟨"frame"⟩, start := Date.ofDay? 6, due := Date.ofDay? 8, parent := some ⟨"shell"⟩ },
    { id := ⟨"pour"⟩, due := Date.ofDay? 5 },
    { id := ⟨"shell"⟩, start := Date.ofDay? 6, due := Date.ofDay? 8 }]

def shellLinks : List Link := [{ predecessor := ⟨"pour"⟩, successor := ⟨"frame"⟩ }]

def shellPlan : Network := .ofLists shellItems shellLinks

/-- The pour is due four days later. -/
def pourLater : Edit := ({ id := ⟨"pour"⟩ } : Edit).withDue (Date.ofDay? 9)

/-- Framing moves by as many days, and the shell with it. -/
def shellLater : Outcome where
  changes := .ofList [(ItemId.mk "frame", Slot.mk (Date.ofDay? 10) (Date.ofDay? 12) 3),
    (ItemId.mk "shell", Slot.mk (Date.ofDay? 10) (Date.ofDay? 12) 3)]
  delta := 4

theorem reflow_shellPlan : shellPlan.reflow {} pourLater = .ok shellLater := by decide +kernel

theorem finalDays_shellPlan :
    shellPlan.reflow {} pourLater = .ok shellLater ∧ pourLater.touched.isEmpty = false ∧
      ∃ stored, shellPlan.item? pourLater.id = some stored ∧
        let root := Pass.seed shellPlan pourLater (pourLater.applyTo stored)
        let working := shellPlan.insert root
        let agenda := Agenda.ofChange working pourLater.id
          (Pass.formerParent pourLater stored (pourLater.applyTo stored))
        FinalDays shellPlan working root agenda .follow
          (shellPlan.spanAfter? pourLater shellLater) :=
  ⟨reflow_shellPlan, rfl, Network.reflow_finalDays reflow_shellPlan rfl⟩

end WorkPlan
