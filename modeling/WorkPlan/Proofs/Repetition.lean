import WorkPlan.Proofs.Consistency

/-! # A second look changes nothing

A pass leaves the items that it computes at rest (`CarriedOut.atRest`): parents have the hull of their
children, and followers start behind their bounds, so a pass in which nothing moves has nothing to do
for them. Another look at the dates of the same root is such a pass. It concerns no item that the
first pass did not concern, though it may concern fewer, as no former parent is left behind. Hence it
changes nothing (`Network.reflow_again`). -/

namespace WorkPlan

/-! ## Items at rest -/

/-- Whether a pass in which nothing else moves leaves an item where it is: an item with children has
their hull, and one without, if it is a follower, need not yield. -/
structure Network.AtRest (net : Network) (x : ItemId) (follows : Prop) : Prop where
  parent : net.hasChildren x = true → net.span? x = some
    ((Span.hull ((net.childrenOf x).filterMap net.span?)).notBefore (net.soonestStart x))
  follower : net.hasChildren x = false → follows →
    ∀ span, net.span? x = some span → span.yieldTo (net.soonestStart x) 0 = span

theorem Network.AtRest.imp {net : Network} {x : ItemId} {follows follows' : Prop}
    (h : net.AtRest x follows) (hf : follows' → follows) : net.AtRest x follows' :=
  ⟨h.parent, fun hc hx => h.follower hc (hf hx)⟩

namespace Settled
variable {s : Settled} {net : Network} {k : ItemId} {span : Span}

/-- Whether all settled days are the ones that a network holds. -/
def Agrees (s : Settled) (net : Network) : Prop :=
  ∀ k span, s.spans[k]? = some span → net.span? k = some span

theorem Agrees.span?_eq (h : s.Agrees net) : s.span? net k = net.span? k := by
  cases hs : s.spans[k]? with
  | some span => rw [span?_of_settled hs, h k span hs]
  | none => exact span?_of_unsettled hs

theorem Agrees.drift_eq (h : s.Agrees net) : s.drift net k = 0 := by
  cases hs : s.spans[k]? with
  | some span => rw [drift_of_settled hs, h k span hs, Option.elim_some, Span.driftTo_self]
  | none => exact drift_of_unsettled hs

theorem Agrees.settle (h : s.Agrees net) (hk : net.span? k = some span) :
    (s.settle k span).Agrees net := by
  intro j other hj
  rw [getElem?_settle] at hj
  split at hj
  · rename_i hnew
    rw [← hnew.1, hk, hj]
  · exact h j other hj

end Settled

/-! ## A pass in which nothing moves -/

namespace Pass

/-- A pass that takes its root as the network has it. -/
structure Idle (p : Pass) : Prop where
  root : p.before.item? p.root.id = some p.root
  stored : p.stored = p.root
  applied : p.applied = p.root
  working : p.working = p.before

namespace Idle
variable {p : Pass} {policy : PullPolicy} {s : Settled} {x : ItemId} {item : Item} (h : p.Idle)
include h

theorem spanFor_eq (hs : s.Agrees p.before) (hi : p.before.item? x = some item)
    (hrest : p.before.AtRest x (p.agenda.roles[x]? = some .follower)) :
    p.spanFor policy s item = item.span := by
  obtain rfl := Network.id_of_item? hi
  have hspan : s.span? p.before = p.before.span? := funext fun _ => hs.span?_eq
  have hpull : policy.pull ((p.before.bindingLinks item.id).map fun l =>
      s.drift p.before l.predecessor) = 0 := by
    refine PullPolicy.pull_eq_zero fun n hn => ?_
    obtain ⟨l, _, rfl⟩ := List.mem_map.mp hn
    exact Int.le_of_eq hs.drift_eq.symm
  have hitem := Network.span?_of_item? hi
  simp only [spanFor, h.working, hspan, hpull]
  cases hc : p.before.hasChildren item.id with
  | true =>
    rw [if_pos rfl]
    exact Option.some.inj ((hrest.parent hc).symm.trans hitem)
  | false =>
    rw [if_neg Bool.false_ne_true]
    split
    · rename_i hf
      exact hrest.follower hc hf _ hitem
    · rfl

variable (hrest : ∀ x ∈ p.agenda.order, p.before.AtRest x (p.agenda.roles[x]? = some .follower))
include hrest

theorem agrees_settled : (p.settled policy).Agrees p.before := by
  have hsteps : ∀ ids : List ItemId, ids ⊆ p.agenda.order → ∀ s : Settled, s.Agrees p.before →
      (ids.foldl (p.step policy) s).Agrees p.before := by
    intro ids
    induction ids with
    | nil => exact fun _ s hs => hs
    | cons x rest ih =>
      intro hids s hs
      obtain ⟨hx, hrest'⟩ := List.cons_subset.mp hids
      refine ih hrest' _ ?_
      cases hi : p.working.item? x with
      | none =>
        rw [step, hi]
        exact hs
      | some item =>
        rw [step_of_item? hi]
        rw [h.working] at hi
        rw [h.spanFor_eq hs hi (hrest x hx)]
        exact hs.settle (Network.span?_of_item? hi)
  refine hsteps p.agenda.order (List.Subset.refl _) _ (Settled.Agrees.settle ?_ ?_)
  · intro k span hk
    cases Std.ExtTreeMap.getElem?_empty.symm.trans hk
  · exact Network.span?_of_item? h.root

theorem outcome_eq (settings : Settings) :
    (p.outcome settings).changes = ∅ ∧ (p.outcome settings).delta = 0 := by
  rw [changes_outcome, delta_outcome, h.stored, Span.driftTo_self]
  refine ⟨?_, rfl⟩
  refine Std.ExtTreeMap.ext_getElem? fun x => ?_
  rw [Std.ExtTreeMap.getElem?_empty, getElem?_changes]
  cases hs : (p.settled settings.policy).spans[x]? with
  | none => rfl
  | some span =>
    have hspan := h.agrees_settled hrest x span hs
    have href : p.reference? x = some span := by
      rw [reference?]
      split
      · rename_i hx
        rw [h.applied, ← hspan, hx, Network.span?_of_item? h.root]
      · exact hspan
    rw [Option.bind_some, href]
    exact if_pos rfl

end Idle

def again (net : Network) (x : Item) : Pass := ⟨net, x, x, x, net, Agenda.ofChange net x.id none⟩

theorem idle_again {net : Network} {x : Item} (h : net.item? x.id = some x) : (again net x).Idle :=
  ⟨h, rfl, rfl, rfl⟩

end Pass

/-! ## The look after a commit -/

/-- Whether an edit only asks for another look at the dates of an item: it touches both and proposes
nothing. -/
structure Edit.Rechecks (e : Edit) (id : ItemId) : Prop where
  id : e.id = id
  touched : e.touched = { start := true, due := true }
  proposed : e.proposed = {}

namespace Edit.Rechecks
variable {e : Edit} {id : ItemId} {net : Network} {stored : Item} (h : e.Rechecks id)
include h

theorem applyTo_eq : e.applyTo stored = stored := by
  simp [Edit.applyTo, h.proposed]

theorem touches_parent : e.touches .parent = false := by
  rw [Edit.touches, h.touched]; rfl

theorem prepare_eq (hi : net.item? id = some stored) :
    Pass.prepare net e stored = Pass.again net stored := by
  obtain rfl := Network.id_of_item? hi
  simp only [Pass.prepare, Pass.again, Pass.seed, Pass.formerParent, h.applyTo_eq, h.touches_parent,
    Network.insert_of_item? hi, Bool.false_and, Bool.false_eq_true, if_false]

theorem reflow_eq {settings : Settings} (hb : id.isBlank = false) (hi : net.item? id = some stored) :
    net.reflow settings e = .ok ((Pass.again net stored).outcome settings) := by
  refine Network.reflow_eq_ok.mpr ⟨_, Network.pass?_eq_ok.mpr
    ⟨h.id ▸ hb, stored, h.id ▸ hi, ?_, h.prepare_eq hi⟩, ?_⟩
  · rw [h.touches_parent]
    exact nofun
  · rw [h.touched]; rfl

end Edit.Rechecks

namespace Network
variable {net after : Network} {root : ItemId} {former : Option ItemId}

/-- Without a parent that was left behind, a change leads to nothing more. -/
theorem Meets.withFormer {v : Visit} (h : net.Meets root none v) : net.Meets root former v := by
  refine h.induct meets_root ?_ fun v w _ hv hl hw => hv.leads hl hw
  intro _ hnone
  cases hnone

end Network

namespace Pass.CarriedOut
variable {p : Pass} {policy : PullPolicy} {after : Network} {former : Option ItemId} {x : ItemId}
  (hc : p.CarriedOut policy after) (hp : p.Ready former)
include hc hp

/-- What a pass has computed is at rest. -/
theorem atRest (ho : x ∈ p.agenda.order) (hself : ∀ l ∈ after.bindingLinks x, l.predecessor ≠ x) :
    after.AtRest x (p.agenda.roles[x]? = some .follower) := by
  refine ⟨hc.span?_parent hp ho hself, fun hleaf hf span hspan => ?_⟩
  obtain ⟨stored, _, hdays⟩ := hc.span?_follower hp ho hself hleaf hf
  rw [hdays] at hspan
  rw [← Option.some.inj hspan, Span.yieldTo_yieldTo]

theorem contains_root : after.contains p.root.id = true :=
  (hc.contains hp).trans hp.contains_root

theorem roles_again (hx : x ∈ (Agenda.ofChange after p.root.id none).roles) :
    x ∈ p.agenda.roles ∧ ((Agenda.ofChange after p.root.id none).roles[x]? = some .follower →
      p.agenda.roles[x]? = some .follower) := by
  have hshape := hc.sameShape hp
  have hroot := hc.contains_root hp
  rw [hp.agenda]
  constructor
  · obtain ⟨hne, role, hm⟩ := (Agenda.mem_roles hroot).mp hx
    exact (Agenda.mem_roles hp.contains_root).mpr ⟨hne, role, (hshape.meets_iff.mp hm).withFormer⟩
  · intro hf
    obtain ⟨hne, hm⟩ := (Agenda.roles_eq_follower hroot).mp hf
    exact (Agenda.roles_eq_follower hp.contains_root).mpr
      ⟨hne, (hshape.meets_iff.mp hm).withFormer⟩

/-- Another look orders only what the pass has ordered, if the pass left nothing stuck or no parent
behind. -/
theorem mem_order_again (hcyclic : former = none ∨ p.agenda.cyclic = [])
    (hx : x ∈ (Agenda.ofChange after p.root.id none).order) : x ∈ p.agenda.order := by
  rcases hcyclic with rfl | hcyclic
  · rwa [hp.agenda, ← (hc.sameShape hp).order_eq (hc.contains_root hp)]
  · have hroles := (hc.roles_again hp (Agenda.mem_order_or_cyclic.mp (Or.inl hx))).1
    exact hp.mem_order_of_mem_roles hroles (by simp [hcyclic])

end Pass.CarriedOut

/-- **Another look at the root of an edit changes nothing** once the edit is carried out. -/
theorem Network.reflow_again {net after : Network} {settings settings' : Settings} {e e' : Edit}
    {o : Outcome} (h : net.commit settings e = .ok (after, o)) (ht : e.touched.isEmpty = false)
    (hself : ∀ x ∈ after.itemList, ∀ l ∈ after.bindingLinks x.id, l.predecessor ≠ x.id)
    (hcycle : e.touches .parent = false ∨ ∀ items, .cycle items ∉ o.issues)
    (he : e'.Rechecks e.id) :
    ∃ o', after.reflow settings' e' = .ok o' ∧ o'.changes = ∅ ∧ o'.delta = 0 := by
  obtain ⟨p, hpass, _, hid, _, rfl, hc⟩ := Pass.carriedOut_of_commit h ht
  obtain ⟨hblank, stored, hstored, _, rfl⟩ := pass?_eq_ok.mp hpass
  have hp := Pass.ready_prepare hstored
  have hcyclic : Pass.formerParent e stored (e.applyTo stored) = none ∨
      (Pass.prepare net e stored).agenda.cyclic = [] := by
    refine hcycle.imp (fun hparent => ?_) fun hissues => ?_
    · rw [Pass.formerParent, hparent, Bool.false_and, if_neg Bool.false_ne_true]
    · by_contra hne
      exact hissues _ (hp.cycle_mem_issues.mpr ⟨hne, rfl⟩)
  obtain ⟨item, hitem⟩ := contains_iff.mp (hid ▸ hc.contains_root hp)
  have hitemid := id_of_item? hitem
  refine ⟨_, he.reflow_eq hblank hitem, (Pass.idle_again (hitemid ▸ hitem)).outcome_eq ?_ settings'⟩
  intro x hx
  change x ∈ (Agenda.ofChange after item.id none).order at hx
  change after.AtRest x ((Agenda.ofChange after item.id none).roles[x]? = some .follower)
  rw [hitemid, ← hid] at hx ⊢
  have hroles := Agenda.mem_order_or_cyclic.mp (Or.inl hx)
  obtain ⟨y, hy⟩ := contains_iff.mp (Agenda.contains_of_mem_roles (hc.contains_root hp) hroles)
  obtain rfl := id_of_item? hy
  exact (hc.atRest hp (hc.mem_order_again hp hcyclic hx) (hself y (mem_itemList.mpr hy))).imp
    (hc.roles_again hp hroles).2

def taskAgain : Edit := { id := ⟨"task"⟩, touched := { start := true, due := true } }

theorem unchanged_dueSurveyPlan :
    surveyPlan.commit {} taskDue = .ok (dueSurveyPlan, dueSurvey) ∧
      taskDue.touched.isEmpty = false ∧
      (∀ x ∈ dueSurveyPlan.itemList, ∀ l ∈ dueSurveyPlan.bindingLinks x.id, l.predecessor ≠ x.id) ∧
      (taskDue.touches .parent = false ∨ ∀ items, .cycle items ∉ dueSurvey.issues) ∧
      taskAgain.Rechecks taskDue.id ∧
      ∃ o', dueSurveyPlan.reflow { policy := .hold } taskAgain = .ok o' ∧ o'.changes = ∅ ∧
        o'.delta = 0 := by
  have hcommit : surveyPlan.commit {} taskDue = .ok (dueSurveyPlan, dueSurvey) := by decide +kernel
  have hself : ∀ x ∈ dueSurveyPlan.itemList, ∀ l ∈ dueSurveyPlan.bindingLinks x.id,
      l.predecessor ≠ x.id := by decide +kernel
  have hcycle : taskDue.touches .parent = false ∨ ∀ items, .cycle items ∉ dueSurvey.issues :=
    Or.inr fun _ => List.not_mem_nil
  have hagain : taskAgain.Rechecks taskDue.id := ⟨rfl, rfl, rfl⟩
  exact ⟨hcommit, rfl, hself, hcycle, hagain,
    Network.reflow_again hcommit rfl hself hcycle hagain⟩

end WorkPlan
