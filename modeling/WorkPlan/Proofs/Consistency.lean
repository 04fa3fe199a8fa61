import WorkPlan.Proofs.Dependence
import WorkPlan.Proofs.Precedence

/-! # Consistent plans stay consistent

In a consistent plan every item keeps its bound, and every item with children has their hull, kept
behind its own bound; hence parents contain their children (`Consistent.nested`). If no chain of
dependencies closes, a commit of new dates for an item without children keeps a plan consistent
(`Consistent.commit`), and so does any number of them (`Consistent.commits`).

Each part of this rests on what the pass leaves alone. What the root depends on is not met, or a chain
would close, so the bound of the root stays. Of an item outside the order no child is met, or the item
would be met as their parent, so its hull stays. -/

namespace WorkPlan
open Relation

namespace Network
variable {net : Network} {x : ItemId}

/-- Whether the items of a network obey its links and hold its children. -/
structure Consistent (net : Network) : Prop where
  bound : ∀ x ∈ net.itemList, net.KeepsBound x.id
  hull : ∀ x ∈ net.itemList, net.hasChildren x.id = true → x.span =
    (Span.hull ((net.childrenOf x.id).filterMap net.span?)).notBefore (net.soonestStart x.id)

instance (net : Network) : Decidable net.Consistent :=
  decidable_of_iff (_ ∧ _) ⟨fun h => ⟨h.1, h.2⟩, fun h => ⟨h.bound, h.hull⟩⟩

/-- Whether every item with an existing parent lies within the days of that parent. -/
def Nested (net : Network) : Prop :=
  ∀ x ∈ net.itemList, ∀ parent ∈ net.itemList, x.parent = some parent.id →
    parent.span.Contains x.span

theorem consistent_iff : net.Consistent ↔ (∀ x, net.KeepsBound x) ∧
    ∀ x, net.contains x = true → net.hasChildren x = true → net.span? x = some
      ((Span.hull ((net.childrenOf x).filterMap net.span?)).notBefore (net.soonestStart x)) := by
  constructor
  · intro h
    constructor
    · intro x
      cases hx : net.item? x with
      | some item =>
        obtain ⟨hmem, rfl⟩ := mem_itemList_of_item? hx
        exact h.bound item hmem
      | none =>
        rw [KeepsBound, span?, hx]
        simp
    · intro x hc hchildren
      obtain ⟨item, hx⟩ := contains_iff.mp hc
      obtain ⟨hmem, rfl⟩ := mem_itemList_of_item? hx
      rw [span?_of_item? hx, h.hull item hmem hchildren]
  · rintro ⟨hbound, hhull⟩
    refine ⟨fun x _ => hbound x.id, fun x hx hchildren => ?_⟩
    have hitem := mem_itemList.mp hx
    exact Option.some.inj ((span?_of_item? hitem).symm.trans
      (hhull x.id (contains_iff.mpr ⟨x, hitem⟩) hchildren))

/-- A child keeps its own bound, and that asks for no less than the bound of its parent. -/
theorem Consistent.nested (h : net.Consistent) : net.Nested := by
  intro x hx parent hparent hp
  have hitem := mem_itemList.mp hx
  have hpitem := mem_itemList.mp hparent
  have hpx : net.parent? x.id = some parent.id := (parent?_of_item? hitem).trans hp
  have hinside : net.Inside x.id parent.id :=
    inside_iff.mpr ⟨hpx, contains_iff.mpr ⟨parent, hpitem⟩⟩
  have hhull : (Span.hull ((net.childrenOf parent.id).filterMap net.span?)).Contains x.span :=
    Span.hull_contains (List.mem_filterMap.mpr
      ⟨x.id, mem_childrenOf.mpr hpx, span?_of_item? hitem⟩)
  rw [h.hull parent hparent (hasChildren_iff.mpr ⟨x.id, hpx⟩)]
  exact (Span.notBefore_containsBehind hhull _).contains fun d hd =>
    (h.bound x hx).within_of_inside hinside (span?_of_item? hitem) hd

end Network

/-! ## A pass for an item without children -/

namespace Pass

/-- A root that stays in its parent, or leaves it for the top, loosens the network at most. -/
theorem Ready.loosens_working {p : Pass} {former : Option ItemId} (hp : p.Ready former)
    (h : p.root.parent = none ∨ p.root.parent = p.stored.parent) :
    p.working.Loosens p.before where
  links := by rw [hp.working, Network.links_insert]
  contains _ := hp.contains_working
  parent x q hq := by
    rw [hp.working, Network.parent?_insert] at hq
    split at hq
    · rename_i hx
      rcases h with hnone | hsame
      · cases hnone.symm.trans hq
      · rw [← hx, Network.parent?_of_item? hp.stored, ← hsame, hq]
    · exact hq

/-- A pass in which the root has no children and stays where it is, in a plan where no chain of
dependencies closes. -/
structure AtLeaf (p : Pass) : Prop extends p.Ready none where
  parent : p.root.parent = p.stored.parent
  leaf : p.before.hasChildren p.root.id = false
  acyclic : p.before.Acyclic

namespace AtLeaf
variable {p : Pass} {x y : ItemId} {l : Link} (h : p.AtLeaf)
include h

theorem parent?_working : p.working.parent? x = p.before.parent? x :=
  (h.sameShape h.parent).parent? x

theorem acyclic_working : p.working.Acyclic :=
  h.acyclic.loosens (h.loosens_working (Or.inr h.parent))

theorem childrenOf_working : p.working.childrenOf x = p.before.childrenOf x :=
  (h.sameShape h.parent).childrenOf_eq

theorem cyclic_eq_nil : p.agenda.cyclic = [] := by
  rw [h.agenda]
  exact Agenda.cyclic_eq_nil h.acyclic_working.orderable

theorem mem_order : x ∈ p.agenda.order ↔ x ∈ p.agenda.roles :=
  ⟨h.mem_roles_of_mem_order, fun hr => h.mem_order_of_mem_roles hr (by simp [h.cyclic_eq_nil])⟩

theorem not_inside_root (hx : x ≠ p.root.id) : ¬ ReflTransGen p.working.Inside x p.root.id := by
  intro hr
  rcases ReflTransGen.cases_tail hr with he | ⟨c, _, hc⟩
  · exact hx he.symm
  · refine Network.hasChildren_eq_false_iff.mp h.leaf c ?_
    rw [← h.parent?_working]
    exact (Network.inside_iff.mp hc).1

/-- What the root depends on is not met, or a chain of dependencies would close. -/
theorem not_mem_order_of_dependsOn (hd : p.working.DependsOn p.root.id y) :
    y ≠ p.root.id ∧ y ∉ p.agenda.order := by
  refine ⟨fun he => h.acyclic_working _ (.single (he ▸ hd)), fun ho => ?_⟩
  obtain ⟨_, hmeets⟩ := h.exists_meets (Or.inr (h.mem_order.mp ho))
  exact h.acyclic_working _ (.head' hd (hmeets.dependsOn_root h.contains_root).1)

/-- The parent of an item that is met is met. -/
theorem mem_order_of_child (hx : x ≠ p.root.id) (hc : p.working.contains x = true)
    (hy : p.working.parent? y = some x) (hm : y = p.root.id ∨ y ∈ p.agenda.order) :
    x ∈ p.agenda.order := by
  obtain ⟨role, hrole⟩ := h.exists_meets (hm.imp id h.mem_order.mp)
  rw [h.mem_order, h.agenda]
  exact (Agenda.mem_roles h.contains_root).mpr
    ⟨hx, .ancestor, hrole.leads (.parent (Network.inside_iff.mpr ⟨hy, hc⟩)) hx⟩

variable {policy : PullPolicy} {after : Network} (hc : p.CarriedOut policy after)
include hc

theorem parent?_after : after.parent? x = p.before.parent? x :=
  (hc.parent x).trans h.parent?_working

theorem contains_after : after.contains x = p.before.contains x :=
  (hc.contains h.toReady).trans h.contains_working

theorem acyclic_after : after.Acyclic :=
  h.acyclic_working.loosens (.of_sameShape (hc.sameShape h.toReady))

theorem predecessor_ne_after (hl : l ∈ after.bindingLinks x) : l.predecessor ≠ x :=
  (h.acyclic_after hc).predecessor_ne hl

theorem soonestStart_root : after.soonestStart p.root.id = p.before.soonestStart p.root.id := by
  have hsame : ∀ {l}, l ∈ after.bindingLinks p.root.id ↔ l ∈ p.before.bindingLinks p.root.id :=
    Network.mem_bindingLinks_congr (fun _ => by rw [hc.links, h.working, Network.links_insert])
      fun _ _ _ => Network.inside_congr (h.parent?_after hc) (h.contains_after hc)
  refine Network.soonestStartBy_congr (fun _ => hsame) fun l hl => ?_
  obtain ⟨hne, ho⟩ := h.not_mem_order_of_dependsOn
    (Network.dependsOn_predecessor ((hc.mem_bindingLinks h.toReady).mp hl))
  exact hc.span?_of_not_mem_order h.toReady hne ho

theorem keepsBound (hkept : ∀ x, p.before.KeepsBound x)
    (hroot : ∀ d, p.root.start = some d → Date.Within (p.before.soonestStart p.root.id) (some d)) :
    after.KeepsBound x := by
  by_cases hx : x = p.root.id
  · rw [hx, Network.keepsBound_iff (hc.finalDays h.toReady).atRoot, h.soonestStart_root hc]
    exact hroot
  · exact hc.keepsBound_of_not_inside h.toReady (h.not_inside_root hx)
      (by simp [h.cyclic_eq_nil]) (fun _ hl => h.predecessor_ne_after hc hl) (hkept x)

theorem span?_parent (hhull : ∀ x, p.before.contains x = true → p.before.hasChildren x = true →
      p.before.span? x = some ((Span.hull ((p.before.childrenOf x).filterMap
        p.before.span?)).notBefore (p.before.soonestStart x)))
    (hcontains : after.contains x = true) (hchildren : after.hasChildren x = true) :
    after.span? x = some ((Span.hull ((after.childrenOf x).filterMap after.span?)).notBefore
      (after.soonestStart x)) := by
  by_cases ho : x ∈ p.agenda.order
  · exact hc.span?_parent h.toReady ho (fun _ hl => h.predecessor_ne_after hc hl) hchildren
  · rw [hc.hasChildren] at hchildren
    rw [hc.childrenOf]
    have hbefore : p.before.hasChildren x = true := by
      rw [Network.hasChildren, ← h.childrenOf_working]
      exact hchildren
    have hx : x ≠ p.root.id := by
      rintro rfl
      rw [h.leaf] at hbefore; cases hbefore
    have hin : p.working.contains x = true := (hc.contains h.toReady).symm.trans hcontains
    -- no child is met, and no predecessor: the hull and the bound are those of before
    have hspans : (p.working.childrenOf x).filterMap after.span? =
        (p.before.childrenOf x).filterMap p.before.span? := by
      rw [h.childrenOf_working]
      refine List.filterMap_congr fun y hy => ?_
      have hy : p.working.parent? y = some x :=
        h.parent?_working.trans (Network.mem_childrenOf.mp hy)
      obtain ⟨hroot, horder⟩ := not_or.mp fun hm => ho (h.mem_order_of_child hx hin hy hm)
      exact hc.span?_of_not_mem_order h.toReady hroot horder
    have hf : p.agenda.roles[x]? ≠ some .follower := fun hf =>
      ho (h.mem_order.mpr
        (Std.ExtTreeMap.mem_iff_isSome_getElem?.mpr (Option.isSome_of_eq_some hf)))
    rw [hspans, hc.soonestStart_of_not_follower h.toReady (h.not_inside_root hx) hf hin,
      hc.span?_of_not_mem_order h.toReady hx ho]
    exact hhull x (h.contains_working.symm.trans hin) hbefore

end AtLeaf

end Pass

/-! ## Edits, and how many of them there may be -/

/-- An edit that leaves an item without children where it is. The start that the item takes from it,
its own or the first one that its parent allows, is not before what the network asks of the item. -/
structure LeafEdit (net : Network) (e : Edit) : Prop where
  touched : e.touched.isEmpty = false
  parent : e.proposed.parent = false
  leaf : net.hasChildren e.id = false
  start : ∀ stored ∈ net.item? e.id, ∀ d ∈ (Pass.seed net e (e.applyTo stored)).start,
    Date.Within (net.soonestStart e.id) (some d)

/-- Whether some number of such edits, each carried out with settings of its own, leads from one
network to another. -/
inductive LeafCommits (first : Network) : Network → Prop
  | none : LeafCommits first first
  | more {net after : Network} {settings : Settings} {e : Edit} {o : Outcome}
      (hbefore : LeafCommits first net) (he : LeafEdit net e)
      (h : net.commit settings e = .ok (after, o)) : LeafCommits first after

namespace Network
variable {net after : Network} {settings : Settings} {e : Edit} {o : Outcome}

/-- The pass of such an edit is one for an item without children. -/
theorem Acyclic.atLeaf {p : Pass} (h : net.Acyclic) (he : LeafEdit net e)
    (hp : net.pass? e = .ok p) : p.AtLeaf ∧ p.before = net ∧ p.root.id = e.id ∧
      ∀ d, p.root.start = some d → Date.Within (net.soonestStart e.id) (some d) := by
  obtain ⟨_, stored, hstored, _, rfl⟩ := pass?_eq_ok.mp hp
  have happlied : (e.applyTo stored).parent = stored.parent := by
    simp only [Edit.applyTo, he.parent, Bool.false_eq_true, if_false]
  have hformer : Pass.formerParent e stored (e.applyTo stored) = none := by
    rw [Pass.formerParent, happlied]
    simp
  have hid : (Pass.prepare net e stored).root.id = e.id := Pass.id_root_prepare hstored
  refine ⟨⟨hformer ▸ Pass.ready_prepare hstored, ?_, ?_, h⟩, rfl, hid, he.start stored hstored⟩
  · exact (Pass.parent_seed net e _).trans happlied
  · rw [hid]
    exact he.leaf

/-- **One commit keeps a plan consistent**, and no chain of dependencies closes or is reported. -/
theorem Consistent.commit (h : net.Consistent) (ha : net.Acyclic) (he : LeafEdit net e)
    (hcommit : net.commit settings e = .ok (after, o)) :
    after.Consistent ∧ after.Acyclic ∧ ∀ items, .cycle items ∉ o.issues := by
  obtain ⟨p, hpass, hbefore, hid, _, rfl, hc⟩ := Pass.carriedOut_of_commit hcommit he.touched
  obtain ⟨hleaf, _, _, hstart⟩ := ha.atLeaf he hpass
  obtain ⟨hbound, hhull⟩ := consistent_iff.mp h
  rw [← hbefore, ← hid] at hstart
  rw [← hbefore] at hbound hhull
  refine ⟨consistent_iff.mpr ⟨fun x => hleaf.keepsBound hc hbound hstart, fun x =>
    hleaf.span?_parent hc hhull⟩, hleaf.acyclic_after hc, fun items hi => ?_⟩
  exact (hleaf.cycle_mem_issues.mp hi).1 hleaf.cyclic_eq_nil

theorem Consistent.commits (h : net.Consistent) (ha : net.Acyclic) (hr : LeafCommits net after) :
    after.Consistent ∧ after.Acyclic := by
  induction hr with
  | none => exact ⟨h, ha⟩
  | more _ he hcommit ih =>
    obtain ⟨hafter, hacyclic, _⟩ := ih.1.commit ih.2 he hcommit
    exact ⟨hafter, hacyclic⟩

/-- **Every commit of a run keeps a consistent plan consistent**: no cycle is reported, and parents
contain their children. -/
theorem consistent_of_commits {first : Network} (h : first.Consistent) (ha : first.Acyclic)
    (hr : LeafCommits first net) (he : LeafEdit net e)
    (hcommit : net.commit settings e = .ok (after, o)) :
    after.Consistent ∧ (∀ items, .cycle items ∉ o.issues) ∧ after.Nested := by
  obtain ⟨hnet, hacyclic⟩ := h.commits ha hr
  obtain ⟨hafter, _, hissues⟩ := hnet.commit hacyclic he hcommit
  exact ⟨hafter, hissues, hafter.nested⟩

end Network

def pourSooner : Edit := ({ id := ⟨"pour"⟩ } : Edit).withDue (Date.ofDay? 7)

def soonerShellPlan : Network := .ofLists
  [{ id := ⟨"frame"⟩, start := Date.ofDay? 8, due := Date.ofDay? 10, parent := some ⟨"shell"⟩ },
    { id := ⟨"pour"⟩, due := Date.ofDay? 7 },
    { id := ⟨"shell"⟩, start := Date.ofDay? 8, due := Date.ofDay? 10 }]
  shellLinks

def soonerShell : Outcome where
  changes := .ofList [(ItemId.mk "frame", Slot.mk (Date.ofDay? 8) (Date.ofDay? 10) 3),
    (ItemId.mk "shell", Slot.mk (Date.ofDay? 8) (Date.ofDay? 10) 3)]
  delta := -2

theorem acyclic_shellPlan : shellPlan.Acyclic :=
  Network.acyclic_of_rank
    (fun id => if id = ⟨"pour"⟩ then 0 else if id = ⟨"frame"⟩ then 1 else 2) (by decide +kernel)

theorem consistent_shellPlan : shellPlan.Consistent := by decide +kernel

theorem leafEdit_pourLater : LeafEdit shellPlan pourLater :=
  ⟨by decide, by decide, by decide +kernel, by decide +kernel⟩

theorem consistent_soonerShellPlan :
    LeafCommits shellPlan laterShellPlan ∧ LeafEdit laterShellPlan pourSooner ∧
      laterShellPlan.commit {} pourSooner = .ok (soonerShellPlan, soonerShell) ∧
      soonerShellPlan.Consistent ∧ (∀ items, .cycle items ∉ soonerShell.issues) ∧
      soonerShellPlan.Nested := by
  have hrun : LeafCommits shellPlan laterShellPlan :=
    .more .none leafEdit_pourLater commit_shellPlan
  have hedit : LeafEdit laterShellPlan pourSooner :=
    ⟨by decide, by decide, by decide +kernel, by decide +kernel⟩
  have hcommit : laterShellPlan.commit {} pourSooner = .ok (soonerShellPlan, soonerShell) := by
    decide +kernel
  exact ⟨hrun, hedit, hcommit, Network.consistent_of_commits consistent_shellPlan
    acyclic_shellPlan hrun hedit hcommit⟩

/-! ## Edits that promise too little -/

/-- An edit that leaves an item without children where it is and proposes no start that is before what
the network asks of the item. What it touches is left open. -/
structure DateProposal (net : Network) (e : Edit) : Prop where
  dates : (e.proposed.start || e.proposed.due) = true
  parent : e.proposed.parent = false
  leaf : net.hasChildren e.id = false
  start : ∀ stored ∈ net.item? e.id, ∀ d ∈ (e.applyTo stored).start,
    Date.Within (net.soonestStart e.id) (some d)

/-- The task waits for a survey, and the phase that it is in for a permit. -/
def surveyPlan : Network := .ofLists
  [{ id := ⟨"permit"⟩, due := Date.ofDay? 5 }, { id := ⟨"phase"⟩ },
    { id := ⟨"survey"⟩, due := Date.ofDay? 10 }, { id := ⟨"task"⟩, parent := some ⟨"phase"⟩ }]
  [{ predecessor := ⟨"permit"⟩, successor := ⟨"phase"⟩ },
    { predecessor := ⟨"survey"⟩, successor := ⟨"task"⟩ }]

/-- A due day for the task, together with the word that its parent was touched. -/
def taskDue : Edit :=
  { ({ id := ⟨"task"⟩ } : Edit).withDue (Date.ofDay? 20) with touched.parent := true }

def dueSurveyPlan : Network := .ofLists
  [{ id := ⟨"permit"⟩, due := Date.ofDay? 5 },
    { id := ⟨"phase"⟩, start := Date.ofDay? 6, due := Date.ofDay? 20 },
    { id := ⟨"survey"⟩, due := Date.ofDay? 10 },
    { id := ⟨"task"⟩, start := Date.ofDay? 6, due := Date.ofDay? 20, parent := some ⟨"phase"⟩ }]
  [{ predecessor := ⟨"permit"⟩, successor := ⟨"phase"⟩ },
    { predecessor := ⟨"survey"⟩, successor := ⟨"task"⟩ }]

def dueSurvey : Outcome where
  changes := .ofList [(ItemId.mk "phase", Slot.mk (Date.ofDay? 6) (Date.ofDay? 20) 15),
    (ItemId.mk "task", Slot.mk (Date.ofDay? 6) (Date.ofDay? 20) 15)]

/-- A later due day for the pour, without the word that it was touched. -/
def pourUntouched : Edit := { pourLater with touched := {} }

/-- The pour is later, and nothing has followed it. -/
def stalePlan : Network := .ofLists
  [{ id := ⟨"frame"⟩, start := Date.ofDay? 6, due := Date.ofDay? 8, parent := some ⟨"shell"⟩ },
    { id := ⟨"pour"⟩, due := Date.ofDay? 9 },
    { id := ⟨"shell"⟩, start := Date.ofDay? 6, due := Date.ofDay? 8 }]
  shellLinks

/-- A root without a start takes the first one that its parent allows, which may be before its own
bound; and an edit that touches nothing is stored without a pass. -/
theorem inconsistent_after_dateProposal :
    (surveyPlan.Consistent ∧ surveyPlan.Acyclic ∧ DateProposal surveyPlan taskDue ∧
      (∃ o, surveyPlan.commit {} taskDue = .ok (dueSurveyPlan, o)) ∧ ¬ dueSurveyPlan.Consistent) ∧
    (shellPlan.Consistent ∧ shellPlan.Acyclic ∧ DateProposal shellPlan pourUntouched ∧
      (∃ o, shellPlan.commit {} pourUntouched = .ok (stalePlan, o)) ∧ ¬ stalePlan.Consistent) := by
  have hacyclic : surveyPlan.Acyclic := Network.acyclic_of_rank
    (fun id => if id = ⟨"phase"⟩ then 2 else if id = ⟨"task"⟩ then 1 else 0) (by decide +kernel)
  have htask : DateProposal surveyPlan taskDue :=
    ⟨by decide, by decide, by decide +kernel, by decide +kernel⟩
  have hpour : DateProposal shellPlan pourUntouched :=
    ⟨by decide, by decide, by decide +kernel, by decide +kernel⟩
  have hdue : surveyPlan.commit {} taskDue = .ok (dueSurveyPlan, dueSurvey) := by decide +kernel
  have hstale : shellPlan.commit {} pourUntouched = .ok (stalePlan, {}) := by decide +kernel
  exact ⟨⟨by decide +kernel, hacyclic, htask, ⟨_, hdue⟩, by decide +kernel⟩,
    consistent_shellPlan, acyclic_shellPlan, hpour, ⟨_, hstale⟩, by decide +kernel⟩

end WorkPlan
