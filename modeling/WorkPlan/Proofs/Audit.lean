import WorkPlan.Proofs.Consistency
import WorkPlan.Proofs.NewLink

/-! # What a clean audit is worth for a pass

An audit that finds nothing makes sure of the parents, of the ends of the links, and that no links run
in a circle (`intact_of_faults`). So a pass over the network meets nothing that is broken. It may still
meet items that wait for one another in a circle, because an item also waits for what its ancestors
follow and a parent for its children; but then one of the steps of the circle is no link
(`issues_of_faults_eq_nil`). -/

namespace WorkPlan
open Relation

namespace Network
variable {net net' : Network} {x y p : ItemId} {l : Link}

/-! ## What an audit makes sure of -/

/-- Whether parents and ends of links are items, and no links run in a circle. -/
structure Intact (net : Network) : Prop where
  parent : ∀ x p, net.parent? x = some p → net.contains p = true
  predecessor : ∀ l ∈ net.links, net.contains l.predecessor = true
  successor : ∀ l ∈ net.links, net.contains l.successor = true
  noCircle : ∀ x, ¬ TransGen net.Linked x x

/-- Whether links lead from `x` to a cycle of links. -/
def LeadsToCycle (net : Network) (x : ItemId) : Prop :=
  ∃ y, ReflTransGen net.Linked x y ∧ TransGen net.Linked y y

theorem mem_endless : x ∈ net.endless ↔ net.LeadsToCycle x := by
  refine Arrangement.mem_stuck_iff_reaches fun a b => ?_
  rw [← linked_iff]
  constructor
  · rintro ⟨l, hl, rfl, rfl⟩
    have hend : ∀ y ∈ [l.predecessor, l.successor],
        y ∈ (net.links.flatMap fun l => [l.predecessor, l.successor]).eraseDups := fun y hy =>
      List.mem_eraseDups.mpr (List.mem_flatMap.mpr ⟨l, hl, hy⟩)
    exact ⟨hend _ (by simp), ⟨l, hl, rfl, rfl⟩, hend _ (by simp)⟩
  · exact fun h => h.2.1

/-- An audit finds nothing exactly if none of its parts does. -/
theorem faults_eq_nil_iff_parts : net.faults = [] ↔
    ((∀ x ∈ net.itemList, net.itemFaults x = []) ∧ ∀ l ∈ net.links, net.faultsOfLink l = []) ∧
      net.cyclicItem? = none ∧ net.hierarchyCycles = [] := by
  simp only [faults, List.append_eq_nil_iff, List.flatMap_eq_nil_iff, List.map_eq_nil_iff,
    Option.toList_eq_nil_iff, and_assoc]

theorem faultsOfLink_eq_nil_iff : net.faultsOfLink l = [] ↔
    (net.contains l.predecessor = true ∧ net.contains l.successor = true) ∧
      l.predecessor ≠ l.successor ∧ net.inSameChain l.predecessor l.successor = false := by
  rw [faultsOfLink, List.append_eq_nil_iff, List.map_eq_nil_iff]
  refine and_congr (by simp) ?_
  by_cases hself : l.predecessor = l.successor
  · simp [Link.isLoop, hself]
  · simp [Link.isLoop, hself]

theorem intact_of_faults (h : net.faults = []) : net.Intact := by
  obtain ⟨⟨hitems, hlinks⟩, hcyclic, _⟩ := faults_eq_nil_iff_parts.mp h
  have hends : ∀ l ∈ net.links, net.contains l.predecessor = true ∧
      net.contains l.successor = true :=
    fun l hl => (faultsOfLink_eq_nil_iff.mp (hlinks l hl)).1
  constructor
  case parent =>
    intro x p hp
    obtain ⟨item, hitem, hp⟩ := Option.bind_eq_some_iff.mp hp
    have hmissing := (List.append_eq_nil_iff.mp
      (hitems item (mem_itemList.mpr (id_of_item? hitem ▸ hitem)))).2
    simpa [hp] using hmissing
  case predecessor => exact fun l hl => (hends l hl).1
  case successor => exact fun l hl => (hends l hl).2
  case noCircle =>
    intro x hx
    obtain ⟨_, ⟨l, hl, rfl, _⟩, _⟩ := TransGen.head'_iff.mp hx
    rw [cyclicItem?, List.find?_eq_none] at hcyclic
    have hfree := hcyclic l.predecessor (mem_ids.mpr (hends l hl).1)
    rw [decide_eq_true_eq] at hfree
    exact hfree (mem_endless.mpr ⟨_, .refl, hx⟩)

theorem Intact.issuesAt_eq_nil (h : net.Intact) : net.issuesAt x = [] := by
  rw [issuesAt, List.append_eq_nil_iff, List.map_eq_nil_iff, List.map_eq_nil_iff,
    Option.toList_eq_nil_iff]
  constructor
  · refine List.filter_eq_nil_iff.mpr fun l hl => ?_
    simp [h.successor l (mem_linksFrom.mp hl).1]
  · refine Option.filter_eq_none_iff.mpr fun p hp => ?_
    simp [h.parent x p hp]

theorem Intact.loosens (hnet : net.Intact) (h : net'.Loosens net) : net'.Intact where
  parent x p hp := (h.contains p).trans (hnet.parent x p (h.parent x p hp))
  predecessor l hl := (h.contains _).trans (hnet.predecessor l (h.links ▸ hl))
  successor l hl := (h.contains _).trans (hnet.successor l (h.links ▸ hl))
  noCircle := by
    have hlinked : net'.Linked = net.Linked := by
      funext x y
      rw [Linked, h.links, Linked]
    exact hlinked ▸ hnet.noCircle

end Network

/-! ## What a pass meets -/

/-- Items that are stuck wait for one another in a circle. If links run in none, one of its steps is no
link. -/
theorem Agenda.exists_unlinked_wait {net : Network} {root : ItemId} {former : Option ItemId}
    (hlinks : ∀ x, ¬ TransGen net.Linked x x) (h : (Agenda.ofChange net root former).cyclic ≠ []) :
    ∃ x ∈ (Agenda.ofChange net root former).cyclic, ∃ y ∈ (Agenda.ofChange net root former).cyclic,
      net.WaitsFor x y ∧ ¬ net.Linked y x ∧
        ReflTransGen (fun a b => net.WaitsFor a b ∧ b ∈ (Agenda.ofChange net root former).cyclic)
          y x := by
  obtain ⟨x, hx⟩ := List.exists_mem_of_ne_nil _ h
  obtain ⟨y, hy, hcircle⟩ := Arrangement.exists_circle hx
  have hwaits : TransGen (fun a b => net.WaitsFor a b ∧
      b ∈ (Agenda.ofChange net root former).cyclic) y y := by
    refine TransGen.mono (fun a b hab => ⟨?_, hab.2⟩) y y hcircle
    have hneed := List.mem_filter.mp hab.1
    exact ⟨hneed.1, of_decide_eq_true hneed.2⟩
  rcases Network.transGen_or_other_step (s := fun a b => net.Linked b a) hwaits with
    hlinked | ⟨a, b, ⟨hab, hb⟩, hother, hback⟩
  · exact absurd (transGen_swap.mp hlinked) (hlinks y)
  · have ha : a ∈ (Agenda.ofChange net root former).cyclic := by
      rcases ReflTransGen.cases_tail hback with rfl | ⟨_, _, _, ha⟩
      · exact hb
      · exact ha
    exact ⟨a, ha, b, hb, hab, hother, hback⟩

namespace Pass.Ready
variable {p : Pass} {former : Option ItemId} (hp : p.Ready former)
include hp

theorem mem_issues_of_intact (h : p.working.Intact) {i : Issue} (hi : i ∈ p.issues) :
    p.agenda.cyclic ≠ [] ∧ i = .cycle p.agenda.cyclic := by
  rcases mem_issues.mp hi with hi | hi | ⟨x, _, l, hl, hmissing, _⟩
  · rw [hp.agenda] at hi
    obtain ⟨x, _, hi⟩ := (Agenda.mem_issues hp.contains_root).mp hi
    rw [h.issuesAt_eq_nil] at hi
    cases hi
  · exact hi
  · rw [h.predecessor l (Network.mem_bindingLinks.mp hl).1] at hmissing
    cases hmissing

end Pass.Ready

/-- **A pass over a network that passed the audit meets nothing broken**, unless the edit puts the root
inside another item. All it can report is items that wait for one another in a circle in which a step is
no link, and where items never wait in a circle it reports nothing. -/
theorem Network.issues_of_faults_eq_nil {net : Network} {settings : Settings} {e : Edit}
    {o : Outcome} (hfaults : net.faults = []) (h : net.reflow settings e = .ok o)
    (hparent : ∀ stored ∈ net.item? e.id,
      (e.applyTo stored).parent = none ∨ (e.applyTo stored).parent = stored.parent) :
    (∀ i ∈ o.issues, ∃ items, i = .cycle items ∧ ∃ x ∈ items, ∃ y ∈ items,
      net.WaitsFor x y ∧ ¬ net.Linked y x ∧
        ReflTransGen (fun a b => net.WaitsFor a b ∧ b ∈ items) y x) ∧
    (net.Orderable → o.issues = []) := by
  obtain ⟨p, hpass, rfl⟩ := reflow_eq_ok.mp h
  split
  · exact ⟨fun i hi => absurd hi List.not_mem_nil, fun _ => rfl⟩
  · obtain ⟨_, stored, hstored, _, rfl⟩ := pass?_eq_ok.mp hpass
    have hp := Pass.ready_prepare hstored
    have hroot : (Pass.prepare net e stored).root.parent = (e.applyTo stored).parent :=
      Pass.parent_seed net e (e.applyTo stored)
    have hloose := hp.loosens_working (hroot ▸ hparent stored hstored)
    have hintact := (intact_of_faults hfaults).loosens hloose
    have hcycle : ∀ i ∈ ((Pass.prepare net e stored).outcome settings).issues,
        (Pass.prepare net e stored).agenda.cyclic ≠ [] ∧
          i = .cycle (Pass.prepare net e stored).agenda.cyclic := fun i hi =>
      hp.mem_issues_of_intact hintact (Pass.mem_issues_outcome.mp hi)
    constructor
    · intro i hi
      obtain ⟨hne, rfl⟩ := hcycle i hi
      rw [hp.agenda] at hne ⊢
      obtain ⟨x, hx, y, hy, hxy, hother, hback⟩ :=
        Agenda.exists_unlinked_wait hintact.noCircle hne
      refine ⟨_, rfl, x, hx, y, hy, hloose.waitsFor hxy, ?_, ReflTransGen.mono
        (fun _ _ hab => ⟨hloose.waitsFor hab.1, hab.2⟩) _ _ hback⟩
      exact fun ⟨l, hl, hends⟩ => hother ⟨l, hloose.links ▸ hl, hends⟩
    · intro horder
      refine List.eq_nil_iff_forall_not_mem.mpr fun i hi => (hcycle i hi).1 ?_
      rw [hp.agenda]
      exact Agenda.cyclic_eq_nil (horder.loosens hloose)

/-! ## A plan that passes the audit -/

/-- The inspection waits for the shell, and framing, which is inside the shell, for the inspection. -/
def stuckPlan : Network := inspectionPlan.addLink shellBeforeInspection

def permitAgain : Edit := { id := ⟨"permit"⟩, touched := { due := true } }

/-- Everything but the permit is left as it is. -/
def stuckOutcome : Outcome where
  issues := [.cycle [⟨"frame"⟩, ⟨"inspection"⟩, ⟨"shell"⟩]]

theorem unlinked_wait_stuckPlan :
    stuckPlan.faults = [] ∧ stuckPlan.reflow {} permitAgain = .ok stuckOutcome ∧
      (∀ stored ∈ stuckPlan.item? permitAgain.id,
        (permitAgain.applyTo stored).parent = none ∨
          (permitAgain.applyTo stored).parent = stored.parent) ∧
      (∀ i ∈ stuckOutcome.issues, ∃ items, i = .cycle items ∧ ∃ x ∈ items, ∃ y ∈ items,
        stuckPlan.WaitsFor x y ∧ ¬ stuckPlan.Linked y x ∧
          ReflTransGen (fun a b => stuckPlan.WaitsFor a b ∧ b ∈ items) y x) ∧
      (stuckPlan.Orderable → stuckOutcome.issues = []) := by
  have hfaults : stuckPlan.faults = [] := by decide +kernel
  have hreflow : stuckPlan.reflow {} permitAgain = .ok stuckOutcome := by decide +kernel
  have hparent : ∀ stored ∈ stuckPlan.item? permitAgain.id,
      (permitAgain.applyTo stored).parent = none ∨
        (permitAgain.applyTo stored).parent = stored.parent := by decide +kernel
  exact ⟨hfaults, hreflow, hparent, Network.issues_of_faults_eq_nil hfaults hreflow hparent⟩

/-- A network can pass the audit and still hold items that a pass reports as waiting for one another,
even if the edit proposes nothing. -/
theorem stuck_despite_audit :
    stuckPlan.faults = [] ∧ permitAgain.proposed = {} ∧
      ∃ o, stuckPlan.reflow {} permitAgain = .ok o ∧ o.issues ≠ [] :=
  ⟨by decide +kernel, rfl, stuckOutcome, by decide +kernel, by decide⟩

end WorkPlan
