import WorkPlan.Proofs.FaultCounts

/-! # The item that is named for a cycle of links

An audit names one item for all cycles of links: the smallest one that leads to any, which is where the
descent that finds a cycle began. It need not be part of a cycle (`named_off_cycle`). It is exactly if no
item that leads to a cycle is smaller than all that are on one, and it always is where no link leads into a
cycle from outside (`named_of_cyclicDependency`). -/

namespace WorkPlan
open Relation

namespace Network
variable {net : Network} {x y : ItemId}

def OnCycle (net : Network) (x : ItemId) : Prop := TransGen net.Linked x x

theorem OnCycle.leadsToCycle (h : net.OnCycle x) : net.LeadsToCycle x := ⟨x, .refl, h⟩

/-- Where no link leads into a cycle from outside, what leads to a cycle is on one. -/
theorem LeadsToCycle.onCycle (h : net.LeadsToCycle x)
    (hinto : ∀ l ∈ net.links, net.OnCycle l.successor → net.OnCycle l.predecessor) : net.OnCycle x := by
  obtain ⟨y, hxy, hy⟩ := h
  induction hxy using ReflTransGen.head_induction_on with
  | refl => exact hy
  | head hab _ ih =>
    obtain ⟨l, hl, rfl, rfl⟩ := hab
    exact hinto l hl ih

theorem mem_faults_cyclicDependency :
    .cyclicDependency x ∈ net.faults ↔ net.cyclicItem? = some x := by
  have hkind : Fault.cyclicDependency x ∈ net.faults ↔
      .cyclicDependency x ∈ net.faults.filter (·.kind = .cyclicDependency) := by
    rw [List.mem_filter, decide_eq_true_eq]
    exact (and_iff_left rfl).symm
  rw [hkind, filter_faults_cyclicDependency, List.mem_map]
  simp only [Fault.cyclicDependency.injEq, exists_eq_right, Option.mem_toList]

/-- **Which item an audit names for a cycle of links.** It is the one from which a descent finds a cycle:
the smallest item that leads to any. It is on a cycle exactly if each item that leads to a cycle has one on a
cycle that is no greater, and so if no link leads into a cycle from outside. -/
theorem named_of_cyclicDependency (h : .cyclicDependency x ∈ net.faults) :
    net.descend = some (some x) ∧
      (net.contains x = true ∧ net.LeadsToCycle x ∧
        ∀ y, net.contains y = true → net.LeadsToCycle y → x ≤ y) ∧
      (net.OnCycle x ↔ ∀ y, net.contains y = true → net.LeadsToCycle y →
        ∃ z, z ≤ y ∧ net.contains z = true ∧ net.OnCycle z) ∧
      ((∀ l ∈ net.links, net.OnCycle l.successor → net.OnCycle l.predecessor) → net.OnCycle x) := by
  have hitem := mem_faults_cyclicDependency.mp h
  obtain ⟨⟨hx, hleads⟩, hleast⟩ := cyclicItem?_eq_some_iff.mp hitem
  refine ⟨hitem ▸ descend_eq, ⟨hx, hleads, hleast⟩, ⟨fun hon y hy hyleads => ?_, fun hon => ?_⟩,
    hleads.onCycle⟩
  · exact ⟨x, hleast y hy hyleads, hx, hon⟩
  · obtain ⟨z, hzx, hz, hzon⟩ := hon x hx hleads
    have hxz : x ≤ z := hleast z hz hzon.leadsToCycle
    exact ItemId.le_antisymm hxz hzx ▸ hzon

end Network

/-! ## A brief for a draft that is never done -/

theorem named_in_reviewPlan :
    .cyclicDependency ⟨"draft"⟩ ∈ reviewPlan.faults ∧
      reviewPlan.descend = some (some ⟨"draft"⟩) ∧
      (reviewPlan.contains ⟨"draft"⟩ = true ∧ reviewPlan.LeadsToCycle ⟨"draft"⟩ ∧
        ∀ y, reviewPlan.contains y = true → reviewPlan.LeadsToCycle y → ⟨"draft"⟩ ≤ y) ∧
      (reviewPlan.OnCycle ⟨"draft"⟩ ↔ ∀ y, reviewPlan.contains y = true → reviewPlan.LeadsToCycle y →
        ∃ z, z ≤ y ∧ reviewPlan.contains z = true ∧ reviewPlan.OnCycle z) ∧
      ((∀ l ∈ reviewPlan.links, reviewPlan.OnCycle l.successor → reviewPlan.OnCycle l.predecessor) →
        reviewPlan.OnCycle ⟨"draft"⟩) := by
  have hfault : .cyclicDependency ⟨"draft"⟩ ∈ reviewPlan.faults := by decide +kernel
  exact ⟨hfault, Network.named_of_cyclicDependency hfault⟩

/-- The brief is named though no link leads to it: it only comes before a draft and a review that wait for
each other. -/
theorem named_off_cycle :
    .cyclicDependency ⟨"brief"⟩ ∈ (reviewPlan.addLink briefBeforeDraft).faults ∧
      (Fault.cyclicDependency ⟨"brief"⟩).message =
        "Circular dependency detected involving item 'brief'" ∧
      ¬ (reviewPlan.addLink briefBeforeDraft).OnCycle ⟨"brief"⟩ := by
  have hinto : ∀ l ∈ (reviewPlan.addLink briefBeforeDraft).links, l.successor ≠ ⟨"brief"⟩ := by
    decide +kernel
  refine ⟨by decide +kernel, by decide +kernel, fun hbrief => ?_⟩
  obtain ⟨_, _, l, hl, _, hsuccessor⟩ := TransGen.tail'_iff.mp hbrief
  exact hinto l hl hsuccessor

end WorkPlan
