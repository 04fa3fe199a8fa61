import WorkPlan.Proofs.Validity

/-! # Links that are checked before they are added

A link that passes the check leaves a network in which an audit finds nothing in such a state
(`Valid.addLink`), and if no steps along links and down to children lead from an item back to it, none do
afterwards (`OneWay.addLink`). In both cases a circle that the link closes would lead from its successor to
its predecessor, where the check has searched. So a network stays sound however many links are added, if
each of them is checked against the network as it then is (`faults_of_guardedLinks`). -/

namespace WorkPlan
open Relation

namespace Network
variable {net first : Network} {l : Link} {x y : ItemId}

/-! ## One link -/

theorem linked_addLink : (net.addLink l).Linked x y ↔
    net.Linked x y ∨ x = l.predecessor ∧ y = l.successor := by
  simp only [Linked, mem_links_addLink]
  constructor
  · rintro ⟨k, hk | rfl, rfl, rfl⟩
    · exact Or.inl ⟨k, hk, rfl, rfl⟩
    · exact Or.inr ⟨rfl, rfl⟩
  · rintro (⟨k, hk, rfl, rfl⟩ | ⟨rfl, rfl⟩)
    · exact ⟨k, Or.inl hk, rfl, rfl⟩
    · exact ⟨l, Or.inr rfl, rfl, rfl⟩

theorem stepsTo_addLink : (net.addLink l).StepsTo x y ↔
    net.StepsTo x y ∨ x = l.predecessor ∧ y = l.successor := by
  rw [stepsTo_iff, stepsTo_iff, linked_addLink, parent?_addLink, or_right_comm]

theorem inSameChain_addLink : (net.addLink l).inSameChain x y = net.inSameChain x y := by
  have hinside : (net.addLink l).Inside = net.Inside :=
    funext₂ fun _ _ => propext inside_addLink
  have hancestor : ∀ a b, (net.addLink l).isAncestor a b = net.isAncestor a b := fun a b => by
    rw [Bool.eq_iff_iff, isAncestor_iff, isAncestor_iff, hinside]
  rw [inSameChain, hancestor, hancestor, inSameChain]

/-- Whether no steps along links and down to children lead from an item back to it. -/
def OneWay (net : Network) : Prop := ∀ x, ¬ TransGen net.StepsTo x x

theorem OneWay.addLink (h : net.OneWay) (hl : net.Linkable l.predecessor l.successor) :
    (net.addLink l).OneWay := by
  intro x hx
  rcases transGen_or_return (q := (· = l.predecessor)) (fun _ _ => stepsTo_addLink.mp) hx with
    hold | ⟨a, rfl, hback⟩
  · exact h x hold
  · exact hl.unreached hback

theorem Intact.addLink (h : net.Intact) (hl : net.Linkable l.predecessor l.successor) :
    (net.addLink l).Intact := by
  constructor
  case parent =>
    intro x p hp
    rw [parent?_addLink] at hp
    exact contains_addLink.trans (h.parent x p hp)
  case predecessor =>
    simp only [contains_addLink]
    exact forall_mem_links_addLink.mpr ⟨h.predecessor, hl.predecessor⟩
  case successor =>
    simp only [contains_addLink]
    exact forall_mem_links_addLink.mpr ⟨h.successor, hl.successor⟩
  case noCircle =>
    intro x hx
    rcases transGen_or_return (q := (· = l.predecessor)) (fun _ _ => linked_addLink.mp) hx with
      hold | ⟨a, rfl, hback⟩
    · exact h.noCircle x hold
    · have hsteps : ReflTransGen net.StepsTo l.successor l.predecessor :=
        ReflTransGen.mono (fun _ _ hab => stepsTo_iff.mpr (Or.inl hab)) _ _ hback
      exact hl.unreached hsteps

theorem Valid.addLink (h : net.Valid) (hl : net.Linkable l.predecessor l.successor) :
    (net.addLink l).Valid := by
  constructor
  case intact => exact h.intact.addLink hl
  case inOrder =>
    intro x s hs
    rw [span?, item?_addLink, ← span?] at hs
    exact h.inOrder x s hs
  case apart =>
    simp only [inSameChain_addLink]
    exact forall_mem_links_addLink.mpr ⟨h.apart, hl.ne, hl.apart⟩
  case loopFree =>
    exact fun x hx => h.loopFree x (TransGen.mono (fun _ _ => inside_addLink.mp) _ _ hx)

/-! ## Any number of links -/

/-- The networks that come of a first one by adding links, each of which passed the check of the network
that it was added to. -/
inductive GuardedLinks (first : Network) : Network → Prop where
  | none : GuardedLinks first first
  | more {net : Network} {l : Link} : GuardedLinks first net →
      net.linkFaults l.predecessor l.successor = [] → GuardedLinks first (net.addLink l)

theorem GuardedLinks.valid (h : GuardedLinks first net) (hfirst : first.Valid) : net.Valid := by
  induction h with
  | none => exact hfirst
  | more _ hl ih => exact ih.addLink (linkFaults_eq_nil_iff.mp hl)

theorem GuardedLinks.oneWay (h : GuardedLinks first net) (hfirst : first.OneWay) : net.OneWay := by
  induction h with
  | none => exact hfirst
  | more _ hl ih => exact ih.addLink (linkFaults_eq_nil_iff.mp hl)

/-- Where there are no links, steps lead down to children only. -/
theorem Valid.oneWay (h : net.Valid) (hlinks : net.links = []) : net.OneWay := by
  intro x hx
  have hinside : TransGen net.Inside x x := by
    refine transGen_swap.mp (TransGen.mono (fun a b hab => ?_) x x hx)
    rcases stepsTo_iff.mp hab with ⟨l, hl, _⟩ | hp
    · rw [hlinks] at hl
      cases hl
    · exact inside_iff.mpr ⟨hp, h.intact.parent b a hp⟩
  exact h.loopFree x hinside

/-- **Links that are checked before they are added leave nothing for an audit to find** if there was
nothing at first. And they close no circle of steps along links and down to children, if there was none or
if there were no links at first. -/
theorem faults_of_guardedLinks (h : GuardedLinks first net) :
    (first.faults = [] → net.faults = []) ∧ (first.OneWay → net.OneWay) ∧
      (first.faults = [] → first.links = [] → net.OneWay) := by
  refine ⟨fun hfaults => ?_, h.oneWay, fun hfaults hlinks => ?_⟩
  · exact faults_eq_nil_iff.mpr (h.valid (faults_eq_nil_iff.mp hfaults))
  · exact h.oneWay ((faults_eq_nil_iff.mp hfaults).oneWay hlinks)

end Network

/-! ## A plan that gets its links one by one -/

def bareInspectionPlan : Network := .ofLists inspectionPlan.itemList []

def permitBeforeInspection : Link :=
  { predecessor := ⟨"permit"⟩, successor := ⟨"inspection"⟩, lag := 2 }

def inspectionBeforeFrame : Link := { predecessor := ⟨"inspection"⟩, successor := ⟨"frame"⟩ }

def guardedInspectionPlan : Network :=
  ((bareInspectionPlan.addLink permitBeforeInspection).addLink inspectionBeforeFrame).addLink
    shellBeforeRoof

/-- Each of the links passes the check when its turn comes, and the link from framing to the permit would
not. -/
theorem faults_guardedInspectionPlan :
    Network.GuardedLinks bareInspectionPlan guardedInspectionPlan ∧
      bareInspectionPlan.faults = [] ∧ guardedInspectionPlan.faults = [] ∧
      guardedInspectionPlan.OneWay ∧
      guardedInspectionPlan.linkFaults ⟨"frame"⟩ ⟨"permit"⟩ ≠ [] := by
  have hguarded : Network.GuardedLinks bareInspectionPlan guardedInspectionPlan := by
    refine .more (.more (.more .none ?_) ?_) ?_
    · decide +kernel
    · decide +kernel
    · decide +kernel
  have hfirst : bareInspectionPlan.faults = [] := by decide +kernel
  obtain ⟨hfaults, _, honeWay⟩ := Network.faults_of_guardedLinks hguarded
  exact ⟨hguarded, hfirst, hfaults hfirst, honeWay hfirst (by decide +kernel), by decide +kernel⟩

end WorkPlan
