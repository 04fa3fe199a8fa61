import Mathlib.Data.List.Cycle
import WorkPlan.Proofs.NewLink
import WorkPlan.Proofs.Precedence

/-! # Cycles of links that a change meets

Items that are linked in a circle are all concerned by a change as soon as one of them is, because a
change passes on along links (`Ready.mem_roles_of_linked`). Each of them needs the one before it, so
unless the root is among them, all of them are stuck and the pass reports them
(`cycle_mem_issues_of_linkCycle`). A circle through the root is worked off from the root on, and goes
unreported (`unreported_cycle_of_root`). -/

namespace WorkPlan

/-- The steps of a closed chain lead from items of the cycle to items of it. -/
theorem chain_and_mem {α : Type} {r : α → α → Prop} {c : Cycle α} (h : c.Chain r) :
    c.Chain fun a b => a ∈ c ∧ b ∈ c ∧ r a b := by
  induction c using Cycle.induction_on with
  | nil => trivial
  | cons first rest _ =>
    rw [Cycle.chain_coe_cons] at h ⊢
    refine h.imp_of_mem_imp fun a b ha hb hab => ⟨?_, ?_, hab⟩
    · rw [Cycle.mem_coe_iff]; simpa [or_comm] using ha
    · rw [Cycle.mem_coe_iff]; simpa [or_comm] using hb

namespace Network
variable {net : Network} {items : Cycle ItemId} {x : ItemId}

/-- Whether some items, two at least, are linked in a circle: each to the next, and the last to the
first. -/
structure LinkCycle (net : Network) (items : Cycle ItemId) : Prop where
  nontrivial : items.Nontrivial
  nodup : items.Nodup
  contains : ∀ x ∈ items, net.contains x = true
  linked : items.Chain net.Linked

/-- What passes on along the links of a cycle holds of all its items if it holds of one. -/
theorem LinkCycle.forall_of_exists (h : net.LinkCycle items) {P : ItemId → Prop}
    (hstep : ∀ a ∈ items, ∀ b ∈ items, net.Linked a b → P a → P b) (hP : ∃ x ∈ items, P x) :
    ∀ x ∈ items, P x := by
  obtain ⟨x, hx, hPx⟩ := hP
  have htrans : IsTrans ItemId fun a b => P a → P b := ⟨fun _ _ _ hab hbc ha => hbc (hab ha)⟩
  have hchain : items.Chain fun a b => P a → P b :=
    (chain_and_mem h.linked).imp fun a b hab => hstep a hab.1 b hab.2.1 hab.2.2
  exact fun y hy => Cycle.chain_iff_pairwise.mp hchain x hx y hy hPx

theorem exists_coe_cons_eq (hx : x ∈ items) : ∃ rest : List ItemId, items = ↑(x :: rest) := by
  induction items using Quotient.inductionOn with
  | _ list =>
    obtain ⟨before, after, rfl⟩ := List.append_of_mem hx
    exact ⟨after ++ before, Cycle.coe_eq_coe.mpr List.isRotated_append⟩

/-- Before each item of a cycle stands another one. -/
theorem LinkCycle.exists_before (h : net.LinkCycle items) (hx : x ∈ items) :
    ∃ y ∈ items, y ≠ x ∧ net.Linked y x := by
  obtain ⟨rest, rfl⟩ := exists_coe_cons_eq hx
  have hlength : 2 ≤ (x :: rest).length := Cycle.length_nontrivial h.nontrivial
  have hfirst : x ∉ rest := (List.nodup_cons.mp (Cycle.nodup_coe_iff.mp h.nodup)).1
  have hlinked := (Cycle.chain_coe_cons _ x rest).mp h.linked
  rcases List.eq_nil_or_concat' rest with rfl | ⟨middle, y, rfl⟩
  · simp at hlength
  · rw [List.append_assoc, List.singleton_append, List.isChain_cons_append_cons_cons] at hlinked
    refine ⟨y, by simp, ?_, hlinked.2.1⟩
    rintro rfl
    simp at hfirst

end Network

/-! ## What a pass makes of them -/

namespace Pass.Ready
variable {p : Pass} {former : Option ItemId} {x y : ItemId} {items : Cycle ItemId}
  (hp : p.Ready former)
include hp

theorem mem_roles_of_linked (hxy : p.working.Linked x y) (hx : x ∈ p.agenda.roles)
    (hc : p.working.contains y = true) (hy : y ≠ p.root.id) : y ∈ p.agenda.roles := by
  obtain ⟨l, hl, rfl, rfl⟩ := hxy
  obtain ⟨_, hmeets⟩ := hp.exists_meets (Or.inr hx)
  rw [hp.agenda]
  exact (Agenda.mem_roles hp.contains_root).mpr
    ⟨hy, _, hmeets.leads (.successor (Network.mem_linksFrom.mpr ⟨hl, rfl⟩) hc) hy⟩

/-- All items of a cycle are stuck if one of them is concerned and the root is none of them. -/
theorem mem_cyclic_of_linkCycle (h : p.working.LinkCycle items) (hroot : p.root.id ∉ items)
    (hmet : ∃ x ∈ items, x ∈ p.agenda.roles) (hx : x ∈ items) : x ∈ p.agenda.cyclic := by
  have hroles : ∀ y ∈ items, y ∈ p.agenda.roles :=
    h.forall_of_exists (fun a _ b hb hab ha => hp.mem_roles_of_linked hab ha (h.contains b hb)
      fun he => hroot (he ▸ hb)) hmet
  rw [hp.agenda] at hroles ⊢
  refine Arrangement.mem_stuck_iff.mpr ⟨(· ∈ items), fun y hy => ?_, hx⟩
  refine ⟨Std.ExtTreeMap.mem_keys.mpr (hroles y hy), ?_⟩
  obtain ⟨z, hz, hne, l, hl, rfl, rfl⟩ := h.exists_before hy
  refine ⟨l.predecessor, List.mem_filter.mpr ⟨?_, by simpa using hne⟩, hz⟩
  exact Network.dependsOn_predecessor (Network.mem_bindingLinks.mpr ⟨hl, .refl⟩)

end Pass.Ready

/-- **No cycle of links that a change meets goes unreported**, unless the changed item is part of it:
the pass reports items that wait for one another, and all items of the cycle are among them. -/
theorem Network.cycle_mem_issues_of_linkCycle {net : Network} {settings : Settings} {e : Edit}
    {o : Outcome} {p : Pass} {items : Cycle ItemId} (h : net.reflow settings e = .ok o)
    (ht : e.touched.isEmpty = false) (hp : net.pass? e = .ok p) (hitems : net.LinkCycle items)
    (hroot : e.id ∉ items) (hmet : ∃ x ∈ items, x ∈ p.agenda.roles) :
    ∃ stuck, .cycle stuck ∈ o.issues ∧ ∀ x ∈ items, x ∈ stuck := by
  obtain ⟨q, hq, rfl⟩ := reflow_eq_ok.mp h
  obtain rfl : p = q := Except.ok.inj (hp.symm.trans hq)
  rw [ht, if_neg Bool.false_ne_true]
  obtain ⟨_, stored, hstored, _, rfl⟩ := pass?_eq_ok.mp hp
  have hready := Pass.ready_prepare hstored
  rw [← Pass.id_root_prepare hstored] at hroot
  have hworking : (Pass.prepare net e stored).working.LinkCycle items :=
    ⟨hitems.nontrivial, hitems.nodup,
      fun x hx => hready.contains_working.trans (hitems.contains x hx), hitems.linked⟩
  have hstuck : ∀ x ∈ items, x ∈ (Pass.prepare net e stored).agenda.cyclic :=
    fun x hx => hready.mem_cyclic_of_linkCycle hworking hroot hmet hx
  obtain ⟨x, hx, _⟩ := hmet
  exact ⟨_, hready.cycle_mem_issues.mpr ⟨List.ne_nil_of_mem (hstuck x hx), rfl⟩, hstuck⟩

/-! ## A draft and its review -/

def draftAndReview : Cycle ItemId := ↑[ItemId.mk "draft", ItemId.mk "review"]

theorem linkCycle_of_links {net : Network}
    (hdraft : net.contains ⟨"draft"⟩ = true) (hreview : net.contains ⟨"review"⟩ = true)
    (hthere : { predecessor := ⟨"draft"⟩, successor := ⟨"review"⟩ } ∈ net.links)
    (hback : { predecessor := ⟨"review"⟩, successor := ⟨"draft"⟩ } ∈ net.links) :
    net.LinkCycle draftAndReview where
  nontrivial := ⟨⟨"draft"⟩, ⟨"review"⟩, by decide, by simp [draftAndReview], by simp [draftAndReview]⟩
  nodup := by rw [draftAndReview, Cycle.nodup_coe_iff]; decide
  contains := by simp [draftAndReview, hdraft, hreview]
  linked := by
    rw [draftAndReview, Cycle.chain_coe_cons]
    simp only [List.singleton_append, List.isChain_cons_cons, List.IsChain.singleton, and_true]
    exact ⟨⟨_, hthere, rfl, rfl⟩, ⟨_, hback, rfl, rfl⟩⟩

def briefAgain : Edit := { id := ⟨"brief"⟩, touched := { due := true } }

def reviewOutcome : Outcome := { issues := [.cycle [⟨"draft"⟩, ⟨"review"⟩]] }

theorem linkCycle_met_from_brief :
    ∃ p, (reviewPlan.addLink briefBeforeDraft).reflow {} briefAgain = .ok reviewOutcome ∧
      briefAgain.touched.isEmpty = false ∧
      (reviewPlan.addLink briefBeforeDraft).pass? briefAgain = .ok p ∧
      (reviewPlan.addLink briefBeforeDraft).LinkCycle draftAndReview ∧
      briefAgain.id ∉ draftAndReview ∧ (∃ x ∈ draftAndReview, x ∈ p.agenda.roles) ∧
      ∃ stuck, .cycle stuck ∈ reviewOutcome.issues ∧ ∀ x ∈ draftAndReview, x ∈ stuck := by
  have hreflow : (reviewPlan.addLink briefBeforeDraft).reflow {} briefAgain = .ok reviewOutcome := by
    decide +kernel
  have hpass : (reviewPlan.addLink briefBeforeDraft).pass? briefAgain =
      .ok (Pass.prepare (reviewPlan.addLink briefBeforeDraft) briefAgain { id := ⟨"brief"⟩ }) :=
    Network.pass?_eq_ok.mpr ⟨by decide +kernel, _, by decide +kernel, nofun, rfl⟩
  have hcycle : (reviewPlan.addLink briefBeforeDraft).LinkCycle draftAndReview :=
    linkCycle_of_links (by decide +kernel) (by decide +kernel) (by decide +kernel)
      (by decide +kernel)
  have hroot : briefAgain.id ∉ draftAndReview := by
    rw [draftAndReview, Cycle.mem_coe_iff]; decide
  have hmet : ∃ x ∈ draftAndReview, x ∈ (Pass.prepare (reviewPlan.addLink briefBeforeDraft)
      briefAgain { id := ⟨"brief"⟩ }).agenda.roles :=
    ⟨⟨"draft"⟩, by simp [draftAndReview], by decide +kernel⟩
  exact ⟨_, hreflow, rfl, hpass, hcycle, hroot, hmet,
    Network.cycle_mem_issues_of_linkCycle hreflow rfl hpass hcycle hroot hmet⟩

def draftAgain : Edit := { id := ⟨"draft"⟩, touched := { due := true } }

/-- A change of the draft meets the cycle of draft and review, and reports nothing: the draft keeps the
days that it is given, and the review is computed from them. -/
theorem unreported_cycle_of_root :
    draftAgain.touched.isEmpty = false ∧ reviewPlan.LinkCycle draftAndReview ∧
      draftAgain.id ∈ draftAndReview ∧
      ∃ o, reviewPlan.reflow {} draftAgain = .ok o ∧ ∀ stuck, .cycle stuck ∉ o.issues := by
  have hreflow : reviewPlan.reflow {} draftAgain = .ok {} := by decide +kernel
  have hcycle : reviewPlan.LinkCycle draftAndReview :=
    linkCycle_of_links (by decide +kernel) (by decide +kernel) (by decide +kernel)
      (by decide +kernel)
  exact ⟨rfl, hcycle, by simp [draftAndReview, draftAgain], {}, hreflow, fun _ => List.not_mem_nil⟩

end WorkPlan
