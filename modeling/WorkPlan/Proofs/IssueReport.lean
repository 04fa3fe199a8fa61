import WorkPlan.Proofs.Pruning

/-! # What a pass reports

Broken links and parents are found in two places: the search looks at the links from what it meets and at
its parents, and each item that is settled looks at the links that bind it. `Reportable` says what there is
to be found, and a pass reports this and nothing else (`Pass.Ready.mem_issues_iff`), each once. What it
reports never keeps it from going on: without the broken links all items get the same days
(`issues_exact`). -/

namespace WorkPlan
open Relation

namespace Network
variable {net : Network} {root x : ItemId} {former : Option ItemId} {agenda : Agenda} {i : Issue} {l : Link}

/-- What there is to report about a change of the root: a link from the root or from an item of the agenda
to a missing one, a link from a missing item that binds one in order, a missing parent of the root or of an
item of the agenda, and the items that are stuck, if there are any. -/
inductive Reportable (net : Network) (root : ItemId) (agenda : Agenda) : Issue → Prop
  | missingSuccessor {l : Link} (hl : l ∈ net.links)
      (hfrom : l.predecessor = root ∨ l.predecessor ∈ agenda.roles)
      (hmissing : net.contains l.successor = false) :
      Reportable net root agenda (.danglingLink l.predecessor l.successor)
  | missingPredecessor {l : Link} {x : ItemId} (hl : l ∈ net.links)
      (hmissing : net.contains l.predecessor = false) (hx : x ∈ agenda.order)
      (hinto : l.successor = x ∨ l.successor ∈ net.ancestors x) :
      Reportable net root agenda (.danglingLink l.predecessor l.successor)
  | missingParent {x parent : ItemId} (hx : x = root ∨ x ∈ agenda.roles)
      (hparent : net.parent? x = some parent) (hmissing : net.contains parent = false) :
      Reportable net root agenda (.danglingParent x parent)
  | stuck (h : agenda.cyclic ≠ []) : Reportable net root agenda (.cycle agenda.cyclic)

/-- Without the broken links there is the same to report but for them. -/
theorem reportable_prune {agenda' : Agenda} (hroles : agenda'.roles = agenda.roles)
    (hcyclic : agenda'.cyclic = agenda.cyclic) : net.prune.Reportable root agenda' i ↔
      net.Reportable root agenda i ∧ ∀ p s, i ≠ .danglingLink p s := by
  constructor
  · intro h
    cases h with
    | missingSuccessor hl _ hmissing =>
      exact absurd (mem_links_prune.mp hl).2.2 (Bool.eq_false_iff.mp hmissing)
    | missingPredecessor hl hmissing =>
      exact absurd (mem_links_prune.mp hl).2.1 (Bool.eq_false_iff.mp hmissing)
    | missingParent hx hparent hmissing =>
      exact ⟨.missingParent (hroles ▸ hx) hparent hmissing, nofun⟩
    | stuck h =>
      rw [hcyclic] at h ⊢
      exact ⟨.stuck h, nofun⟩
  · rintro ⟨h, hother⟩
    cases h with
    | missingSuccessor | missingPredecessor => exact absurd rfl (hother _ _)
    | missingParent hx hparent hmissing => exact .missingParent (hroles ▸ hx) hparent hmissing
    | stuck h => exact hcyclic ▸ .stuck (hcyclic.symm ▸ h)

/-! ## What is found -/

theorem mem_issuesAt : i ∈ net.issuesAt x ↔
    (∃ l ∈ net.links, l.predecessor = x ∧ net.contains l.successor = false ∧
      i = .danglingLink l.predecessor l.successor) ∨
    ∃ parent, net.parent? x = some parent ∧ net.contains parent = false ∧ i = .danglingParent x parent := by
  simp only [issuesAt, List.mem_append, List.mem_map, List.mem_filter, Option.mem_toList, mem_linksFrom,
    Option.filter_eq_some_iff, Bool.not_eq_true', and_assoc, eq_comm (b := i)]

theorem mem_bindingLinks_iff : l ∈ net.bindingLinks x ↔
    l ∈ net.links ∧ (l.successor = x ∨ l.successor ∈ net.ancestors x) := by
  rw [mem_bindingLinks, ← mem_cons_ancestors, List.mem_cons]

theorem exists_meets_iff (hroot : net.contains root = true) :
    (∃ role, net.Meets root former ⟨x, role⟩) ↔
      x = root ∨ x ∈ (Agenda.ofChange net root former).roles := by
  rw [Agenda.mem_roles hroot]
  constructor
  · intro hmet
    by_cases hx : x = root
    · exact Or.inl hx
    · exact Or.inr ⟨hx, hmet⟩
  · rintro (rfl | ⟨_, hmet⟩)
    · exact ⟨.ancestor, meets_root⟩
    · exact hmet

end Network

namespace Outcome
variable {o : Outcome} {issues : List Issue}

theorem nodup_addIssue {i : Issue} (h : o.issues.Nodup) : (o.addIssue i).issues.Nodup := by
  rw [addIssue]
  split
  · exact h
  · rename_i hnew
    exact (List.nodup_append_comm.mp (List.nodup_cons.mpr ⟨hnew, h⟩))

theorem nodup_foldl_addIssue (h : o.issues.Nodup) : (issues.foldl addIssue o).issues.Nodup := by
  induction issues generalizing o with
  | nil => exact h
  | cons i rest ih => exact ih (nodup_addIssue h)

end Outcome

namespace Pass
variable {p : Pass} {former : Option ItemId} {settings : Settings} {i : Issue}

theorem nodup_issues_outcome : (p.outcome settings).issues.Nodup :=
  Outcome.nodup_foldl_addIssue List.nodup_nil

namespace Ready
variable (hp : p.Ready former)
include hp

theorem mem_agenda_issues : i ∈ p.agenda.issues ↔
    ∃ x, (x = p.root.id ∨ x ∈ p.agenda.roles) ∧ i ∈ p.working.issuesAt x := by
  rw [hp.agenda, Agenda.mem_issues hp.contains_root]
  simp only [Network.exists_meets_iff hp.contains_root]

/-- A pass reports what there is to report, and nothing else. -/
theorem mem_issues_iff : i ∈ p.issues ↔ p.working.Reportable p.root.id p.agenda i := by
  rw [mem_issues, hp.mem_agenda_issues]
  constructor
  · rintro (⟨x, hx, hi⟩ | ⟨hstuck, rfl⟩ | ⟨x, hx, l, hl, hmissing, rfl⟩)
    · rcases Network.mem_issuesAt.mp hi with ⟨l, hl, rfl, hmissing, rfl⟩ | ⟨parent, hparent, hmissing, rfl⟩
      · exact .missingSuccessor hl hx hmissing
      · exact .missingParent hx hparent hmissing
    · exact .stuck hstuck
    · obtain ⟨hl, hinto⟩ := Network.mem_bindingLinks_iff.mp hl
      exact .missingPredecessor hl hmissing hx hinto
  · intro h
    cases h with
    | missingSuccessor hl hfrom hmissing =>
      exact Or.inl ⟨_, hfrom, Network.mem_issuesAt.mpr (Or.inl ⟨_, hl, rfl, hmissing, rfl⟩)⟩
    | missingPredecessor hl hmissing hx hinto =>
      exact Or.inr (Or.inr ⟨_, hx, _, Network.mem_bindingLinks_iff.mpr ⟨hl, hinto⟩, hmissing, rfl⟩)
    | missingParent hx hparent hmissing =>
      exact Or.inl ⟨_, hx, Network.mem_issuesAt.mpr (Or.inr ⟨_, hparent, hmissing, rfl⟩)⟩
    | stuck hstuck => exact Or.inr (Or.inl ⟨hstuck, rfl⟩)

theorem mem_issues_prune :
    i ∈ (p.prune former).issues ↔ i ∈ p.issues ∧ ∀ p s, i ≠ .danglingLink p s := by
  rw [hp.mem_issues_iff, hp.prune.mem_issues_iff]
  exact Network.reportable_prune hp.agenda_prune.1 hp.agenda_prune.2.2

end Ready
end Pass

/-- **A pass reports what there is to report, each once, and reporting stops nothing.** What there is to
report is told by the network with the root and by the agenda. Without the broken links, the same items get
the same days, and the other issues are reported as before. -/
theorem Network.issues_exact {net : Network} {settings : Settings} {e : Edit} {o : Outcome}
    (h : net.reflow settings e = .ok o) (ht : e.touched.isEmpty = false) :
    ∃ stored, net.item? e.id = some stored ∧
      let root := Pass.seed net e (e.applyTo stored)
      let working := net.insert root
      let agenda := Agenda.ofChange working e.id (Pass.formerParent e stored (e.applyTo stored))
      o.issues.Nodup ∧ (∀ i, i ∈ o.issues ↔ working.Reportable e.id agenda i) ∧
        ∃ o', net.prune.reflow settings e = .ok o' ∧ o'.changes = o.changes ∧ o'.delta = o.delta ∧
          ∀ i, i ∈ o'.issues ↔ i ∈ o.issues ∧ ∀ p s, i ≠ .danglingLink p s := by
  obtain ⟨p, hp, ho⟩ := reflow_eq_ok.mp h
  obtain ⟨former, hready, hprune⟩ := pass?_prune hp
  obtain ⟨_, stored, hstored, _, rfl⟩ := pass?_eq_ok.mp hp
  rw [ht, if_neg Bool.false_ne_true] at ho
  subst ho
  refine ⟨stored, hstored, Pass.nodup_issues_outcome, fun i => ?_, _,
    reflow_eq_ok.mpr ⟨_, hprune, rfl⟩, ?_⟩
  · rw [Pass.mem_issues_outcome, (Pass.ready_prepare hstored).mem_issues_iff,
      ← Pass.id_root_prepare hstored]
    rfl
  · rw [ht, if_neg Bool.false_ne_true]
    obtain ⟨hchanges, hdelta⟩ := hready.outcome_prune settings
    refine ⟨hchanges, hdelta, fun i => ?_⟩
    rw [Pass.mem_issues_outcome, Pass.mem_issues_outcome, hready.mem_issues_prune]

/-! ## An outline without its sources -/

/-- The brief comes before a cover that was never planned, and the outline after sources that were not
either. The outline is for a binder that is none of the items, and draft and review wait for each other. -/
def manuscriptPlan : Network := .ofLists
  [{ id := ⟨"brief"⟩, due := Date.ofDay? 5 }, { id := ⟨"draft"⟩ },
    { id := ⟨"outline"⟩, start := Date.ofDay? 6, due := Date.ofDay? 8, parent := some ⟨"binder"⟩ },
    { id := ⟨"review"⟩ }]
  [{ predecessor := ⟨"brief"⟩, successor := ⟨"cover"⟩ },
    { predecessor := ⟨"brief"⟩, successor := ⟨"outline"⟩ },
    { predecessor := ⟨"sources"⟩, successor := ⟨"outline"⟩ },
    { predecessor := ⟨"brief"⟩, successor := ⟨"draft"⟩ },
    { predecessor := ⟨"draft"⟩, successor := ⟨"review"⟩ },
    { predecessor := ⟨"review"⟩, successor := ⟨"draft"⟩ }]

def briefLater : Edit := ({ id := ⟨"brief"⟩ } : Edit).withDue (Date.ofDay? 9)

def outlineLater : Outcome where
  changes := .ofList [(ItemId.mk "outline", Slot.mk (Date.ofDay? 10) (Date.ofDay? 12) 3)]
  issues := [.danglingLink ⟨"brief"⟩ ⟨"cover"⟩, .danglingParent ⟨"outline"⟩ ⟨"binder"⟩,
    .cycle [⟨"draft"⟩, ⟨"review"⟩], .danglingLink ⟨"sources"⟩ ⟨"outline"⟩]
  delta := 4

theorem issues_exact_manuscriptPlan :
    manuscriptPlan.reflow {} briefLater = .ok outlineLater ∧ briefLater.touched.isEmpty = false ∧
      ∃ stored, manuscriptPlan.item? briefLater.id = some stored ∧
        let root := Pass.seed manuscriptPlan briefLater (briefLater.applyTo stored)
        let working := manuscriptPlan.insert root
        let agenda := Agenda.ofChange working briefLater.id
          (Pass.formerParent briefLater stored (briefLater.applyTo stored))
        outlineLater.issues.Nodup ∧
          (∀ i, i ∈ outlineLater.issues ↔ working.Reportable briefLater.id agenda i) ∧
          ∃ o', manuscriptPlan.prune.reflow {} briefLater = .ok o' ∧
            o'.changes = outlineLater.changes ∧ o'.delta = outlineLater.delta ∧
            ∀ i, i ∈ o'.issues ↔ i ∈ outlineLater.issues ∧ ∀ p s, i ≠ .danglingLink p s := by
  have hreflow : manuscriptPlan.reflow {} briefLater = .ok outlineLater := by decide +kernel
  exact ⟨hreflow, rfl, Network.issues_exact hreflow rfl⟩

end WorkPlan
