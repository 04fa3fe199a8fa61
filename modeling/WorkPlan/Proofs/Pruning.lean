import WorkPlan.Proofs.Containment

/-! # A plan without its broken links

Without the links of which an end is missing, a network has the same items inside the same ones, and each
item keeps the links from items that there are (`Network.mem_bindingLinks_prune`). The others ask for nothing
and move nothing, as a missing predecessor has no days. So a change concerns the same items in the same roles
and in the same order (`Agenda.roles_prune`, `Agenda.arranged_prune`). As long as nothing but items is
settled, each step of a pass settles the same days (`Pass.Ready.step_prune`), and each step keeps it so
(`Pass.known_step`). What an edit does to the days of items is therefore the same without the broken links
(`Pass.Ready.outcome_prune`). -/

namespace WorkPlan
open Relation

namespace Network
variable {net : Network} {item : Item} {root x y : ItemId} {former : Option ItemId} {l : Link}
  {v w : Visit}

/-- The network without the links of which an end is missing. -/
def prune (net : Network) : Network :=
  { net with
    links := net.links.filter fun l => net.contains l.predecessor && net.contains l.successor
    nodup_links := net.nodup_links.filter _ }

theorem inside_prune : net.prune.Inside = net.Inside := rfl

theorem mem_links_prune : l ∈ net.prune.links ↔
    l ∈ net.links ∧ net.contains l.predecessor = true ∧ net.contains l.successor = true := by
  rw [prune, List.mem_filter, Bool.and_eq_true]

theorem prune_insert (h : net.contains item.id = true) :
    (net.insert item).prune = net.prune.insert item := by
  refine Network.ext rfl (List.filter_congr fun l _ => ?_)
  rw [contains_insert h, contains_insert h]

/-! ## What binds an item -/

/-- The successor of a link that binds an item is one, so the link is kept if its predecessor is one. -/
theorem mem_bindingLinks_prune (hx : net.contains x = true) :
    l ∈ net.prune.bindingLinks x ↔ l ∈ net.bindingLinks x ∧ net.contains l.predecessor = true := by
  rw [mem_bindingLinks, mem_bindingLinks, mem_links_prune, inside_prune]
  constructor
  · rintro ⟨⟨hl, hp, _⟩, hchain⟩
    exact ⟨⟨hl, hchain⟩, hp⟩
  · rintro ⟨⟨hl, hchain⟩, hp⟩
    exact ⟨⟨hl, hp, contains_of_reflTransGen hchain hx⟩, hchain⟩

theorem mem_dependencies_prune (hx : net.contains x = true) (hy : net.contains y = true) :
    y ∈ net.prune.dependencies x ↔ y ∈ net.dependencies x := by
  rw [mem_dependencies, mem_dependencies]
  refine or_congr_left (exists_congr fun l => ?_)
  rw [mem_bindingLinks_prune hx, and_assoc]
  exact and_congr_right fun _ => and_iff_right_of_imp fun he => he ▸ hy

/-- A predecessor without days asks for nothing. -/
theorem soonestStartBy_prune {spanOf : ItemId → Option Span} (hx : net.contains x = true)
    (hmissing : ∀ y, net.contains y = false → spanOf y = none) :
    net.prune.soonestStartBy spanOf x = net.soonestStartBy spanOf x := by
  refine (soonestStartBy_within_of_subset
    (fun _ hl => ((mem_bindingLinks_prune hx).mp hl).1) fun _ _ => rfl).antisymm ?_
  refine within_soonestStartBy.mpr fun l hl => ?_
  cases hp : net.contains l.predecessor with
  | true =>
    exact release_within_soonestStartBy spanOf ((mem_bindingLinks_prune hx).mpr ⟨hl, hp⟩)
  | false =>
    rw [hmissing _ hp]
    trivial

theorem soonestStart_prune (hx : net.contains x = true) :
    net.prune.soonestStart x = net.soonestStart x := by
  refine soonestStartBy_prune hx fun y hy => ?_
  rw [contains_eq_isSome_span?, Option.isSome_eq_false_iff, Option.isNone_iff_eq_none] at hy
  exact hy

/-! ## What a change concerns -/

theorem leads_prune (hv : net.contains v.id = true) :
    net.prune.Leads root v w ↔ net.Leads root v w := by
  constructor
  · intro h
    cases h with
    | successor hl hc =>
      obtain ⟨hl, hfrom⟩ := mem_linksFrom.mp hl
      exact .successor (mem_linksFrom.mpr ⟨(mem_links_prune.mp hl).1, hfrom⟩) hc
    | child hrole hp hc => exact .child hrole hp hc
    | parent hp => exact .parent hp
  · intro h
    cases h with
    | successor hl hc =>
      obtain ⟨hl, hfrom⟩ := mem_linksFrom.mp hl
      exact .successor (mem_linksFrom.mpr ⟨mem_links_prune.mpr ⟨hl, hfrom ▸ hv, hc⟩, hfrom⟩) hc
    | child hrole hp hc => exact .child hrole hp hc
    | parent hp => exact .parent hp

theorem meets_prune (hroot : net.contains root = true) :
    net.prune.Meets root former v ↔ net.Meets root former v := by
  refine (Visit.Reached.congr (fun _ => Iff.rfl) fun v hv w _ => ?_).symm
  have hmet : net.Meets root former v := hv
  have hc : net.contains v.id = true := hmet.contains hroot
  rw [mem_visitsAfter, mem_visitsAfter]
  simp only [leads_prune hc]

end Network

namespace Agenda
variable {net : Network} {root : ItemId} {former : Option ItemId} (hroot : net.contains root = true)
include hroot

theorem roles_prune :
    (ofChange net.prune root former).roles = (ofChange net root former).roles := by
  have hpruned : net.prune.contains root = true := hroot
  exact roles_congr hpruned hroot fun _ => Network.meets_prune hroot

theorem arranged_prune :
    (ofChange net.prune root former).order = (ofChange net root former).order ∧
      (ofChange net.prune root former).cyclic = (ofChange net root former).cyclic := by
  have hitem : ∀ x ∈ (ofChange net.prune root former).roles, net.contains x = true := by
    rw [roles_prune hroot]
    exact fun _ => contains_of_mem_roles hroot
  exact arranged_congr_among (roles_prune hroot) fun x hx y hy =>
    Network.mem_dependencies_prune (hitem x hx) (hitem y hy)

end Agenda

/-! ## What a pass settles -/

/-- Whether nothing but items of a network is settled. -/
def Settled.Known (s : Settled) (net : Network) : Prop :=
  ∀ y, net.contains y = false → s.spans[y]? = none

namespace Pass
variable {p : Pass} {former : Option ItemId} {policy : PullPolicy} {settings : Settings} {s : Settled}
  {x : ItemId} {item : Item}

def prune (p : Pass) (former : Option ItemId) : Pass :=
  { p with
    before := p.before.prune
    working := p.working.prune
    agenda := Agenda.ofChange p.working.prune p.root.id former }

theorem known_step (hs : s.Known p.working) : (p.step policy s x).Known p.working := by
  intro y hy
  by_cases hxy : x = y
  · rw [step, hxy, Network.contains_eq_false_iff.mp hy]
    exact hs y hy
  · rw [getElem?_step_of_ne hxy]
    exact hs y hy

namespace Ready
variable (hp : p.Ready former)
include hp

theorem agenda_prune : (p.prune former).agenda.roles = p.agenda.roles ∧
    (p.prune former).agenda.order = p.agenda.order ∧
    (p.prune former).agenda.cyclic = p.agenda.cyclic := by
  rw [hp.agenda]
  exact ⟨Agenda.roles_prune hp.contains_root, Agenda.arranged_prune hp.contains_root⟩

theorem prune : (p.prune former).Ready former where
  stored := hp.stored
  working := by
    have hc : p.before.contains p.root.id = true := Network.contains_iff.mpr ⟨_, hp.stored⟩
    have hworking : p.working.prune = (p.before.insert p.root).prune := congrArg _ hp.working
    exact hworking.trans (Network.prune_insert hc)
  agenda := rfl

theorem known_start : ((⟨∅⟩ : Settled).settle p.root.id p.root.span).Known p.working := by
  intro y hy
  have hne : p.root.id ≠ y := by
    rintro rfl
    rw [hp.contains_root] at hy
    cases hy
  rw [Settled.getElem?_settle, if_neg fun h => hne h.1]
  exact Std.ExtTreeMap.getElem?_empty

/-- The links that are missing had no predecessor with days, and none that moved. -/
theorem spanFor_prune (hs : s.Known p.working) (hx : p.working.contains item.id = true) :
    (p.prune former).spanFor policy s item = p.spanFor policy s item := by
  have hmissing : ∀ y, p.working.contains y = false → s.span? p.working y = none := by
    intro y hy
    rw [Settled.span?_of_unsettled (hs y hy), Network.span?, Network.contains_eq_false_iff.mp hy]
    rfl
  have hsoonest : (p.prune former).working.soonestStartBy (s.span? (p.prune former).working) item.id =
      p.working.soonestStartBy (s.span? p.working) item.id :=
    Network.soonestStartBy_prune hx hmissing
  have hpull : policy.pull (((p.prune former).working.bindingLinks item.id).map fun l =>
        s.drift (p.prune former).before l.predecessor) =
      policy.pull ((p.working.bindingLinks item.id).map fun l => s.drift p.before l.predecessor) := by
    refine Int.le_antisymm (PullPolicy.pull_le_of_moved fun n hn hne => ?_)
      (PullPolicy.pull_le_of_moved fun n hn _ => ?_)
    · obtain ⟨l, hl, rfl⟩ := List.mem_map.mp hn
      cases hc : p.working.contains l.predecessor with
      | true => exact List.mem_map.mpr ⟨l, (Network.mem_bindingLinks_prune hx).mpr ⟨hl, hc⟩, rfl⟩
      | false => exact absurd (Settled.drift_of_unsettled (hs _ hc)) hne
    · obtain ⟨l, hl, rfl⟩ := List.mem_map.mp hn
      exact List.mem_map.mpr ⟨l, ((Network.mem_bindingLinks_prune hx).mp hl).1, rfl⟩
  simp only [spanFor, hsoonest, hpull, hp.agenda_prune.1]
  rfl

theorem step_prune (hs : s.Known p.working) :
    (p.prune former).step policy s x = p.step policy s x := by
  unfold step
  have hsame : (p.prune former).working.item? x = p.working.item? x := rfl
  rw [hsame]
  cases hitem : p.working.item? x with
  | none => rfl
  | some item =>
    have hx : p.working.contains item.id = true :=
      Network.contains_iff.mpr ⟨item, Network.id_of_item? hitem ▸ hitem⟩
    simp only [hp.spanFor_prune hs hx]

theorem foldl_step_prune {ids : List ItemId} (hs : s.Known p.working) :
    ids.foldl ((p.prune former).step policy) s = ids.foldl (p.step policy) s := by
  induction ids generalizing s with
  | nil => rfl
  | cons x rest ih => rw [List.foldl_cons, List.foldl_cons, hp.step_prune hs, ih (known_step hs)]

theorem settled_prune : (p.prune former).settled policy = p.settled policy := by
  unfold settled
  rw [hp.agenda_prune.2.1]
  exact hp.foldl_step_prune hp.known_start

theorem changes_prune : (p.prune former).changes settings = p.changes settings := by
  unfold changes
  rw [hp.settled_prune]
  rfl

end Ready

theorem seed_prune {net : Network} {e : Edit} (hc : net.contains item.id = true)
    (hcheck : e.touches .parent = true → net.checkParent item = .ok ()) :
    seed net.prune e item = seed net e item := by
  unfold seed
  split
  · rename_i ht
    split
    · rename_i parent hparent
      have hcontains : (net.insert item).contains parent = true :=
        (Network.contains_insert hc).trans (Network.checkParent_eq_ok.mp (hcheck ht) parent hparent).1
      rw [← Network.prune_insert hc, Network.soonestStart_prune hcontains]
    · rfl
  · rfl

theorem prepare_prune {net : Network} {e : Edit} {stored : Item} (hstored : net.item? e.id = some stored)
    (hcheck : e.touches .parent = true → net.checkParent (e.applyTo stored) = .ok ()) :
    prepare net.prune e stored =
      (prepare net e stored).prune (formerParent e stored (e.applyTo stored)) := by
  have hc : net.contains (e.applyTo stored).id = true :=
    Network.contains_iff.mpr ⟨stored, Network.id_of_item? hstored ▸ hstored⟩
  have hroot : net.contains (seed net e (e.applyTo stored)).id = true :=
    (id_seed net e (e.applyTo stored)).symm ▸ hc
  simp only [prepare, prune, seed_prune hc hcheck, Network.prune_insert hroot]

end Pass

/-- An edit that can be carried out can be carried out without the broken links. -/
theorem Network.pass?_prune {net : Network} {e : Edit} {p : Pass} (h : net.pass? e = .ok p) :
    ∃ former, p.Ready former ∧ net.prune.pass? e = .ok (p.prune former) := by
  obtain ⟨hblank, stored, hstored, hcheck, rfl⟩ := pass?_eq_ok.mp h
  have hchecked : e.touches .parent = true → net.prune.checkParent (e.applyTo stored) = .ok () := by
    -- the check reads items and parents only
    intro ht
    have hparent := checkParent_eq_ok.mp (hcheck ht)
    exact checkParent_eq_ok.mpr hparent
  exact ⟨_, Pass.ready_prepare hstored,
    pass?_eq_ok.mpr ⟨hblank, stored, hstored, hchecked, Pass.prepare_prune hstored hcheck⟩⟩

/-- **Broken links do not disturb any days.** Without them the edit has the same changes. -/
theorem Pass.Ready.outcome_prune {p : Pass} {former : Option ItemId} (hp : p.Ready former)
    (settings : Settings) :
    ((p.prune former).outcome settings).changes = (p.outcome settings).changes ∧
      ((p.prune former).outcome settings).delta = (p.outcome settings).delta := by
  rw [changes_outcome, changes_outcome, delta_outcome, delta_outcome]
  exact ⟨hp.changes_prune, rfl⟩

end WorkPlan
