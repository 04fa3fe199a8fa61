import Mathlib.Data.Prod.Lex
import WorkPlan.Proofs.Roles

/-! # Collecting roles in any order

A collection takes up the visits that wait in whatever order it likes. A visit that adds something leaves
fewer that would, and any other one leaves fewer that wait, so every run of steps ends (`acc_start`). On the
way no role is given that a closed assignment does not give (`Step.within`), and nothing that is passed on
is forgotten (`Step.keeps`). When no step is left, the roles are therefore the least ones that are closed,
which are those of the agenda (`roles_of_run`). -/

namespace WorkPlan
open Relation

/-- A collection of roles under way: the roles given so far, whether the root was looked at, and the
visits that wait to be taken up. -/
structure Collection where
  roles : IdMap Role
  rootSeen : Bool
  waiting : List Visit

namespace Collection
variable {net : Network} {root x : ItemId} {former : Option ItemId} {c c' : Collection}
  {v w : Visit}

def role? (c : Collection) (x : ItemId) : Option Role := c.roles[x]?

/-- Whether a visit has nothing to add: the root is looked at once, any other item once in each role. -/
def covers (root : ItemId) (c : Collection) (v : Visit) : Bool :=
  if v.id = root then c.rootSeen else (c.role? v.id).any (v.role ≤ ·)

def note (root : ItemId) (c : Collection) (v : Visit) (waiting : List Visit) : Collection :=
  if v.id = root then ⟨c.roles, true, waiting⟩ else ⟨c.roles.insert v.id v.role, c.rootSeen, waiting⟩

/-- The collection at the start: the root and the former parent wait, both as ancestors. -/
def start (net : Network) (root : ItemId) (former : Option ItemId) : Collection :=
  ⟨∅, false, net.startVisits root former⟩

/-- A step takes up any one of the waiting visits. If it has nothing to add it is dropped; otherwise it is
noted, and the visits that it leads to wait with the others, in any order and number. The root leads to
what an ancestor does, in whatever role it is met. -/
inductive Step (net : Network) (root : ItemId) : Collection → Collection → Prop
  | drop {c : Collection} {v : Visit} {rest : List Visit} (hw : c.waiting.Perm (v :: rest))
      (hc : c.covers root v = true) : Step net root c { c with waiting := rest }
  | look {c : Collection} {v : Visit} {rest next : List Visit} (hw : c.waiting.Perm (v :: rest))
      (hc : c.covers root v = false)
      (hnext : ∀ w, w ∈ next ↔ net.Leads root (if v.id = root then ⟨root, .ancestor⟩ else v) w) :
      Step net root c (c.note root v (next ++ rest))

theorem covers_eq_true_iff : c.covers root v = true ↔
    v.id = root ∧ c.rootSeen = true ∨ v.id ≠ root ∧ Gives c.role? v := by
  rw [covers, Gives]
  split
  · rename_i hv
    simp [hv]
  · rename_i hv
    simp [hv, Option.any_eq_true]

theorem waiting_note {l : List Visit} : (c.note root v l).waiting = l := by
  rw [note]
  split <;> rfl

theorem role?_note {l : List Visit} : (c.note root v l).role? x =
    if v.id ≠ root ∧ v.id = x then some v.role else c.role? x := by
  rw [note, role?]
  by_cases hv : v.id = root
  · rw [if_pos hv, if_neg fun h => h.1 hv, role?]
  · rw [if_neg hv]
    simp only [Std.ExtTreeMap.getElem?_insert, Std.compare_eq_iff_eq, ne_eq, hv, not_false_eq_true,
      true_and, role?]

theorem covers_note_self {l : List Visit} : (c.note root v l).covers root v = true := by
  rw [covers_eq_true_iff]
  by_cases hv : v.id = root
  · exact Or.inl ⟨hv, by rw [note, if_pos hv]⟩
  · exact Or.inr ⟨hv, v.role, by rw [role?_note, if_pos ⟨hv, rfl⟩], Role.le_refl⟩

/-- Noting a visit that adds something takes back none of the roles. -/
theorem gives_note {l : List Visit} (hc : c.covers root v = false) (hw : Gives c.role? w) :
    Gives (c.note root v l).role? w := by
  obtain ⟨r, hr, hle⟩ := hw
  rw [Gives, role?_note]
  split
  · rename_i h
    have hnew : ¬ v.role ≤ r := fun hvr => by
      rw [covers_eq_true_iff.mpr (Or.inr ⟨h.1, r, h.2 ▸ hr, hvr⟩)] at hc
      cases hc
    exact ⟨v.role, rfl, Role.le_trans hle (Role.le_total.resolve_left hnew)⟩
  · exact ⟨r, hr, hle⟩

theorem covers_note {l : List Visit} (hc : c.covers root v = false)
    (hw : c.covers root w = true) : (c.note root v l).covers root w = true := by
  rw [covers_eq_true_iff] at hw ⊢
  rcases hw with ⟨hroot, hseen⟩ | ⟨hne, hgives⟩
  · refine Or.inl ⟨hroot, ?_⟩
    rw [note]
    split
    · rfl
    · exact hseen
  · exact Or.inr ⟨hne, gives_note hc hgives⟩

/-! ## Every run ends -/

/-- What is left to do among some visits: those that would add something, and then those that wait. -/
def left (root : ItemId) (all : List Visit) (c : Collection) : ℕ ×ₗ ℕ :=
  toLex ((all.filter fun v => !c.covers root v).length, c.waiting.length)

theorem left_note_lt {all l : List Visit} (hv : v ∈ all) (hc : c.covers root v = false) :
    (c.note root v l).left root all < c.left root all := by
  refine Prod.Lex.toLex_lt_toLex.mpr (Or.inl ?_)
  -- what still adds something afterwards did so before, and `v` does not any more
  have hsub : (all.filter fun w => !(c.note root v l).covers root w) =
      (all.filter fun w => !c.covers root w).filter fun w => !(c.note root v l).covers root w := by
    rw [List.filter_filter]
    refine List.filter_congr fun w _ => ?_
    cases hw : c.covers root w with
    | false => simp
    | true => simp [covers_note hc hw]
  rw [hsub, List.length_filter_lt_length_iff_exists]
  exact ⟨v, List.mem_filter.mpr ⟨hv, by simp [hc]⟩, by simp [covers_note_self]⟩

theorem Step.left_lt {all : List Visit} (h : Step net root c c') (hall : c.waiting ⊆ all) :
    c'.left root all < c.left root all := by
  cases h with
  | drop hw _ =>
    refine Prod.Lex.toLex_lt_toLex.mpr (Or.inr ⟨rfl, ?_⟩)
    simp [hw.length_eq]
  | look hw hc _ => exact left_note_lt (hall (hw.mem_iff.mpr List.mem_cons_self)) hc

theorem Step.waiting_subset (h : Step net root c c')
    (hall : c.waiting ⊆ Visit.allOf net.items.keys) :
    c'.waiting ⊆ Visit.allOf net.items.keys := by
  have hrest : ∀ {v rest}, c.waiting.Perm (v :: rest) → rest ⊆ Visit.allOf net.items.keys :=
    fun hw w hmem => hall (hw.mem_iff.mpr (List.mem_cons_of_mem _ hmem))
  cases h with
  | drop hw _ => exact hrest hw
  | look hw _ hnext =>
    rw [waiting_note]
    refine List.append_subset.mpr ⟨fun w hmem => ?_, hrest hw⟩
    exact Visit.mem_allOf.mpr (Network.mem_keys.mpr ((hnext w).mp hmem).contains)

theorem acc_of_subset (hall : c.waiting ⊆ Visit.allOf net.items.keys) :
    Acc (fun after before => Step net root before after) c := by
  induction hleft : c.left root (Visit.allOf net.items.keys) using WellFoundedLT.induction
    generalizing c with
  | ind n ih =>
    refine Acc.intro c fun c' hstep => ?_
    exact ih _ (hleft ▸ hstep.left_lt hall) (hstep.waiting_subset hall) rfl

/-- No run of steps goes on for ever. -/
theorem acc_start (hroot : net.contains root = true) :
    Acc (fun after before => Step net root before after) (start net root former) :=
  acc_of_subset (Network.startVisits_subset hroot)

theorem exists_step (hc : c.waiting ≠ []) : ∃ c', Step net root c c' := by
  classical
  obtain ⟨v, rest, hw⟩ := List.exists_cons_of_ne_nil hc
  cases hcov : c.covers root v with
  | true => exact ⟨_, .drop (List.Perm.of_eq hw) hcov⟩
  | false =>
    have hnext : ∀ w, w ∈ (Visit.allOf net.items.keys).filter (fun w =>
        decide (net.Leads root (if v.id = root then ⟨root, .ancestor⟩ else v) w)) ↔
        net.Leads root (if v.id = root then ⟨root, .ancestor⟩ else v) w := fun w => by
      rw [List.mem_filter, decide_eq_true_eq, Visit.mem_allOf, Network.mem_keys]
      exact and_iff_right_of_imp Network.Leads.contains
    exact ⟨_, .look (List.Perm.of_eq hw) hcov hnext⟩

/-! ## Every run gives the same roles -/

/-- Whether a closed assignment covers the roles given so far and the visits that wait. -/
structure Within (root : ItemId) (roles : ItemId → Option Role) (c : Collection) : Prop where
  rolesLe : RolesLe c.role? roles
  waiting : ∀ v ∈ c.waiting, v.id ≠ root → Gives roles v

theorem within_start {roles : ItemId → Option Role} (h : net.ClosedRoles root former roles) :
    (start net root former).Within root roles where
  rolesLe x r hr := by simp [start, role?] at hr
  waiting := (Network.closedRoles_iff.mp h).2.1

theorem Step.within {roles : ItemId → Option Role} (h : Step net root c c')
    (hroles : net.ClosedRoles root former roles) (hc : c.Within root roles) :
    c'.Within root roles := by
  cases h with
  | drop hw _ =>
    exact ⟨hc.rolesLe, fun v hv => hc.waiting v (hw.mem_iff.mpr (List.mem_cons_of_mem _ hv))⟩
  | @look v rest next hw hcov hnext =>
    have hv : v.id ≠ root → Gives roles v := hc.waiting v (hw.mem_iff.mpr List.mem_cons_self)
    constructor
    case rolesLe =>
      intro x r hr
      rw [role?_note] at hr
      split at hr
      · rename_i h
        obtain rfl := Option.some.inj hr
        exact h.2 ▸ hv h.1
      · exact hc.rolesLe x r hr
    case waiting =>
      intro w hmem hne
      rw [waiting_note] at hmem
      rcases List.mem_append.mp hmem with hmem | hmem
      · refine hroles.leads ?_ ((hnext w).mp hmem) hne
        split
        · exact Or.inl rfl
        · rename_i hne'
          exact Or.inr (hv hne')
      · exact hc.waiting w (hw.mem_iff.mpr (List.mem_cons_of_mem _ hmem)) hne

/-- Whether a visit is covered or waits to be taken up. -/
def Expects (root : ItemId) (c : Collection) (v : Visit) : Prop :=
  c.covers root v = true ∨ v ∈ c.waiting

theorem Step.expects (h : Step net root c c') (hw : c.Expects root w) : c'.Expects root w := by
  cases h with
  | drop hperm hcov =>
    refine hw.elim Or.inl fun hmem => ?_
    rcases List.mem_cons.mp (hperm.mem_iff.mp hmem) with rfl | hmem
    · exact Or.inl hcov
    · exact Or.inr hmem
  | look hperm hcov _ =>
    rcases hw with hw | hmem
    · exact Or.inl (covers_note hcov hw)
    · rcases List.mem_cons.mp (hperm.mem_iff.mp hmem) with rfl | hmem
      · exact Or.inl covers_note_self
      · exact Or.inr (by rw [waiting_note]; exact List.mem_append_right _ hmem)

/-- Whether nothing is forgotten: the root has no role, the visits of the start are expected, and so is
whatever the visits noted so far lead to. -/
structure Keeps (net : Network) (root : ItemId) (former : Option ItemId) (c : Collection) : Prop where
  root_eq_none : c.role? root = none
  start : ∀ v ∈ net.startVisits root former, c.Expects root v
  leads : ∀ v w, v = ⟨root, .ancestor⟩ ∧ c.rootSeen = true ∨ c.role? v.id = some v.role →
    net.Leads root v w → c.Expects root w

theorem keeps_start : (start net root former).Keeps net root former where
  root_eq_none := by simp [Collection.start, role?]
  start v hv := Or.inr hv
  leads v w hv := by simp [Collection.start, role?] at hv

theorem Step.keeps (h : Step net root c c') (hc : c.Keeps net root former) :
    c'.Keeps net root former := by
  have hexpects : ∀ w, c.Expects root w → c'.Expects root w := fun _ => h.expects
  cases h with
  | drop _ _ =>
    exact ⟨hc.root_eq_none, fun v hv => hexpects v (hc.start v hv),
      fun v w hv hlead => hexpects w (hc.leads v w hv hlead)⟩
  | @look u rest next hperm hcov hnext =>
    refine ⟨?_, fun v hv => hexpects v (hc.start v hv), fun v w hv hlead => ?_⟩
    · rw [role?_note, if_neg fun h => h.1 h.2]
      exact hc.root_eq_none
    · -- `v` was noted before, or it is the visit taken up now
      by_cases hold : v = ⟨root, .ancestor⟩ ∧ c.rootSeen = true ∨ c.role? v.id = some v.role
      · exact hexpects w (hc.leads v w hold hlead)
      · have hnow : v = if u.id = root then ⟨root, .ancestor⟩ else u := by
          rw [not_or] at hold
          rw [role?_note] at hv
          by_cases hu : u.id = root
          · rw [if_neg fun h => h.1 hu] at hv
            rw [if_pos hu]
            exact (hv.resolve_right hold.2).1
          · rw [note, if_neg hu] at hv
            rw [if_neg hu]
            have hgiven := hv.resolve_left hold.1
            split at hgiven
            · rename_i h
              obtain ⟨_, _⟩ := v
              exact Visit.mk.injEq .. ▸ ⟨h.2.symm, (Option.some.inj hgiven).symm⟩
            · exact absurd hgiven hold.2
        refine Or.inr ?_
        rw [waiting_note]
        exact List.mem_append_left _ ((hnext w).mpr (hnow ▸ hlead))

/-- A collection that forgets nothing and expects nothing any more has given all the roles. -/
theorem Keeps.closedRoles (h : c.Keeps net root former) (hc : c.waiting = []) :
    net.ClosedRoles root former c.role? := by
  have hcovers : ∀ w, c.Expects root w → c.covers root w = true := by
    intro w hw
    refine hw.resolve_right fun hmem => ?_
    rw [hc] at hmem
    cases hmem
  have hgives : ∀ w, c.Expects root w → w.id ≠ root → Gives c.role? w := fun w hw hne =>
    ((covers_eq_true_iff.mp (hcovers w hw)).resolve_left fun h => hne h.1).2
  have hseen : c.rootSeen = true := by
    have hstart := hcovers _ (h.start ⟨root, .ancestor⟩ (Network.mem_startVisits.mpr ⟨rfl, Or.inl rfl⟩))
    exact ((covers_eq_true_iff.mp hstart).resolve_right fun h => h.1 rfl).2
  refine Network.closedRoles_iff.mpr ⟨h.root_eq_none,
    fun v hv hne => hgives v (h.start v hv) hne, fun v w hv hlead hne => ?_⟩
  exact hgives w (h.leads v w (hv.imp_left fun he => ⟨he, hseen⟩) hlead) hne

/-- However a run takes up what waits, when no step is left it has given the roles of the agenda. -/
theorem roles_of_run (hroot : net.contains root = true)
    (hrun : ReflTransGen (Step net root) (start net root former) c)
    (hend : ∀ c', ¬ Step net root c c') : c.roles = (Agenda.ofChange net root former).roles := by
  have hwaiting : c.waiting = [] := by
    by_contra hne
    obtain ⟨c', hstep⟩ : ∃ c', Step net root c c' := exists_step hne
    exact hend c' hstep
  have hclosed : net.ClosedRoles root former (Agenda.role? net root former) :=
    Agenda.closedRoles_ofChange hroot
  obtain ⟨hkeeps, hwithin⟩ : c.Keeps net root former ∧
      c.Within root (Agenda.role? net root former) := by
    clear hend hwaiting
    induction hrun with
    | refl => exact ⟨keeps_start, within_start hclosed⟩
    | tail _ hstep ih => exact ⟨hstep.keeps ih.1, hstep.within hclosed ih.2⟩
  have hle := Agenda.rolesLe_of_closedRoles hroot (hkeeps.closedRoles hwaiting)
  exact Std.ExtTreeMap.ext_getElem? fun x => congrFun (hwithin.rolesLe.antisymm hle) x

end Collection

/-- **The roles that a change gives are the least ones closed under passing on**: whatever is passed on
is given, and every assignment that is closed gives each item at least its role. They do not depend on the
order in which visits are taken up: in any order all runs end, and with these roles. -/
theorem Agenda.roles_least {net : Network} {root : ItemId} {former : Option ItemId}
    (hroot : net.contains root = true) :
    net.ClosedRoles root former (Agenda.role? net root former) ∧
    (∀ roles, net.ClosedRoles root former roles → RolesLe (Agenda.role? net root former) roles) ∧
    Acc (fun after before => Collection.Step net root before after)
      (Collection.start net root former) ∧
    ∀ c, ReflTransGen (Collection.Step net root) (Collection.start net root former) c →
      (∀ c', ¬ Collection.Step net root c c') → c.roles = (Agenda.ofChange net root former).roles :=
  ⟨Agenda.closedRoles_ofChange hroot, fun _ h => Agenda.rolesLe_of_closedRoles hroot h,
    Collection.acc_start hroot, fun _ hrun hend => Collection.roles_of_run hroot hrun hend⟩

/-! ## A shell that waits for its roof -/

/-- Framing and the pour are inside the shell, the roof waits for the pour and the shell for the roof. -/
def roofedPlan : Network := .ofLists
  [{ id := ⟨"frame"⟩, parent := some ⟨"shell"⟩ }, { id := ⟨"pour"⟩, parent := some ⟨"shell"⟩ },
    { id := ⟨"roof"⟩ }, { id := ⟨"shell"⟩ }, { id := ⟨"site"⟩ }]
  [{ predecessor := ⟨"pour"⟩, successor := ⟨"roof"⟩ },
    { predecessor := ⟨"roof"⟩, successor := ⟨"shell"⟩ }]

/-- What a change of the pour gives that takes it away from the site: the shell is met as a parent, and as
a follower, so that framing follows as well. -/
def roofedRoles : IdMap Role := .ofList
  [(ItemId.mk "frame", Role.follower), (ItemId.mk "roof", Role.follower),
    (ItemId.mk "shell", Role.follower), (ItemId.mk "site", Role.ancestor)]

theorem roles_roofedPlan : roofedPlan.contains ⟨"pour"⟩ = true ∧
    (Agenda.ofChange roofedPlan ⟨"pour"⟩ (some ⟨"site"⟩)).roles = roofedRoles ∧
    roofedPlan.ClosedRoles ⟨"pour"⟩ (some ⟨"site"⟩)
      (Agenda.role? roofedPlan ⟨"pour"⟩ (some ⟨"site"⟩)) ∧
    ∀ c, ReflTransGen (Collection.Step roofedPlan ⟨"pour"⟩)
        (Collection.start roofedPlan ⟨"pour"⟩ (some ⟨"site"⟩)) c →
      (∀ c', ¬ Collection.Step roofedPlan ⟨"pour"⟩ c c') → c.roles = roofedRoles := by
  have hroot : roofedPlan.contains ⟨"pour"⟩ = true := by decide +kernel
  have hroles : (Agenda.ofChange roofedPlan ⟨"pour"⟩ (some ⟨"site"⟩)).roles = roofedRoles := by
    decide +kernel
  obtain ⟨hclosed, _, _, hrun⟩ := @Agenda.roles_least _ _ (some ⟨"site"⟩) hroot
  exact ⟨hroot, hroles, hclosed, fun c hc hend => (hrun c hc hend).trans hroles⟩

end WorkPlan
