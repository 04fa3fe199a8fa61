import Mathlib.Data.List.Induction
import WorkPlan.Agenda
import WorkPlan.Proofs.Ancestry
import WorkPlan.Proofs.Arrangement
import WorkPlan.Proofs.Search

/-! # What an agenda concerns

`Meets` says which visits a change leads to, apart from the order in which they are made. The items
of an agenda are those met (`mem_roles`), its followers those met as followers
(`roles_eq_follower`). The main statement is `meets_follower_of_predecessor`: an item bound by a link
from an item that is met is met as a follower itself, unless the root stands between. -/

namespace WorkPlan
open Relation

namespace Network
variable {net : Network} {root x y : ItemId} {former : Option ItemId}

/-! ## Steps of the search -/

/-- What a visit leads to: the successors of its item, for a follower the items inside it but for the
root, and its parent. -/
inductive Leads (net : Network) (root : ItemId) (v : Visit) : Visit → Prop
  | successor {l : Link} (hl : l ∈ net.linksFrom v.id) (hc : net.contains l.successor = true) :
      Leads net root v ⟨l.successor, .follower⟩
  | child {c : ItemId} (hv : v.role = .follower) (hp : net.parent? c = some v.id) (hc : c ≠ root) :
      Leads net root v ⟨c, .follower⟩
  | parent {p : ItemId} (hp : net.Inside v.id p) : Leads net root v ⟨p, .ancestor⟩

theorem mem_visitsAfter {v w : Visit} : w ∈ net.visitsAfter root v ↔
    ∃ u, net.Leads root v u ∧ w = if u.id = root then ⟨root, .ancestor⟩ else u := by
  have hmet : ∀ u, u ∈ (((net.linksFrom v.id).map (·.successor)).filter net.contains ++
      if v.role = .follower then (net.childrenOf v.id).filter (· ≠ root) else []).map
        (Visit.mk · .follower) ++ (net.container? v.id).toList.map (Visit.mk · .ancestor) ↔
      net.Leads root v u := by
    intro u
    simp only [List.mem_append, List.mem_map, List.mem_filter, Option.mem_toList]
    constructor
    · rintro (⟨s, ⟨⟨l, hl, rfl⟩, hc⟩ | hs, rfl⟩ | ⟨p, hp, rfl⟩)
      · exact .successor hl hc
      · split at hs
        · rename_i hv
          simp only [List.mem_filter, mem_childrenOf, decide_eq_true_eq] at hs
          exact .child hv hs.1 hs.2
        · cases hs
      · exact .parent hp
    · rintro (⟨hl, hc⟩ | ⟨hv, hp, hc⟩ | hp)
      · exact Or.inl ⟨_, Or.inl ⟨⟨_, hl, rfl⟩, hc⟩, rfl⟩
      · refine Or.inl ⟨_, Or.inr ?_, rfl⟩
        rw [if_pos hv, List.mem_filter, mem_childrenOf]
        exact ⟨hp, by simpa using hc⟩
      · exact Or.inr ⟨_, hp, rfl⟩
  simp only [visitsAfter, List.mem_map, List.mem_reverse, hmet]
  exact exists_congr fun u => and_congr_right fun _ => eq_comm

theorem Leads.contains {v w : Visit} (h : net.Leads root v w) : net.contains w.id = true := by
  cases h with
  | successor _ hc => exact hc
  | child _ hp _ => exact contains_of_parent? hp
  | parent hp => exact hp.contains_right

theorem Leads.mono {u v w : Visit} (hcov : u.covers v = true) (h : net.Leads root v w) :
    net.Leads root u w := by
  obtain ⟨hid, hrole⟩ := Visit.covers_iff.mp hcov
  cases h with
  | successor hl hc => exact .successor (hid ▸ hl) hc
  | child hv hp hc =>
    refine .child (hrole.resolve_left fun ha => ?_) (hid ▸ hp) hc
    rw [hv] at ha; cases ha
  | parent hp => exact .parent (hid ▸ hp)

theorem visitsAfter_mono {u v : Visit} (hcov : u.covers v = true) :
    net.visitsAfter root v ⊆ net.visitsAfter root u := by
  intro w hw
  obtain ⟨t, ht, he⟩ := mem_visitsAfter.mp hw
  exact mem_visitsAfter.mpr ⟨t, ht.mono hcov, he⟩

/-! ## What a change leads to -/

/-- The visits with which the search for what a change concerns starts. -/
def startVisits (net : Network) (root : ItemId) (former : Option ItemId) : List Visit :=
  ((former.filter net.contains).toList ++ [root]).map (Visit.mk · .ancestor)

/-- Whether a change of the root leads to a visit. -/
def Meets (net : Network) (root : ItemId) (former : Option ItemId) : Visit → Prop :=
  Visit.Reached (net.visitsAfter root) (net.startVisits root former)

theorem mem_startVisits {v : Visit} : v ∈ net.startVisits root former ↔
    v.role = .ancestor ∧ (v.id = root ∨ former = some v.id ∧ net.contains v.id = true) := by
  obtain ⟨id, role⟩ := v
  simp only [startVisits, List.mem_map, List.mem_append, Option.mem_toList, Option.filter_eq_some_iff,
    List.mem_singleton, Visit.mk.injEq]
  constructor
  · rintro ⟨s, hs, rfl, rfl⟩
    exact ⟨rfl, hs.symm⟩
  · rintro ⟨rfl, hs⟩
    exact ⟨id, hs.symm, rfl, rfl⟩

theorem meets_root : net.Meets root former ⟨root, .ancestor⟩ :=
  .start (mem_startVisits.mpr ⟨rfl, Or.inl rfl⟩)

theorem Meets.leads {v w : Visit} (h : net.Meets root former v) (hl : net.Leads root v w)
    (hw : w.id ≠ root) : net.Meets root former w :=
  Visit.Reached.next h (mem_visitsAfter.mpr ⟨w, hl, (if_neg hw).symm⟩)

/-- What holds of the start and passes on along the steps of the search holds of all that a change
leads to; the root is only ever met as an ancestor. -/
theorem Meets.induct {P : Visit → Prop} (hroot : P ⟨root, .ancestor⟩)
    (hformer : ∀ p, former = some p → net.contains p = true → P ⟨p, .ancestor⟩)
    (hstep : ∀ v w, net.Meets root former v → P v → net.Leads root v w → w.id ≠ root → P w)
    {v : Visit} (h : net.Meets root former v) : P v := by
  induction h with
  | @start v hv =>
    obtain ⟨id, role⟩ := v
    obtain ⟨rfl, rfl | ⟨hf, hc⟩⟩ := mem_startVisits.mp hv
    · exact hroot
    · exact hformer id hf hc
  | @next v w hv hw ih =>
    obtain ⟨u, hu, rfl⟩ := mem_visitsAfter.mp hw
    split
    · exact hroot
    · rename_i hne
      exact hstep v u hv ih hu hne

theorem Meets.contains (hroot : net.contains root = true) {v : Visit}
    (h : net.Meets root former v) : net.contains v.id = true :=
  h.induct hroot (fun _ _ hc => hc) fun _ _ _ _ hl _ => hl.contains

/-- An item inside one that is met as a follower is met as a follower, unless its chain passes the
root on the way. -/
theorem Meets.descend (h : net.Meets root former ⟨y, .follower⟩)
    (hxy : ReflTransGen net.Inside x y) (hx : ¬ ReflTransGen net.Inside x root) :
    net.Meets root former ⟨x, .follower⟩ := by
  induction hxy using ReflTransGen.head_induction_on with
  | refl => exact h
  | @head a b hab _ ih =>
    have hb := ih fun hr => hx (hr.head hab)
    have ha : a ≠ root := fun he => hx (he ▸ .refl)
    exact hb.leads (.child rfl (inside_iff.mp hab).1 ha) ha

/-- An item that is met only because it contains others contains others. -/
theorem Meets.hasChildren {v : Visit} (h : net.Meets root none v) (hrole : v.role = .ancestor)
    (hne : v.id ≠ root) : net.hasChildren v.id = true := by
  refine h.induct (P := fun v => v.role = .ancestor → v.id ≠ root → net.hasChildren v.id = true)
    (fun _ hne => absurd rfl hne) (fun _ hf => by cases hf) ?_ hrole hne
  intro v w _ _ hstep _ hrole _
  cases hstep with
  | successor => cases hrole
  | child => cases hrole
  | parent hin => exact hasChildren_iff.mpr ⟨v.id, (inside_iff.mp hin).1⟩

theorem meets_follower_of_predecessor {l : Link} {role : Role}
    (h : net.Meets root former ⟨l.predecessor, role⟩) (hl : l ∈ net.bindingLinks x)
    (hc : net.contains x = true) (hx : ¬ ReflTransGen net.Inside x root) :
    net.Meets root former ⟨x, .follower⟩ := by
  obtain ⟨hlinks, hchain⟩ := mem_bindingLinks.mp hl
  have hs : l.successor ≠ root := fun he => hx (he ▸ hchain)
  have hstep : net.Leads root ⟨l.predecessor, role⟩ ⟨l.successor, .follower⟩ :=
    .successor (mem_linksFrom.mpr ⟨hlinks, rfl⟩) (contains_of_reflTransGen hchain hc)
  exact (h.leads hstep hs).descend hchain hx

/-! ## The search meets all of it -/

section
variable (hroot : net.contains root = true)
include hroot

theorem startVisits_subset : net.startVisits root former ⊆ Visit.allOf net.items.keys := by
  intro v hv
  rw [Visit.mem_allOf, mem_keys]
  obtain ⟨_, hv | ⟨_, hc⟩⟩ := mem_startVisits.mp hv
  · exact hv ▸ hroot
  · exact hc

theorem visitsAfter_subset (v : Visit) :
    net.visitsAfter root v ⊆ Visit.allOf net.items.keys := by
  intro w hw
  rw [Visit.mem_allOf, mem_keys]
  obtain ⟨u, hu, rfl⟩ := mem_visitsAfter.mp hw
  split
  · exact hroot
  · exact hu.contains

omit hroot in
theorem length_allOf_le : (Visit.allOf net.items.keys).length ≤ 2 * (net.items.size + 1) := by
  rw [Visit.length_allOf, Std.ExtTreeMap.length_keys]
  omega

theorem mem_visitsFrom_follower :
    ⟨x, .follower⟩ ∈ net.visitsFrom root former ↔ net.Meets root former ⟨x, .follower⟩ :=
  Visit.mem_trace_follower_iff (startVisits_subset hroot) (fun v _ => visitsAfter_subset hroot v)
    length_allOf_le fun _ _ => visitsAfter_mono

theorem exists_mem_visitsFrom :
    (∃ v ∈ net.visitsFrom root former, v.id = x) ↔ ∃ role, net.Meets root former ⟨x, role⟩ :=
  Visit.exists_mem_trace_iff (startVisits_subset hroot) (fun v _ => visitsAfter_subset hroot v)
    length_allOf_le fun _ _ => visitsAfter_mono

end

theorem mem_dependencies : y ∈ net.dependencies x ↔
    (∃ l ∈ net.bindingLinks x, l.predecessor = y) ∨ net.parent? y = some x := by
  simp only [dependencies, List.mem_append, List.mem_map, mem_childrenOf]

theorem predecessor_mem_dependencies {l : Link} (hl : l ∈ net.bindingLinks x) :
    l.predecessor ∈ net.dependencies x :=
  mem_dependencies.mpr (Or.inl ⟨l, hl, rfl⟩)

theorem child_mem_dependencies (hy : y ∈ net.childrenOf x) : y ∈ net.dependencies x :=
  mem_dependencies.mpr (Or.inr (mem_childrenOf.mp hy))

end Network

namespace Agenda
variable {net : Network} {root x y : ItemId} {former : Option ItemId} {visits : List Visit}

/-! ## Roles -/

theorem rolesOf_append (v : Visit) : rolesOf root (visits ++ [v]) =
    if v.id = root then rolesOf root visits else (rolesOf root visits).insert v.id v.role := by
  rw [rolesOf, List.foldl_append]; rfl

theorem mem_rolesOf : x ∈ rolesOf root visits ↔ x ≠ root ∧ ∃ v ∈ visits, v.id = x := by
  induction visits using List.reverseRecOn with
  | nil => simp [rolesOf]
  | append_singleton visits v ih =>
    rw [rolesOf_append]
    simp only [List.mem_append, List.mem_singleton]
    split
    · rename_i hv
      rw [ih]
      refine and_congr_right fun hx => exists_congr fun u => and_congr_left fun hu => ?_
      exact ⟨Or.inl, fun h => h.resolve_right fun he => hx (by rw [← hu, he, hv])⟩
    · rename_i hv
      rw [Std.ExtTreeMap.mem_insert, Std.compare_eq_iff_eq, ih]
      constructor
      · rintro (rfl | ⟨hx, u, hu, hid⟩)
        · exact ⟨hv, v, Or.inr rfl, rfl⟩
        · exact ⟨hx, u, Or.inl hu, hid⟩
      · rintro ⟨hx, u, hu | rfl, hid⟩
        · exact Or.inr ⟨hx, u, hu, hid⟩
        · exact Or.inl hid

theorem mem_of_rolesOf {role : Role} (h : (rolesOf root visits)[x]? = some role) :
    ⟨x, role⟩ ∈ visits := by
  induction visits using List.reverseRecOn with
  | nil => simp [rolesOf] at h
  | append_singleton visits v ih =>
    rw [rolesOf_append] at h
    split at h
    · exact List.mem_append_left _ (ih h)
    · simp only [Std.ExtTreeMap.getElem?_insert, Std.compare_eq_iff_eq] at h
      split at h
      · rename_i hid
        cases h
        exact List.mem_append_right _ (by rw [← hid]; exact List.mem_singleton_self v)
      · exact List.mem_append_left _ (ih h)

/-- A visit as a follower decides the role: it covers any visit of the item that could come later. -/
theorem rolesOf_follower (hp : visits.Pairwise fun earlier later => earlier.covers later = false)
    (hx : x ≠ root) (h : ⟨x, .follower⟩ ∈ visits) :
    (rolesOf root visits)[x]? = some .follower := by
  induction visits using List.reverseRecOn with
  | nil => cases h
  | append_singleton visits v ih =>
    obtain ⟨hp, _, hlast⟩ := List.pairwise_append.mp hp
    rw [rolesOf_append]
    rcases List.mem_append.mp h with h | h
    · have hne : v.id ≠ x := by
        intro hid
        have hc := hlast _ h v (List.mem_singleton_self v)
        rw [Visit.covers_iff.mpr ⟨hid.symm, Or.inr rfl⟩] at hc
        cases hc
      split
      · exact ih hp h
      · simp only [Std.ExtTreeMap.getElem?_insert, Std.compare_eq_iff_eq, if_neg hne]
        exact ih hp h
    · obtain rfl := List.mem_singleton.mp h
      rw [if_neg hx, Std.ExtTreeMap.getElem?_insert_self]

section
variable (hroot : net.contains root = true)
include hroot

theorem mem_roles :
    x ∈ (ofChange net root former).roles ↔ x ≠ root ∧ ∃ role, net.Meets root former ⟨x, role⟩ := by
  rw [← Network.exists_mem_visitsFrom hroot]
  exact mem_rolesOf

theorem roles_eq_follower : (ofChange net root former).roles[x]? = some .follower ↔
    x ≠ root ∧ net.Meets root former ⟨x, .follower⟩ := by
  rw [← Network.mem_visitsFrom_follower hroot]
  constructor
  · intro h
    have hmem : x ∈ rolesOf root (net.visitsFrom root former) :=
      Std.ExtTreeMap.mem_iff_isSome_getElem?.mpr (Option.isSome_of_eq_some h)
    exact ⟨(mem_rolesOf.mp hmem).1, mem_of_rolesOf h⟩
  · rintro ⟨hx, h⟩
    exact rolesOf_follower Visit.pairwise_trace hx h

/-- The role of an item is told by the visits of it that are met. -/
theorem getElem?_roles_congr {net' : Network} {root' x' : ItemId} {former' : Option ItemId}
    (hroot' : net'.contains root' = true) (hx : x = root ↔ x' = root')
    (h : ∀ role, net.Meets root former ⟨x, role⟩ ↔ net'.Meets root' former' ⟨x', role⟩) :
    (ofChange net root former).roles[x]? = (ofChange net' root' former').roles[x']? := by
  have hfollower : (ofChange net root former).roles[x]? = some .follower ↔
      (ofChange net' root' former').roles[x']? = some .follower := by
    rw [roles_eq_follower hroot, roles_eq_follower hroot', h, ne_eq, hx]
  have hmem : x ∈ (ofChange net root former).roles ↔
      x' ∈ (ofChange net' root' former').roles := by
    rw [mem_roles hroot, mem_roles hroot', ne_eq, hx]
    simp only [h]
  rw [Std.ExtTreeMap.mem_iff_isSome_getElem?, Std.ExtTreeMap.mem_iff_isSome_getElem?] at hmem
  revert hfollower hmem
  generalize (ofChange net root former).roles[x]? = a
  generalize (ofChange net' root' former').roles[x']? = b
  rcases a with _ | _ | _ <;> rcases b with _ | _ | _ <;> simp

theorem roles_congr {net' : Network} (hroot' : net'.contains root = true)
    (h : ∀ v, net.Meets root former v ↔ net'.Meets root former v) :
    (ofChange net root former).roles = (ofChange net' root former).roles :=
  Std.ExtTreeMap.ext_getElem? fun _ =>
    getElem?_roles_congr hroot hroot' Iff.rfl fun _ => h _

theorem mem_issues {i : Issue} : i ∈ (ofChange net root former).issues ↔
    ∃ x, (∃ role, net.Meets root former ⟨x, role⟩) ∧ i ∈ net.issuesAt x := by
  simp only [ofChange, List.mem_flatMap]
  constructor
  · rintro ⟨v, hv, hi⟩
    exact ⟨v.id, (Network.exists_mem_visitsFrom hroot).mp ⟨v, hv, rfl⟩, hi⟩
  · rintro ⟨x, hx, hi⟩
    obtain ⟨v, hv, rfl⟩ := (Network.exists_mem_visitsFrom hroot).mpr hx
    exact ⟨v, hv, hi⟩

theorem contains_of_mem_roles (h : x ∈ (ofChange net root former).roles) :
    net.contains x = true := by
  obtain ⟨_, _, hm⟩ := (mem_roles hroot).mp h
  exact hm.contains hroot

end

/-! ## Order -/

theorem mem_order_or_cyclic : x ∈ (ofChange net root former).order ∨
    x ∈ (ofChange net root former).cyclic ↔ x ∈ (ofChange net root former).roles := by
  rw [← Std.ExtTreeMap.mem_keys]
  exact Arrangement.mem_ofNeeds

theorem nodup_order : (ofChange net root former).order.Nodup :=
  Arrangement.nodup_order Std.ExtTreeMap.nodup_keys

theorem mem_order_iff : x ∈ (ofChange net root former).order ↔
    x ∈ (ofChange net root former).roles ∧ x ∉ (ofChange net root former).cyclic := by
  rw [← mem_order_or_cyclic]
  constructor
  · exact fun h => ⟨Or.inl h, Arrangement.not_mem_stuck Std.ExtTreeMap.nodup_keys h⟩
  · exact fun h => h.1.resolve_right h.2

theorem nodup_cyclic : (ofChange net root former).cyclic.Nodup :=
  Arrangement.nodup_stuck Std.ExtTreeMap.nodup_keys

theorem root_not_mem_order : root ∉ (ofChange net root former).order := fun h =>
  (mem_rolesOf.mp (mem_order_or_cyclic.mp (Or.inl h))).1 rfl

/-- A dependency of an ordered item is the item itself, stands before it, or is not concerned. -/
theorem dependency_before {before after : List ItemId}
    (h : (ofChange net root former).order = before ++ x :: after) (hy : y ∈ net.dependencies x)
    (hne : y ≠ x) (hr : y ∈ (ofChange net root former).roles) : y ∈ before :=
  Arrangement.need_before h (List.mem_filter.mpr ⟨hy, by simpa using hne⟩)
    (Std.ExtTreeMap.mem_keys.mpr hr)

/-- What holds of all items out of order, and of an ordered item as soon as it holds of the others that
this one depends on, holds of all items. -/
theorem induct {P : ItemId → Prop} (hrest : ∀ x, x ∉ (ofChange net root former).order → P x)
    (hstep : ∀ x ∈ (ofChange net root former).order,
      (∀ y ∈ net.dependencies x, y ≠ x → P y) → P x) (x : ItemId) : P x := by
  by_cases hx : x ∈ (ofChange net root former).order
  · refine Arrangement.order_induct (fun x hx ih => hstep x hx fun y hy hne => ?_) x hx
    by_cases horder : y ∈ (ofChange net root former).order
    · exact ih y (List.mem_filter.mpr ⟨hy, by simpa using hne⟩) horder
    · exact hrest y horder
  · exact hrest x hx

/-- Agendas of the same items that depend on one another alike are worked off alike. -/
theorem arranged_congr_among {net' : Network}
    (hroles : (ofChange net root former).roles = (ofChange net' root former).roles)
    (h : ∀ x ∈ (ofChange net root former).roles, ∀ y ∈ (ofChange net root former).roles,
      y ∈ net.dependencies x ↔ y ∈ net'.dependencies x) :
    (ofChange net root former).order = (ofChange net' root former).order ∧
      (ofChange net root former).cyclic = (ofChange net' root former).cyclic := by
  have harranged : Arrangement.ofNeeds (fun id => (net.dependencies id).filter (· ≠ id))
      (ofChange net root former).roles.keys =
      Arrangement.ofNeeds (fun id => (net'.dependencies id).filter (· ≠ id))
      (ofChange net' root former).roles.keys := by
    rw [← hroles]
    refine Arrangement.ofNeeds_congr_among fun x hx y hy => ?_
    rw [List.mem_filter, List.mem_filter,
      h x (Std.ExtTreeMap.mem_keys.mp hx) y (Std.ExtTreeMap.mem_keys.mp hy)]
  exact ⟨congrArg Arrangement.order harranged, congrArg Arrangement.stuck harranged⟩

/-- Agendas of the same items with the same dependencies are worked off alike. -/
theorem arranged_congr {net' : Network}
    (hroles : (ofChange net root former).roles = (ofChange net' root former).roles)
    (h : ∀ x ∈ (ofChange net root former).roles, ∀ y,
      y ∈ net.dependencies x ↔ y ∈ net'.dependencies x) :
    (ofChange net root former).order = (ofChange net' root former).order ∧
      (ofChange net root former).cyclic = (ofChange net' root former).cyclic :=
  arranged_congr_among hroles fun x hx y _ => h x hx y

end Agenda

end WorkPlan
