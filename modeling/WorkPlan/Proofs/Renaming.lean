import Mathlib.Logic.Equiv.Basic
import WorkPlan.Edit
import WorkPlan.Issue
import WorkPlan.Proofs.Agenda
import WorkPlan.Proofs.Bounds
import WorkPlan.Proofs.Reading

/-! # Networks under other names

A renaming gives every identifier another one, no two of them the same, and keeps blank ones blank. It
takes the order of identifiers apart, and with it the order of items, of children and of all that is
ready at one time. Every query of a renamed network answers with the renamed answer, as a set where the
answer is a list (`Renames`), and so does the agenda of a change (`Renames.roles_eq`,
`Renames.mem_order`, `Renames.mem_cyclic`): which items a change concerns, and which of them are stuck,
does not depend on the order in which they are looked at. -/

namespace WorkPlan
open Relation

/-- Other identifiers for all items: different items stay different, and just the blank identifiers
become blank ones. -/
structure Renaming where
  apply : ItemId → ItemId
  injective : Function.Injective apply
  isBlank_apply : ∀ id, (apply id).isBlank = id.isBlank

instance : CoeFun Renaming fun _ => ItemId → ItemId := ⟨Renaming.apply⟩

def Item.rename (x : Item) (r : Renaming) : Item := { x with id := r x.id, parent := x.parent.map r }

def Link.rename (l : Link) (r : Renaming) : Link :=
  { l with predecessor := r l.predecessor, successor := r l.successor }

def Network.rename (net : Network) (r : Renaming) : Network :=
  .ofLists (net.itemList.map (·.rename r)) (net.links.map (·.rename r))

def Issue.rename (i : Issue) (r : Renaming) : Issue :=
  match i with
  | .danglingLink p s => .danglingLink (r p) (r s)
  | .danglingParent item parent => .danglingParent (r item) (r parent)
  | .cycle items => .cycle (items.map r)

def Visit.rename (v : Visit) (r : Renaming) : Visit := ⟨r v.id, v.role⟩

theorem Visit.id_rename (v : Visit) (r : Renaming) : (v.rename r).id = r v.id := rfl

namespace Renaming
variable (r : Renaming) {x y : ItemId}

theorem inj : r x = r y ↔ x = y := r.injective.eq_iff

theorem map_eq_some_iff {p : Option ItemId} : p.map r = some (r x) ↔ p = some x := by
  rw [← Option.map_some]
  exact (Option.map_injective r.injective).eq_iff

/-- Two identifiers exchanged, both blank or neither of them. -/
def swap (a b : ItemId) (h : a.isBlank = b.isBlank) : Renaming where
  apply := Equiv.swap a b
  injective := (Equiv.swap a b).injective
  isBlank_apply id := by
    rw [Equiv.swap_apply_def]
    split
    · rename_i ha
      rw [ha, h]
    · split
      · rename_i hb
        rw [hb, h]
      · rfl

end Renaming

/-- A search over other names reaches the visits of the same items. -/
theorem Visit.reached_rename (r : Renaming) {next next' : Visit → List Visit}
    {start start' : List Visit} (hs : ∀ w, w ∈ start' ↔ ∃ v ∈ start, v.rename r = w)
    (hn : ∀ v w, w ∈ next' (v.rename r) ↔ ∃ u ∈ next v, u.rename r = w) {w : Visit} :
    Visit.Reached next' start' w ↔ ∃ v, v.rename r = w ∧ Visit.Reached next start v := by
  constructor
  · intro h
    induction h with
    | start h =>
      obtain ⟨v, hv, rfl⟩ := (hs _).mp h
      exact ⟨v, rfl, .start hv⟩
    | next _ hw ih =>
      obtain ⟨v, rfl, hv⟩ := ih
      obtain ⟨u, hu, rfl⟩ := (hn v _).mp hw
      exact ⟨u, rfl, hv.next hu⟩
  · rintro ⟨v, rfl, hv⟩
    induction hv with
    | start h => exact .start ((hs _).mpr ⟨_, h, rfl⟩)
    | next _ hw ih => exact ih.next ((hn _ _).mpr ⟨_, hw, rfl⟩)

/-- Items under other names are stuck just as they are under their own. -/
theorem Arrangement.mem_stuck_rename (r : Renaming) {needs needs' : ItemId → List ItemId}
    {ids ids' : List ItemId} (hids : ∀ k, k ∈ ids' ↔ ∃ x ∈ ids, r x = k)
    (hneeds : ∀ x k, k ∈ needs' (r x) ↔ ∃ y ∈ needs x, r y = k) {k : ItemId} :
    k ∈ (ofNeeds needs' ids').stuck ↔ ∃ x ∈ (ofNeeds needs ids).stuck, r x = k := by
  constructor
  · intro hk
    obtain ⟨s, hs, hsk⟩ := mem_stuck_iff.mp hk
    obtain ⟨x, _, rfl⟩ := (hids k).mp (hs k hsk).1
    refine ⟨x, mem_stuck_iff.mpr ⟨fun y => s (r y), fun y hy => ?_, hsk⟩, rfl⟩
    obtain ⟨hmem, z, hz, hsz⟩ := hs (r y) hy
    obtain ⟨y, hy, he⟩ := (hids _).mp hmem
    obtain ⟨w, hw, rfl⟩ := (hneeds _ z).mp hz
    exact ⟨r.injective he ▸ hy, w, hw, hsz⟩
  · rintro ⟨x, hx, rfl⟩
    obtain ⟨s, hs, hsx⟩ := mem_stuck_iff.mp hx
    refine mem_stuck_iff.mpr ⟨fun k => ∃ y, s y ∧ r y = k, ?_, x, hsx, rfl⟩
    rintro _ ⟨y, hy, rfl⟩
    obtain ⟨hmem, z, hz, hsz⟩ := hs y hy
    exact ⟨(hids _).mpr ⟨y, hmem, rfl⟩, r z, (hneeds y _).mpr ⟨z, hz, rfl⟩, z, hsz, rfl⟩

namespace Network

/-- Whether `net'` is `net` under other names, but for the order of the links. -/
structure Renames (r : Renaming) (net net' : Network) : Prop where
  item? : ∀ x, net'.item? (r x) = (net.item? x).map (·.rename r)
  known : ∀ k, net'.contains k = true → ∃ x, r x = k
  mem_links : ∀ l, l ∈ net'.links ↔ ∃ k ∈ net.links, k.rename r = l

theorem renames_rename (r : Renaming) (net : Network) : Renames r net (net.rename r) := by
  have hids : ((net.itemList.map (·.rename r)).map (·.id)).Nodup := by
    have hmap : (net.itemList.map (·.rename r)).map (·.id) = (net.itemList.map (·.id)).map r := by
      rw [List.map_map, List.map_map]
      rfl
    rw [hmap]
    exact (ItemId.nodup_of_ordered ordered_itemList).map r.injective
  have hitem : ∀ k y, (net.rename r).item? k = some y ↔
      ∃ x, net.item? x.id = some x ∧ x.rename r = y ∧ r x.id = k := by
    intro k y
    unfold rename ofLists
    rw [item?_foldl_addLink, item?_foldl_insert hids, item?_empty, Option.or_none,
      find?_id_eq_some_iff hids, List.mem_map]
    simp only [mem_itemList]
    constructor
    · rintro ⟨⟨x, hx, rfl⟩, rfl⟩
      exact ⟨x, hx, rfl, rfl⟩
    · rintro ⟨x, hx, rfl, rfl⟩
      exact ⟨⟨x, hx, rfl⟩, rfl⟩
  constructor
  case item? =>
    intro x
    ext y
    rw [hitem, Option.map_eq_some_iff]
    constructor
    · rintro ⟨z, hz, rfl, he⟩
      exact ⟨z, r.injective he ▸ hz, rfl⟩
    · rintro ⟨z, hz, rfl⟩
      have hid := id_of_item? hz
      exact ⟨z, hid.symm ▸ hz, rfl, congrArg r hid⟩
  case known =>
    intro k hk
    obtain ⟨y, hy⟩ := contains_iff.mp hk
    obtain ⟨x, _, _, rfl⟩ := (hitem k y).mp hy
    exact ⟨x.id, rfl⟩
  case mem_links =>
    intro l
    unfold rename ofLists
    rw [mem_links_foldl_addLink, links_foldl_insert, List.mem_map]
    simp [empty]

namespace Renames
variable {r : Renaming} {net net' : Network} {x y k root : ItemId} {l : Link}
  {former : Option ItemId}
  (h : Renames r net net')
include h

/-! ## Items, parents and links -/

theorem contains_eq : net'.contains (r x) = net.contains x := by
  rw [contains_eq_isSome, h.item?, Option.isSome_map, contains_eq_isSome]

theorem span?_eq : net'.span? (r x) = net.span? x := by
  rw [span?, h.item?, Option.map_map, span?]
  rfl

theorem parent?_eq : net'.parent? (r x) = (net.parent? x).map r := by
  rw [parent?, h.item?, parent?]
  cases net.item? x <;> rfl

theorem parent?_eq_some_iff : net'.parent? k = some y ↔
    ∃ c p, r c = k ∧ r p = y ∧ net.parent? c = some p := by
  constructor
  · intro hp
    obtain ⟨c, rfl⟩ := h.known k (contains_of_parent? hp)
    rw [h.parent?_eq] at hp
    obtain ⟨p, hparent, rfl⟩ := Option.map_eq_some_iff.mp hp
    exact ⟨c, p, rfl, rfl, hparent⟩
  · rintro ⟨c, p, rfl, rfl, hp⟩
    rw [h.parent?_eq, hp]
    rfl

theorem parent?_iff : net'.parent? (r x) = some (r y) ↔ net.parent? x = some y := by
  rw [h.parent?_eq, r.map_eq_some_iff]

theorem inside_iff : net'.Inside (r x) k ↔ ∃ y, r y = k ∧ net.Inside x y := by
  constructor
  · intro hin
    obtain ⟨hp, hc⟩ := Network.inside_iff.mp hin
    obtain ⟨y, rfl⟩ := h.known k hc
    exact ⟨y, rfl, Network.inside_iff.mpr ⟨h.parent?_iff.mp hp, h.contains_eq ▸ hc⟩⟩
  · rintro ⟨y, rfl, hin⟩
    obtain ⟨hp, hc⟩ := Network.inside_iff.mp hin
    exact Network.inside_iff.mpr ⟨h.parent?_iff.mpr hp, h.contains_eq.trans hc⟩

theorem reflTransGen_iff :
    ReflTransGen net'.Inside (r x) k ↔ ∃ y, r y = k ∧ ReflTransGen net.Inside x y := by
  constructor
  · intro hr
    induction hr with
    | refl => exact ⟨x, rfl, .refl⟩
    | tail _ hyz ih =>
      obtain ⟨y, rfl, hxy⟩ := ih
      obtain ⟨z, rfl, hinside⟩ := h.inside_iff.mp hyz
      exact ⟨z, rfl, hxy.tail hinside⟩
  · rintro ⟨y, rfl, hr⟩
    exact hr.lift r fun a b hab => h.inside_iff.mpr ⟨b, rfl, hab⟩

theorem isAncestor_eq : net'.isAncestor (r y) (r x) = net.isAncestor y x := by
  rw [Bool.eq_iff_iff, isAncestor_iff_reflTransGen, isAncestor_iff_reflTransGen, r.inj.ne,
    h.reflTransGen_iff]
  simp [r.inj]

theorem mem_bindingLinks :
    l ∈ net'.bindingLinks (r x) ↔ ∃ k ∈ net.bindingLinks x, k.rename r = l := by
  rw [Network.mem_bindingLinks, h.mem_links, h.reflTransGen_iff]
  constructor
  · rintro ⟨⟨k, hk, rfl⟩, y, hy, hr⟩
    obtain rfl := r.injective hy
    exact ⟨k, Network.mem_bindingLinks.mpr ⟨hk, hr⟩, rfl⟩
  · rintro ⟨k, hk, rfl⟩
    obtain ⟨hk, hr⟩ := Network.mem_bindingLinks.mp hk
    exact ⟨⟨k, hk, rfl⟩, _, rfl, hr⟩

theorem mem_linksFrom : l ∈ net'.linksFrom (r x) ↔ ∃ k ∈ net.linksFrom x, k.rename r = l := by
  rw [Network.mem_linksFrom, h.mem_links]
  constructor
  · rintro ⟨⟨k, hk, rfl⟩, hx⟩
    exact ⟨k, Network.mem_linksFrom.mpr ⟨hk, r.injective hx⟩, rfl⟩
  · rintro ⟨k, hk, rfl⟩
    obtain ⟨hlinks, rfl⟩ := Network.mem_linksFrom.mp hk
    exact ⟨⟨k, hlinks, rfl⟩, rfl⟩

theorem mem_childrenOf : k ∈ net'.childrenOf (r x) ↔ ∃ c ∈ net.childrenOf x, r c = k := by
  simp only [Network.mem_childrenOf, h.parent?_eq_some_iff]
  constructor
  · rintro ⟨c, p, rfl, hp, hc⟩
    exact ⟨c, r.injective hp ▸ hc, rfl⟩
  · rintro ⟨c, hc, rfl⟩
    exact ⟨c, x, rfl, rfl, hc⟩

theorem mem_dependencies : k ∈ net'.dependencies (r x) ↔ ∃ y ∈ net.dependencies x, r y = k := by
  simp only [dependencies, List.mem_append, List.mem_map, h.mem_bindingLinks, h.mem_childrenOf]
  constructor
  · rintro (⟨_, ⟨l, hl, rfl⟩, rfl⟩ | ⟨c, hc, rfl⟩)
    · exact ⟨l.predecessor, Or.inl ⟨l, hl, rfl⟩, rfl⟩
    · exact ⟨c, Or.inr hc, rfl⟩
  · rintro ⟨y, ⟨l, hl, rfl⟩ | hc, rfl⟩
    · exact Or.inl ⟨_, ⟨l, hl, rfl⟩, rfl⟩
    · exact Or.inr ⟨y, hc, rfl⟩

theorem perm_childrenOf : (net'.childrenOf (r x)).Perm ((net.childrenOf x).map r) := by
  refine (List.perm_ext_iff_of_nodup nodup_childrenOf
    (nodup_childrenOf.map r.injective)).mpr fun k => ?_
  rw [h.mem_childrenOf, List.mem_map]

theorem hasChildren_eq : net'.hasChildren (r x) = net.hasChildren x := by
  rw [hasChildren, h.perm_childrenOf.isEmpty_eq, List.isEmpty_map, hasChildren]

theorem soonestStartBy_eq {spanOf spanOf' : ItemId → Option Span}
    (hs : ∀ l ∈ net.bindingLinks x, spanOf' (r l.predecessor) = spanOf l.predecessor) :
    net'.soonestStartBy spanOf' (r x) = net.soonestStartBy spanOf x := by
  have hwithin : ∀ c, Date.Within (net'.soonestStartBy spanOf' (r x)) c ↔
      Date.Within (net.soonestStartBy spanOf x) c := by
    intro c
    rw [within_soonestStartBy, within_soonestStartBy]
    constructor
    · intro hw l hl
      have hrenamed := hw (l.rename r) (h.mem_bindingLinks.mpr ⟨l, hl, rfl⟩)
      rwa [Link.rename, hs l hl] at hrenamed
    · intro hw l hl
      obtain ⟨k, hk, rfl⟩ := h.mem_bindingLinks.mp hl
      rw [Link.rename, hs k hk]
      exact hw k hk
  exact ((hwithin _).mpr (Date.within_refl _)).antisymm ((hwithin _).mp (Date.within_refl _))

theorem insert (item : Item) : Renames r (net.insert item) (net'.insert (item.rename r)) := by
  have hid : (item.rename r).id = r item.id := rfl
  constructor
  case item? =>
    intro x
    rw [item?_insert, item?_insert, hid, h.item?]
    simp only [r.inj]
    split <;> rfl
  case known =>
    intro k hk
    obtain ⟨y, hy⟩ := contains_iff.mp hk
    rw [item?_insert] at hy
    split at hy
    · rename_i he
      exact ⟨item.id, he⟩
    · exact h.known k (contains_iff.mpr ⟨y, hy⟩)
  case mem_links => exact h.mem_links

/-! ## What a change leads to -/

theorem leads_iff {v w : Visit} :
    net'.Leads (r root) (v.rename r) w ↔ ∃ u, net.Leads root v u ∧ u.rename r = w := by
  constructor
  · intro hl
    cases hl with
    | successor hl hc =>
      obtain ⟨k, hk, rfl⟩ := h.mem_linksFrom.mp hl
      exact ⟨_, .successor hk (h.contains_eq ▸ hc), rfl⟩
    | child hv hp hc =>
      obtain ⟨c, p, rfl, hid, hp⟩ := h.parent?_eq_some_iff.mp hp
      exact ⟨_, .child hv (r.injective hid ▸ hp) (r.inj.ne.mp hc), rfl⟩
    | parent hp =>
      obtain ⟨p, rfl, hinside⟩ := h.inside_iff.mp hp
      exact ⟨_, .parent hinside, rfl⟩
  · rintro ⟨u, hl, rfl⟩
    cases hl with
    | @successor l hl hc =>
      exact .successor (l := l.rename r) (h.mem_linksFrom.mpr ⟨l, hl, rfl⟩) (h.contains_eq.trans hc)
    | child hv hp hc => exact .child hv (h.parent?_iff.mpr hp) (r.inj.ne.mpr hc)
    | parent hp => exact .parent (h.inside_iff.mpr ⟨_, rfl, hp⟩)

theorem mem_visitsAfter {v w : Visit} : w ∈ net'.visitsAfter (r root) (v.rename r) ↔
    ∃ u ∈ net.visitsAfter root v, u.rename r = w := by
  have hroot : ∀ u : Visit, (if (u.rename r).id = r root then ⟨r root, .ancestor⟩ else u.rename r) =
      (if u.id = root then (⟨root, .ancestor⟩ : Visit) else u).rename r := by
    intro u
    rw [Visit.id_rename]
    by_cases hu : u.id = root
    · rw [if_pos hu, if_pos (congrArg r hu)]
      rfl
    · rw [if_neg hu, if_neg fun he => hu (r.injective he)]
  simp only [Network.mem_visitsAfter, h.leads_iff]
  constructor
  · rintro ⟨_, ⟨u, hl, rfl⟩, rfl⟩
    exact ⟨_, ⟨u, hl, rfl⟩, (hroot u).symm⟩
  · rintro ⟨_, ⟨u, hl, rfl⟩, rfl⟩
    exact ⟨_, ⟨u, hl, rfl⟩, (hroot u).symm⟩

theorem mem_startVisits {w : Visit} : w ∈ net'.startVisits (r root) (former.map r) ↔
    ∃ v ∈ net.startVisits root former, v.rename r = w := by
  simp only [Network.mem_startVisits]
  constructor
  · obtain ⟨k, role⟩ := w
    rintro ⟨rfl, rfl | ⟨hf, hc⟩⟩
    · exact ⟨⟨root, .ancestor⟩, ⟨rfl, Or.inl rfl⟩, rfl⟩
    · obtain ⟨p, hp, rfl⟩ := Option.map_eq_some_iff.mp hf
      exact ⟨⟨p, .ancestor⟩, ⟨rfl, Or.inr ⟨hp, h.contains_eq ▸ hc⟩⟩, rfl⟩
  · rintro ⟨v, ⟨hrole, hv⟩, rfl⟩
    refine ⟨hrole, hv.imp (congrArg r) ?_⟩
    rintro ⟨hf, hc⟩
    exact ⟨r.map_eq_some_iff.mpr hf, h.contains_eq.trans hc⟩

theorem meets_iff {w : Visit} : net'.Meets (r root) (former.map r) w ↔
    ∃ v, v.rename r = w ∧ net.Meets root former v :=
  Visit.reached_rename r (fun _ => h.mem_startVisits) fun _ _ => h.mem_visitsAfter

theorem meets_rename {role : Role} : net'.Meets (r root) (former.map r) ⟨r x, role⟩ ↔
    net.Meets root former ⟨x, role⟩ := by
  rw [h.meets_iff]
  constructor
  · rintro ⟨⟨y, role⟩, hv, hm⟩
    obtain ⟨hid, rfl⟩ := Visit.mk.inj hv
    exact r.injective hid ▸ hm
  · exact fun hm => ⟨_, rfl, hm⟩

/-! ## The agenda -/

variable (hroot : net.contains root = true)
include hroot

theorem contains_root : net'.contains (r root) = true := h.contains_eq.trans hroot

theorem roles_eq : (Agenda.ofChange net' (r root) (former.map r)).roles[r x]? =
    (Agenda.ofChange net root former).roles[x]? :=
  Agenda.getElem?_roles_congr (h.contains_root hroot) hroot r.inj fun _ => h.meets_rename

theorem mem_roles : k ∈ (Agenda.ofChange net' (r root) (former.map r)).roles ↔
    ∃ x ∈ (Agenda.ofChange net root former).roles, r x = k := by
  constructor
  · intro hk
    obtain ⟨x, rfl⟩ := h.known k (Agenda.contains_of_mem_roles (h.contains_root hroot) hk)
    rw [Std.ExtTreeMap.mem_iff_isSome_getElem?, h.roles_eq hroot,
      ← Std.ExtTreeMap.mem_iff_isSome_getElem?] at hk
    exact ⟨x, hk, rfl⟩
  · rintro ⟨x, hx, rfl⟩
    rw [Std.ExtTreeMap.mem_iff_isSome_getElem?, h.roles_eq hroot,
      ← Std.ExtTreeMap.mem_iff_isSome_getElem?]
    exact hx

theorem mem_cyclic : k ∈ (Agenda.ofChange net' (r root) (former.map r)).cyclic ↔
    ∃ x ∈ (Agenda.ofChange net root former).cyclic, r x = k := by
  refine Arrangement.mem_stuck_rename r (fun k => ?_) fun x k => ?_
  · simp only [Std.ExtTreeMap.mem_keys]
    exact h.mem_roles hroot
  · simp only [List.mem_filter, h.mem_dependencies, decide_eq_true_eq]
    constructor
    · rintro ⟨⟨y, hy, rfl⟩, hne⟩
      exact ⟨y, ⟨hy, r.inj.ne.mp hne⟩, rfl⟩
    · rintro ⟨y, ⟨hy, hne⟩, rfl⟩
      exact ⟨⟨y, hy, rfl⟩, r.inj.ne.mpr hne⟩

theorem perm_cyclic : (Agenda.ofChange net' (r root) (former.map r)).cyclic.Perm
    ((Agenda.ofChange net root former).cyclic.map r) := by
  refine (List.perm_ext_iff_of_nodup Agenda.nodup_cyclic
    (Agenda.nodup_cyclic.map r.injective)).mpr fun k => ?_
  rw [h.mem_cyclic hroot, List.mem_map]

theorem mem_order : k ∈ (Agenda.ofChange net' (r root) (former.map r)).order ↔
    ∃ x ∈ (Agenda.ofChange net root former).order, r x = k := by
  simp only [Agenda.mem_order_iff, h.mem_roles hroot, h.mem_cyclic hroot]
  constructor
  · rintro ⟨⟨x, hx, rfl⟩, hc⟩
    exact ⟨x, ⟨hx, fun hxc => hc ⟨x, hxc, rfl⟩⟩, rfl⟩
  · rintro ⟨x, ⟨hx, hc⟩, rfl⟩
    refine ⟨⟨x, hx, rfl⟩, ?_⟩
    rintro ⟨y, hy, he⟩
    exact hc (r.injective he ▸ hy)

omit hroot in
theorem mem_issuesAt {i : Issue} :
    i ∈ net'.issuesAt (r x) ↔ ∃ j ∈ net.issuesAt x, j.rename r = i := by
  simp only [issuesAt, List.mem_append, List.mem_map, List.mem_filter, Option.mem_toList,
    Option.filter_eq_some_iff, Bool.not_eq_true', h.mem_linksFrom, h.parent?_eq]
  constructor
  · rintro (⟨_, ⟨⟨l, hl, rfl⟩, hc⟩, rfl⟩ | ⟨_, ⟨hp, hc⟩, rfl⟩)
    · exact ⟨_, Or.inl ⟨l, ⟨hl, h.contains_eq ▸ hc⟩, rfl⟩, rfl⟩
    · obtain ⟨p, hparent, rfl⟩ := Option.map_eq_some_iff.mp hp
      exact ⟨_, Or.inr ⟨p, ⟨hparent, h.contains_eq ▸ hc⟩, rfl⟩, rfl⟩
  · rintro ⟨_, ⟨l, ⟨hl, hc⟩, rfl⟩ | ⟨p, ⟨hp, hc⟩, rfl⟩, rfl⟩
    · exact Or.inl ⟨l.rename r, ⟨⟨l, hl, rfl⟩, h.contains_eq.trans hc⟩, rfl⟩
    · exact Or.inr ⟨r p, ⟨r.map_eq_some_iff.mpr hp, h.contains_eq.trans hc⟩, rfl⟩

theorem mem_issues {i : Issue} : i ∈ (Agenda.ofChange net' (r root) (former.map r)).issues ↔
    ∃ j ∈ (Agenda.ofChange net root former).issues, j.rename r = i := by
  simp only [Agenda.mem_issues hroot, Agenda.mem_issues (h.contains_root hroot), h.meets_iff]
  constructor
  · rintro ⟨_, ⟨role, ⟨x, _⟩, hv, hm⟩, hi⟩
    obtain ⟨rfl, rfl⟩ := Visit.mk.inj hv
    obtain ⟨j, hj, rfl⟩ := h.mem_issuesAt.mp hi
    exact ⟨j, ⟨x, ⟨_, hm⟩, hj⟩, rfl⟩
  · rintro ⟨j, ⟨x, ⟨role, hm⟩, hj⟩, rfl⟩
    exact ⟨r x, ⟨role, ⟨x, role⟩, rfl, hm⟩, h.mem_issuesAt.mpr ⟨j, hj, rfl⟩⟩

end Renames
end Network
end WorkPlan
