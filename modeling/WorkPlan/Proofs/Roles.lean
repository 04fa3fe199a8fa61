import WorkPlan.Proofs.Agenda

/-! # The roles that a change gives

A role is passed on along links, down into followers, and up to parents. An assignment of roles is closed
if it gives whatever is passed on; the rules are the steps of the search (`closedRoles_iff`). The agenda of
a change has such an assignment (`closedRoles_ofChange`), and every other one gives each item at least the
role that it has there (`rolesLe_of_closedRoles`). -/

namespace WorkPlan

/-! ## Assignments of roles -/

/-- A follower is more than an ancestor. -/
instance : LE Role := ⟨fun r s => r = .ancestor ∨ s = .follower⟩

instance (r s : Role) : Decidable (r ≤ s) :=
  inferInstanceAs (Decidable (r = .ancestor ∨ s = .follower))

namespace Role
variable {r s t : Role}

theorem ancestor_le : .ancestor ≤ r := Or.inl rfl

theorem le_refl : r ≤ r := by
  cases r
  · exact Or.inl rfl
  · exact Or.inr rfl

theorem le_trans (hrs : r ≤ s) (hst : s ≤ t) : r ≤ t := by
  rcases hst with rfl | rfl
  · rcases hrs with rfl | hs
    · exact ancestor_le
    · cases hs
  · exact Or.inr rfl

theorem eq_follower (h : .follower ≤ r) : r = .follower := h.resolve_left nofun

theorem le_total : r ≤ s ∨ s ≤ r := by
  cases r
  · exact Or.inl ancestor_le
  · exact Or.inr (Or.inr rfl)

theorem le_antisymm (hrs : r ≤ s) (hsr : s ≤ r) : r = s := by
  cases s
  · exact hrs.resolve_right nofun
  · exact eq_follower hsr

end Role

/-- Whether an assignment gives the item of a visit a role that is at least that of the visit. -/
def Gives (roles : ItemId → Option Role) (v : Visit) : Prop := ∃ r, roles v.id = some r ∧ v.role ≤ r

/-- Whether every item has at least the role in `roles'` that it has in `roles`. -/
def RolesLe (roles roles' : ItemId → Option Role) : Prop :=
  ∀ x r, roles x = some r → Gives roles' ⟨x, r⟩

section
variable {roles roles' : ItemId → Option Role} {v w : Visit} {x : ItemId}

theorem gives_ancestor_iff : Gives roles ⟨x, .ancestor⟩ ↔ (roles x).isSome = true := by
  rw [Option.isSome_iff_exists]
  exact exists_congr fun r => and_iff_left Role.ancestor_le

theorem gives_follower_iff : Gives roles ⟨x, .follower⟩ ↔ roles x = some .follower := by
  constructor
  · rintro ⟨r, hr, hle⟩
    exact Role.eq_follower hle ▸ hr
  · exact fun h => ⟨_, h, Role.le_refl⟩

theorem RolesLe.antisymm (h : RolesLe roles roles') (h' : RolesLe roles' roles) : roles = roles' := by
  have hsome : ∀ {a b : ItemId → Option Role} {x r}, RolesLe a b → RolesLe b a → a x = some r →
      b x = some r := by
    intro a b x r hab hba hr
    obtain ⟨s, hs, hrs⟩ := hab x r hr
    obtain ⟨t, ht, hst⟩ := hba x s hs
    obtain rfl : r = t := Option.some.inj (hr.symm.trans ht)
    exact hs.trans (congrArg some (Role.le_antisymm hst hrs))
  exact funext fun x => Option.ext fun r => ⟨hsome h h', hsome h' h⟩

end

/-! ## What passes a role on -/

namespace Network

/-- Whether an assignment of roles covers all that a change of the root concerns. The root itself has no
role, and passes on what an ancestor does. -/
structure ClosedRoles (net : Network) (root : ItemId) (former : Option ItemId)
    (roles : ItemId → Option Role) : Prop where
  root_eq_none : roles root = none
  formerParent : ∀ p, former = some p → net.contains p = true → p ≠ root → (roles p).isSome = true
  successor : ∀ l ∈ net.links, l.predecessor = root ∨ (roles l.predecessor).isSome = true →
    net.contains l.successor = true → l.successor ≠ root → roles l.successor = some .follower
  child : ∀ c x, net.parent? c = some x → roles x = some .follower → c ≠ root →
    roles c = some .follower
  parent : ∀ x p, net.Inside x p → x = root ∨ (roles x).isSome = true → p ≠ root →
    (roles p).isSome = true

variable {net : Network} {root x : ItemId} {former : Option ItemId}
  {roles roles' : ItemId → Option Role} {v w : Visit}

/-- The rules by which roles pass on are the steps of the search. -/
theorem closedRoles_iff : net.ClosedRoles root former roles ↔ roles root = none ∧
    (∀ v ∈ net.startVisits root former, v.id ≠ root → Gives roles v) ∧
      ∀ v w, v = ⟨root, .ancestor⟩ ∨ roles v.id = some v.role → net.Leads root v w → w.id ≠ root →
        Gives roles w := by
  constructor
  · intro h
    refine ⟨h.root_eq_none, fun v hv hne => ?_, fun v w hv hlead hne => ?_⟩
    · obtain ⟨id, role⟩ := v
      obtain ⟨rfl, rfl | ⟨hf, hc⟩⟩ := mem_startVisits.mp hv
      · exact absurd rfl hne
      · exact gives_ancestor_iff.mpr (h.formerParent id hf hc hne)
    · have hmet : v.id = root ∨ (roles v.id).isSome = true := by
        rcases hv with rfl | hv
        · exact Or.inl rfl
        · exact Or.inr (Option.isSome_of_eq_some hv)
      cases hlead with
      | @successor l hl hc =>
        obtain ⟨hl, hp⟩ := mem_linksFrom.mp hl
        exact gives_follower_iff.mpr (h.successor l hl (hp ▸ hmet) hc hne)
      | child hrole hp hc =>
        refine gives_follower_iff.mpr (h.child _ _ hp ?_ hc)
        rcases hv with rfl | hv
        · cases hrole
        · exact hrole ▸ hv
      | parent hp => exact gives_ancestor_iff.mpr (h.parent _ _ hp hmet hne)
  · rintro ⟨hroot, hstart, hstep⟩
    -- an item that has passed on a role was visited in some role
    have hvisit : ∀ x, x = root ∨ (roles x).isSome = true →
        ∃ role, (⟨x, role⟩ : Visit) = ⟨root, .ancestor⟩ ∨ roles x = some role := by
      rintro x (rfl | hx)
      · exact ⟨_, Or.inl rfl⟩
      · obtain ⟨role, hrole⟩ := Option.isSome_iff_exists.mp hx
        exact ⟨role, Or.inr hrole⟩
    constructor
    case root_eq_none => exact hroot
    case formerParent =>
      intro p hf hc hne
      exact gives_ancestor_iff.mp (hstart _ (mem_startVisits.mpr ⟨rfl, Or.inr ⟨hf, hc⟩⟩) hne)
    case successor =>
      intro l hl hp hc hne
      obtain ⟨role, hv⟩ := hvisit _ hp
      exact gives_follower_iff.mp
        (hstep _ _ hv (.successor (mem_linksFrom.mpr ⟨hl, rfl⟩) hc) hne)
    case child =>
      intro c x hp hx hc
      exact gives_follower_iff.mp (hstep ⟨x, .follower⟩ _ (Or.inr hx) (.child rfl hp hc) hc)
    case parent =>
      intro x p hin hx hne
      obtain ⟨role, hv⟩ := hvisit _ hx
      exact gives_ancestor_iff.mp (hstep _ _ hv (.parent hin) hne)

/-- A visit that an assignment gives its role leads on to visits that are given theirs. -/
theorem ClosedRoles.leads (h : net.ClosedRoles root former roles)
    (hv : v = ⟨root, .ancestor⟩ ∨ Gives roles v) (hlead : net.Leads root v w) (hw : w.id ≠ root) :
    Gives roles w := by
  obtain ⟨_, _, hstep⟩ := closedRoles_iff.mp h
  rcases hv with rfl | ⟨r, hr, hle⟩
  · exact hstep _ w (Or.inl rfl) hlead hw
  · have hcov : Visit.covers ⟨v.id, r⟩ v = true := Visit.covers_iff.mpr ⟨rfl, hle⟩
    exact hstep ⟨v.id, r⟩ w (Or.inr hr) (hlead.mono hcov) hw

theorem Meets.gives (h : net.Meets root former v) (hroles : net.ClosedRoles root former roles)
    (hv : v.id ≠ root) : Gives roles v := by
  refine (h.induct (P := fun v => v = ⟨root, .ancestor⟩ ∨ Gives roles v) (Or.inl rfl) ?_ ?_).resolve_left
    fun he => hv (he ▸ rfl)
  · intro p hf hc
    by_cases hp : p = root
    · exact Or.inl (hp ▸ rfl)
    · exact Or.inr (gives_ancestor_iff.mpr (hroles.formerParent p hf hc hp))
  · exact fun v w _ hv hlead hw => Or.inr (hroles.leads hv hlead hw)

end Network

/-! ## The agenda -/

namespace Agenda
variable {net : Network} {root x : ItemId} {former : Option ItemId}

abbrev role? (net : Network) (root : ItemId) (former : Option ItemId) (x : ItemId) : Option Role :=
  (ofChange net root former).roles[x]?

section
variable (hroot : net.contains root = true)
include hroot

theorem gives_iff {v : Visit} (hv : v.id ≠ root) : Gives (role? net root former) v ↔
    ∃ role, v.role ≤ role ∧ net.Meets root former ⟨v.id, role⟩ := by
  obtain ⟨x, role⟩ := v
  cases role with
  | follower =>
    rw [gives_follower_iff, roles_eq_follower hroot, and_iff_right hv]
    exact ⟨fun h => ⟨_, Role.le_refl, h⟩, fun ⟨r, hle, h⟩ => Role.eq_follower hle ▸ h⟩
  | ancestor =>
    rw [gives_ancestor_iff, ← Std.ExtTreeMap.mem_iff_isSome_getElem?, mem_roles hroot,
      and_iff_right hv]
    exact exists_congr fun r => (and_iff_right Role.ancestor_le).symm

theorem closedRoles_ofChange : net.ClosedRoles root former (role? net root former) := by
  have hnone : root ∉ (ofChange net root former).roles := fun h => ((mem_roles hroot).mp h).1 rfl
  have hmeets : ∀ v, Network.Meets net root former v → v.id ≠ root →
      Gives (role? net root former) v := fun v hv hne =>
    (gives_iff hroot hne).mpr ⟨v.role, Role.le_refl, hv⟩
  refine Network.closedRoles_iff.mpr ⟨Std.ExtTreeMap.getElem?_eq_none hnone,
    fun v hv hne => hmeets v (.start hv) hne, fun v w hv hlead hne => ?_⟩
  rcases hv with rfl | hv
  · exact hmeets w (Network.meets_root.leads hlead hne) hne
  · have hv' : v.id ≠ root := by
      intro he
      have hmem : v.id ∈ (ofChange net root former).roles :=
        Std.ExtTreeMap.mem_iff_isSome_getElem?.mpr (Option.isSome_of_eq_some hv)
      exact hnone (he ▸ hmem)
    obtain ⟨r, hle, hr⟩ := (gives_iff hroot hv').mp ⟨_, hv, Role.le_refl⟩
    have hcov : Visit.covers ⟨v.id, r⟩ v = true := Visit.covers_iff.mpr ⟨rfl, hle⟩
    exact hmeets w (hr.leads (hlead.mono hcov) hne) hne

theorem rolesLe_of_closedRoles {roles : ItemId → Option Role}
    (h : net.ClosedRoles root former roles) : RolesLe (role? net root former) roles := by
  intro x r hr
  have hx : x ≠ root := by
    rintro rfl
    rw [(closedRoles_ofChange hroot).root_eq_none] at hr
    cases hr
  obtain ⟨s, hle, hs⟩ := (gives_iff (v := ⟨x, r⟩) hroot hx).mp ⟨r, hr, Role.le_refl⟩
  obtain ⟨t, ht, hst⟩ := hs.gives h hx
  exact ⟨t, ht, Role.le_trans hle hst⟩

end

end Agenda

end WorkPlan
