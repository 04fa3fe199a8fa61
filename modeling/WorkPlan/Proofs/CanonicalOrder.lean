import WorkPlan.Proofs.Countdown

/-! # The order in which an agenda is worked off

Counting puts the items of an agenda into the one order that a scan finds (`countdown_eq`), and never fails.
The order is canonical: each place holds the smallest item whose turn can come, and what is left out is what
waits for a circle (`canonicalOrder_ofNeeds`). All of this holds for any assignment of roles, of which the
one that a change leads to is a case (`countdown_canonical`). -/

namespace WorkPlan
open Relation

namespace ItemId

theorem pairwise_keys {β : Type} {table : IdMap β} : table.keys.Pairwise (· < ·) :=
  Std.ExtTreeMap.ordered_keys.imp lt_of_compare

end ItemId

namespace Network
variable {net : Network} {root x y : ItemId} {roles : IdMap Role}

/-- Whether `x` waits for `y` among the items with a role. Nothing waits for the root. -/
def WaitsAmong (net : Network) (root : ItemId) (roles : IdMap Role) (x y : ItemId) : Prop :=
  x ∈ roles ∧ y ∈ roles ∧ y ≠ root ∧ net.WaitsFor x y

/-- Whether an arrangement is the canonical one of the items with a role: no item is lost or repeated, each
stands behind those that it waits for, each place holds the smallest item whose turn can come, and stuck
are, in the order of identifiers, the items that wait for some that wait for one another in a circle. -/
structure CanonicalOrder (net : Network) (root : ItemId) (roles : IdMap Role) (a : Arrangement) :
    Prop where
  disjoint : ∀ x ∈ a.order, x ∉ a.stuck
  nodup_order : a.order.Nodup
  nodup_stuck : a.stuck.Nodup
  mem_iff : ∀ x, x ∈ a.order ∨ x ∈ a.stuck ↔ x ∈ roles
  behind : ∀ before x after, a.order = before ++ x :: after →
    ∀ y, net.WaitsAmong root roles x y → y ∈ before
  smallest : ∀ before x after, a.order = before ++ x :: after → ∀ y ∈ roles, y ∉ before →
    (∀ z, net.WaitsAmong root roles y z → z ∈ before) → x ≤ y
  ordered_stuck : a.stuck.Pairwise (· < ·)
  mem_stuck_iff : ∀ x, x ∈ a.stuck ↔
    ∃ y, ReflTransGen (net.WaitsAmong root roles) x y ∧ TransGen (net.WaitsAmong root roles) y y

theorem mem_needsAmong : y ∈ net.needsAmong root roles x ↔
    y ∈ roles ∧ y ≠ root ∧ net.WaitsFor x y := by
  simp only [needsAmong, List.mem_filter, Std.ExtTreeSet.mem_toList, Std.ExtTreeSet.mem_ofList,
    List.contains_iff_mem, Bool.and_eq_true, decide_eq_true_eq, ne_eq, WaitsFor, DependsOn,
    Std.ExtTreeMap.contains_iff_mem]
  constructor
  · rintro ⟨hdep, ⟨hroot, hne⟩, hmem⟩
    exact ⟨hmem, hroot, hdep, hne⟩
  · rintro ⟨hmem, hroot, hdep, hne⟩
    exact ⟨hdep, ⟨hroot, hne⟩, hmem⟩

theorem waitsAmong_iff : net.WaitsAmong root roles x y ↔
    x ∈ roles.keys ∧ y ∈ net.needsAmong root roles x ∧ y ∈ roles.keys := by
  rw [Std.ExtTreeMap.mem_keys, Std.ExtTreeMap.mem_keys, mem_needsAmong, WaitsAmong]
  exact and_congr_right fun _ => ⟨fun h => ⟨h, h.1⟩, And.left⟩

theorem countdown_eq (net : Network) (root : ItemId) (roles : IdMap Role) :
    net.countdown root roles = some (.ofNeeds (net.needsAmong root roles) roles.keys) := by
  refine Countdown.arrange_eq Std.ExtTreeMap.ordered_keys (fun x _ => ?_) fun x _ y hy => ?_
  · exact (ItemId.nodup_of_ordered Std.ExtTreeSet.ordered_toList).filter _
  · exact Std.ExtTreeMap.mem_keys.mpr (mem_needsAmong.mp hy).1

theorem canonicalOrder_ofNeeds (net : Network) (root : ItemId) (roles : IdMap Role) :
    net.CanonicalOrder root roles (.ofNeeds (net.needsAmong root roles) roles.keys) := by
  have hnodup : roles.keys.Nodup := Std.ExtTreeMap.nodup_keys
  constructor
  case disjoint => exact fun x hx => Arrangement.not_mem_stuck hnodup hx
  case nodup_order => exact Arrangement.nodup_order hnodup
  case nodup_stuck => exact Arrangement.nodup_stuck hnodup
  case mem_iff => exact fun x => Arrangement.mem_ofNeeds.trans Std.ExtTreeMap.mem_keys
  case behind =>
    intro before x after horder y hy
    obtain ⟨_, hneed, hmem⟩ := waitsAmong_iff.mp hy
    exact Arrangement.need_before horder hneed hmem
  case smallest =>
    intro before x after horder y hy hleft hready
    have hy : y ∈ roles.keys := Std.ExtTreeMap.mem_keys.mpr hy
    rcases Arrangement.first_ready hnodup horder hy hleft fun z hz hmem =>
      hready z (waitsAmong_iff.mpr ⟨hy, hz, hmem⟩) with rfl | hsub
    · exact ItemId.le_refl y
    · exact ItemId.le_of_lt (List.pairwise_iff_forall_sublist.mp ItemId.pairwise_keys hsub)
  case ordered_stuck => exact ItemId.pairwise_keys.sublist Arrangement.stuck_sublist
  case mem_stuck_iff => exact fun x => Arrangement.mem_stuck_iff_reaches fun _ _ => waitsAmong_iff

/-- The scan of an agenda is that of its items: the root is none of them, and needs outside do not count. -/
theorem ofChange_eq_ofNeeds (net : Network) (root : ItemId) (former : Option ItemId) :
    Arrangement.mk (Agenda.ofChange net root former).order (Agenda.ofChange net root former).cyclic =
      .ofNeeds (net.needsAmong root (Agenda.ofChange net root former).roles)
        (Agenda.ofChange net root former).roles.keys := by
  refine Arrangement.ofNeeds_congr_among fun x _ y hy => ?_
  rw [Std.ExtTreeMap.mem_keys] at hy
  have hroot : y ≠ root := (Agenda.mem_rolesOf.mp hy).1
  rw [List.mem_filter, decide_eq_true_eq, mem_needsAmong]
  exact ⟨fun h => ⟨hy, hroot, h⟩, fun h => h.2.2⟩

/-- **An agenda is worked off in a correct and canonical order, and counting finds it.** For any items with
roles counting gives their canonical order, and no count is ever lowered below zero; for those that a change
concerns this is the order of the agenda, with the same items left out. -/
theorem countdown_canonical (net : Network) (root : ItemId) :
    (∀ roles, ∃ a, net.countdown root roles = some a ∧ net.CanonicalOrder root roles a) ∧
    ∀ former, net.countdown root (Agenda.ofChange net root former).roles =
        some ⟨(Agenda.ofChange net root former).order, (Agenda.ofChange net root former).cyclic⟩ ∧
      net.CanonicalOrder root (Agenda.ofChange net root former).roles
        ⟨(Agenda.ofChange net root former).order, (Agenda.ofChange net root former).cyclic⟩ := by
  refine ⟨fun roles => ⟨_, countdown_eq net root roles, canonicalOrder_ofNeeds net root roles⟩,
    fun former => ?_⟩
  rw [ofChange_eq_ofNeeds]
  exact ⟨countdown_eq net root _, canonicalOrder_ofNeeds net root _⟩

end Network

end WorkPlan
