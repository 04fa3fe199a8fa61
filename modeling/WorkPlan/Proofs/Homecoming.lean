import WorkPlan.Homecoming
import WorkPlan.Proofs.FaultCounts

/-! # Climbs that come home

The chain leaves what a climb has met only by the last item that it came to (`Climbing.closed`). So a climb
that ends elsewhere has met all that the chain leads to, and home is not among it; one that comes home has
met the ancestors of the item and nothing else (`right_climbHome`). Each step takes up another one of the
parents that items name, so the steps that are allowed are enough. Hence the climbs from the items, one after
the other, find the items that an audit reports for loops of parents (`loopHeads?_eq`). -/

namespace WorkPlan
open Relation

/-- A part that holds what comes next to `x` and to itself holds all that `x` leads to. -/
theorem mem_of_transGen_of_closed {α : Type} {r : α → α → Prop} {s : α → Prop} {x y : α}
    (h : ∀ a, a = x ∨ s a → ∀ b, r a b → s b) (hy : TransGen r x y) : s y := by
  induction hy with
  | single hb => exact h x (Or.inl rfl) _ hb
  | tail _ hbc ih => exact h _ (Or.inr ih) _ hbc

/-- What the end of a climb from an item says about the item. -/
def Homecoming.Right (net : Network) (home : ItemId) : Homecoming → Prop
  | .home met => TransGen net.Inside home home ∧ ∀ a, a ∈ met ↔ a ∈ net.ancestors home
  | .away => ¬ TransGen net.Inside home home
  | .tooFar => False

namespace Network
variable {net : Network} {home id p x : ItemId} {steps : Nat} {met : Std.ExtTreeSet ItemId}

/-- The parents that items name, whether they exist or not. -/
def namedParents (net : Network) : List ItemId := net.itemList.filterMap (·.parent)

theorem mem_namedParents (h : net.parent? id = some p) : p ∈ net.namedParents := by
  obtain ⟨item, hitem, hp⟩ := Option.bind_eq_some_iff.mp h
  exact List.mem_filterMap.mpr ⟨item, (mem_itemList_of_item? hitem).1, hp⟩

/-! ## One climb -/

/-- What holds when a climb from `home` has come to `id`, which need not be an item. -/
structure Climbing (net : Network) (home : ItemId) (steps : Nat) (met : Std.ExtTreeSet ItemId)
    (id : ItemId) : Prop where
  notMet : home ∉ met
  leads : net.contains id = true → ReflTransGen net.Inside home id
  leadsTo : ∀ a ∈ met, a ≠ id → TransGen net.Inside home a
  closed : ∀ a, a = home ∨ a ∈ met → a ≠ id → ∀ b, net.Inside a b → b ∈ met
  room : ∃ unmet : List ItemId, unmet.length < steps ∧ ∀ a ∈ net.namedParents, a ∉ met → a ∈ unmet

/-- A climb goes on to a parent that it has not met. -/
theorem Climbing.next (h : net.Climbing home (steps + 1) met id) (hp : net.parent? id = some p)
    (hhome : p ≠ home) (hnew : p ∉ met) : net.Climbing home steps (met.insert p) p := by
  have hid := h.leads (contains_of_parent? hp)
  have hmem : ∀ a, a ∈ met.insert p ↔ p = a ∨ a ∈ met := fun a => by
    rw [Std.ExtTreeSet.mem_insert, Std.compare_eq_iff_eq]
  constructor
  case notMet => exact fun hmet => ((hmem home).mp hmet).elim hhome h.notMet
  case leads => exact fun hc => hid.tail (inside_iff.mpr ⟨hp, hc⟩)
  case leadsTo =>
    intro a ha hne
    have ha := ((hmem a).mp ha).resolve_left (Ne.symm hne)
    by_cases he : a = id
    · have hhome : id ≠ home := fun hi => h.notMet (hi ▸ he ▸ ha)
      exact he ▸ (reflTransGen_iff_eq_or_transGen.mp hid).resolve_left hhome
    · exact h.leadsTo a ha he
  case closed =>
    intro a ha hne b hab
    by_cases he : a = id
    · have hb : p = b := Option.some.inj (hp.symm.trans (he ▸ (inside_iff.mp hab).1))
      exact (hmem b).mpr (Or.inl hb)
    · refine (hmem b).mpr (Or.inr (h.closed a ?_ he b hab))
      exact ha.imp_right fun ha => ((hmem a).mp ha).resolve_left (Ne.symm hne)
  case room =>
    obtain ⟨unmet, hlength, hunmet⟩ := h.room
    have hleft : p ∈ unmet := hunmet p (mem_namedParents hp) hnew
    refine ⟨unmet.erase p, ?_, fun a ha hmet => ?_⟩
    · have hpos := List.length_pos_of_mem hleft
      rw [List.length_erase_of_mem hleft]
      omega
    · obtain ⟨hne, hmet⟩ := not_or.mp ((hmem a).not.mp hmet)
      exact (List.mem_erase_of_ne (Ne.symm hne)).mpr (hunmet a ha hmet)

/-- A climb that finds nothing new where it has come to has not come home. -/
theorem Climbing.not_loop (h : net.Climbing home steps met id)
    (hend : ∀ b, net.Inside id b → b ∈ met) : ¬ TransGen net.Inside home home := by
  refine fun hloop => h.notMet (mem_of_transGen_of_closed (s := (· ∈ met)) (fun a ha b hab => ?_) hloop)
  by_cases he : a = id
  · exact hend b (he ▸ hab)
  · exact h.closed a ha he b hab

/-- A climb that is back at home has met the ancestors of the item. -/
theorem Climbing.loop (h : net.Climbing home steps met id) (hc : net.contains home = true)
    (hp : net.parent? id = some home) :
    TransGen net.Inside home home ∧ ∀ a, a ∈ met ↔ a ∈ net.ancestors home := by
  have hback : net.Inside id home := inside_iff.mpr ⟨hp, hc⟩
  have hid := h.leads hback.contains_left
  refine ⟨.tail' hid hback, fun a => ?_⟩
  rw [mem_ancestors]
  constructor
  · intro ha
    have hne : a ≠ home := fun he => h.notMet (he ▸ ha)
    refine ⟨hne, ?_⟩
    by_cases he : a = id
    · exact he ▸ (reflTransGen_iff_eq_or_transGen.mp hid).resolve_left (he ▸ hne)
    · exact h.leadsTo a ha he
  · rintro ⟨hne, hlead⟩
    refine (mem_of_transGen_of_closed (s := fun b => b = home ∨ b ∈ met) ?_ hlead).resolve_left hne
    intro b hb c hbc
    by_cases he : b = id
    · exact Or.inl (Inside.unique (he ▸ hbc) hback)
    · exact Or.inr (h.closed b (or_self_left.mp hb) he c hbc)

theorem right_climbHome (hc : net.contains home = true) (h : net.Climbing home steps met id) :
    (net.climbHome home steps met id).Right net home := by
  induction steps generalizing met id with
  | zero =>
    obtain ⟨_, hlength, _⟩ := h.room
    exact absurd hlength (Nat.not_lt_zero _)
  | succ steps ih =>
    rw [climbHome]
    split
    · rename_i hnone
      refine h.not_loop fun b hb => ?_
      rw [inside_iff, hnone] at hb
      cases hb.1
    · rename_i p hp
      split
      · rename_i hhome
        exact h.loop hc (hhome ▸ hp)
      · rename_i hhome
        split
        · rename_i hmet
          refine h.not_loop fun b hb => ?_
          exact Option.some.inj (hp.symm.trans (inside_iff.mp hb).1) ▸ hmet
        · rename_i hnew
          exact ih (h.next hp hhome hnew)

theorem climbing_start : net.Climbing x (net.items.size + 1) ∅ x where
  notMet := Std.ExtTreeSet.not_mem_empty
  leads _ := .refl
  leadsTo _ ha := absurd ha Std.ExtTreeSet.not_mem_empty
  closed _ ha hne := absurd (ha.resolve_right Std.ExtTreeSet.not_mem_empty) hne
  room := by
    refine ⟨net.namedParents, Nat.lt_succ_of_le ?_, fun _ ha _ => ha⟩
    refine (List.length_filterMap_le _ _).trans (Nat.le_of_eq ?_)
    rw [itemList, List.length_map, Std.ExtTreeMap.length_toList]

/-! ## The climbs from all items -/

theorem standsForLoop?_eq (hc : net.contains x = true) :
    net.standsForLoop? x = some (net.containsItself x && (net.ancestors x).all (x ≤ ·)) := by
  have hstart : net.Climbing x (net.items.size + 1) ∅ x := climbing_start
  have hright := right_climbHome hc hstart
  rw [standsForLoop?]
  generalize net.climbHome x (net.items.size + 1) ∅ x = ending at hright ⊢
  cases ending with
  | home met =>
    obtain ⟨hloop, hmet⟩ := hright
    have hall : met.toList.all (x ≤ ·) = (net.ancestors x).all (x ≤ ·) := by
      rw [Bool.eq_iff_iff, List.all_eq_true, List.all_eq_true]
      simp only [Std.ExtTreeSet.mem_toList, hmet]
    rw [containsItself_iff.mpr hloop, Bool.true_and, ← hall]
  | away => rw [Bool.eq_false_iff.mpr (containsItself_iff.not.mpr hright), Bool.false_and]
  | tooFar => exact hright.elim

theorem loopHeadsAmong?_eq {ids : List ItemId} {p : ItemId → Bool}
    (h : ∀ x ∈ ids, net.standsForLoop? x = some (p x)) :
    net.loopHeadsAmong? ids = some (ids.filter p) := by
  induction ids with
  | nil => rfl
  | cons x rest ih =>
    obtain ⟨hx, hrest⟩ := List.forall_mem_cons.mp h
    rw [loopHeadsAmong?, hx, ih hrest, List.filter_cons]
    rfl

/-- The climbs end, and they find the items that an audit reports for loops of parents. -/
theorem loopHeads?_eq : net.loopHeads? = some net.hierarchyCycles :=
  loopHeadsAmong?_eq fun _ hx => standsForLoop?_eq (mem_ids.mp hx)

end Network

end WorkPlan
