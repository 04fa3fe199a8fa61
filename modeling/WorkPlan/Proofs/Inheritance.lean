import WorkPlan.Proofs.Bounds
import WorkPlan.Proofs.ParentLoop

/-! # What an item inherits from its parents

The way up from an item goes along parents until one is missing or was met before. There is one such way
from each item, because an item has one parent at most, and the ancestors are what it meets
(`wayUp_iff`); more steps than there are items would not lead further. The links into the items of the way
bind the item, each of them once (`nodup_bindingLinks`), so an item is bound by whatever binds its parent,
also where both are on one loop and their ways stop at different places. -/

namespace WorkPlan
open Relation

namespace Network
variable {net : Network} {x p : ItemId} {steps : Nat} {seen way : List ItemId} {l : Link}

/-- Whether a list is the way up from an item: from parent to parent, each of which exists and is met for
the first time, up to one that is missing or was met before, or to the top. -/
structure WayUp (net : Network) (x : ItemId) (way : List ItemId) : Prop where
  isChain : (x :: way).IsChain net.Inside
  nodup : (x :: way).Nodup
  ends : ∀ p, net.parent? ((x :: way).getLast (List.cons_ne_nil x way)) = some p →
    net.contains p = false ∨ p ∈ x :: way

/-! ## One way up -/

theorem nodup_cons_ancestors : (x :: net.ancestors x).Nodup :=
  List.nodup_cons.mpr ⟨fun h => (mem_ancestors.mp h).1 rfl, nodup_climb⟩

theorem wayUp_ancestors : net.WayUp x (net.ancestors x) where
  isChain := isChain_climb _ _ x
  nodup := nodup_cons_ancestors
  ends p hp := by
    cases hc : net.contains p with
    | false => exact Or.inl rfl
    | true =>
      have hlast : ReflTransGen net.Inside x ((x :: net.ancestors x).getLast (List.cons_ne_nil _ _)) :=
        mem_cons_ancestors.mp (List.getLast_mem _)
      exact Or.inr (mem_cons_ancestors.mpr (hlast.tail (inside_iff.mpr ⟨hp, hc⟩)))

/-- A climb takes the way that there is: one that meets nothing seen before, and ends where the next
parent is missing or was seen. -/
theorem climb_eq_of_isChain (hchain : (x :: way).IsChain net.Inside) (hn : (way ++ seen).Nodup)
    (hends : ∀ p, net.Inside ((x :: way).getLast (List.cons_ne_nil x way)) p → p ∈ way ++ seen)
    (hsteps : way.length ≤ steps) : net.climb steps seen x = way := by
  induction steps generalizing x seen way with
  | zero => exact (List.eq_nil_of_length_eq_zero (Nat.le_zero.mp hsteps)).symm
  | succ steps ih =>
    cases way with
    | nil =>
      rw [climb]
      split
      · rfl
      · rename_i p hp
        exact if_pos (hends p hp)
    | cons p rest =>
      obtain ⟨hxp, hrest⟩ := List.isChain_cons_cons.mp hchain
      have hperm : (p :: rest ++ seen).Perm (rest ++ p :: seen) := List.perm_middle.symm
      have hseen : p ∉ seen := fun h =>
        (List.nodup_cons.mp hn).1 (List.mem_append_right rest h)
      rw [climb, show net.container? x = some p from hxp]
      simp only [if_neg hseen, List.cons.injEq, true_and]
      exact ih hrest (hperm.nodup_iff.mp hn) (fun q hq => hperm.mem_iff.mp (hends q hq))
        (Nat.le_of_succ_le_succ hsteps)

theorem WayUp.length_le (h : net.WayUp x way) : way.length ≤ net.items.size := by
  have hleads : (x :: way).Pairwise (TransGen net.Inside) :=
    (h.isChain.imp fun _ _ => .single).pairwise
  have hkeys : way ⊆ net.items.keys := by
    intro a ha
    obtain ⟨_, _, hin⟩ := TransGen.tail'_iff.mp ((List.pairwise_cons.mp hleads).1 a ha)
    exact mem_keys.mpr hin.contains_right
  rw [← Std.ExtTreeMap.length_keys]
  exact ((List.nodup_cons.mp h.nodup).2.subperm hkeys).length_le

theorem WayUp.climb_eq (h : net.WayUp x way) (hsteps : net.items.size ≤ steps) :
    net.climb steps [x] x = way := by
  have hperm : (x :: way).Perm (way ++ [x]) := (List.perm_append_singleton x way).symm
  refine climb_eq_of_isChain h.isChain (hperm.nodup_iff.mp h.nodup) (fun p hp => ?_)
    (h.length_le.trans hsteps)
  obtain ⟨hp, hc⟩ := inside_iff.mp hp
  refine hperm.mem_iff.mp ((h.ends p hp).resolve_left ?_)
  rw [hc]
  exact Bool.noConfusion

theorem wayUp_iff : net.WayUp x way ↔ way = net.ancestors x :=
  ⟨fun h => (h.climb_eq (Nat.le_refl _)).symm, fun h => h ▸ wayUp_ancestors⟩

/-! ## What binds an item -/

theorem nodup_bindingLinks : (net.bindingLinks x).Nodup := by
  have hway : net.bindingLinks x = (x :: net.ancestors x).flatMap net.linksInto := rfl
  rw [hway, List.nodup_flatMap]
  refine ⟨fun a _ => net.nodup_links.filter _, nodup_cons_ancestors.imp fun hab l ha hb => ?_⟩
  exact hab ((mem_linksInto.mp ha).2.symm.trans (mem_linksInto.mp hb).2)

theorem mem_bindingLinks_iff_ancestors :
    l ∈ net.bindingLinks x ↔ l ∈ net.links ∧ l.successor ∈ x :: net.ancestors x := by
  rw [mem_bindingLinks, mem_cons_ancestors]

/-- **An item inherits what binds the items above it, and nothing else**, in every network, loops of parents
included. The climb from an item ends within as many steps as there are items, and takes the one way up that
there is. The links that bind the item are those into it and into the items of this way, each listed once. So
a link that binds an existing parent binds the item, and the item may start no sooner than its parent. -/
theorem bindingLinks_exact (net : Network) (x : ItemId) :
    (∀ steps, net.items.size ≤ steps → net.climb steps [x] x = net.ancestors x) ∧
    (∀ way, net.WayUp x way ↔ way = net.ancestors x) ∧
    (net.bindingLinks x).Nodup ∧
    (∀ l, l ∈ net.bindingLinks x ↔ l ∈ net.links ∧ l.successor ∈ x :: net.ancestors x) ∧
    ∀ p, net.parent? x = some p → net.contains p = true →
      net.bindingLinks p ⊆ net.bindingLinks x ∧
        Date.Within (net.soonestStart p) (net.soonestStart x) := by
  refine ⟨fun _ => wayUp_ancestors.climb_eq, fun _ => wayUp_iff, nodup_bindingLinks,
    fun _ => mem_bindingLinks_iff_ancestors, fun p hp hc => ?_⟩
  have hin : net.Inside x p := inside_iff.mpr ⟨hp, hc⟩
  exact ⟨bindingLinks_subset_of_inside hin, soonestStart_within_of_inside hin⟩

end Network

/-! ## A bolt below a loop -/

/-- The bolt is inside the door, and door and frame are inside each other. The door waits for the permit, the
frame for the survey, and the bolt for its own delivery. -/
def doorPlan : Network := .ofLists
  [{ id := ⟨"bolt"⟩, parent := some ⟨"door"⟩ }, { id := ⟨"delivery"⟩, due := Date.ofDay? 3 },
    { id := ⟨"door"⟩, parent := some ⟨"frame"⟩ }, { id := ⟨"frame"⟩, parent := some ⟨"door"⟩ },
    { id := ⟨"permit"⟩, due := Date.ofDay? 5 }, { id := ⟨"survey"⟩, due := Date.ofDay? 7 }]
  [{ predecessor := ⟨"permit"⟩, successor := ⟨"door"⟩ },
    { predecessor := ⟨"survey"⟩, successor := ⟨"frame"⟩, lag := 1 },
    { predecessor := ⟨"delivery"⟩, successor := ⟨"bolt"⟩, lag := 9 }]

theorem bindingLinks_doorPlan :
    doorPlan.items.size ≤ 60 ∧ doorPlan.climb 60 [⟨"bolt"⟩] ⟨"bolt"⟩ = [⟨"door"⟩, ⟨"frame"⟩] ∧
      doorPlan.WayUp ⟨"bolt"⟩ [⟨"door"⟩, ⟨"frame"⟩] ∧ doorPlan.WayUp ⟨"door"⟩ [⟨"frame"⟩] ∧
      doorPlan.parent? ⟨"bolt"⟩ = some ⟨"door"⟩ ∧ doorPlan.contains ⟨"door"⟩ = true ∧
      (doorPlan.bindingLinks ⟨"door"⟩).length = 2 ∧
      doorPlan.bindingLinks ⟨"door"⟩ ⊆ doorPlan.bindingLinks ⟨"bolt"⟩ ∧
      doorPlan.soonestStart ⟨"door"⟩ = some (.clamp 9) ∧
      doorPlan.soonestStart ⟨"bolt"⟩ = some (.clamp 13) ∧
      Date.Within (doorPlan.soonestStart ⟨"door"⟩) (doorPlan.soonestStart ⟨"bolt"⟩) := by
  have hsize : doorPlan.items.size ≤ 60 := by decide +kernel
  have hbolt : [⟨"door"⟩, ⟨"frame"⟩] = doorPlan.ancestors ⟨"bolt"⟩ := by decide +kernel
  have hdoor : [⟨"frame"⟩] = doorPlan.ancestors ⟨"door"⟩ := by decide +kernel
  have hparent : doorPlan.parent? ⟨"bolt"⟩ = some ⟨"door"⟩ := by decide +kernel
  have hcontains : doorPlan.contains ⟨"door"⟩ = true := by decide +kernel
  obtain ⟨hclimb, hway, _, _, hinherited⟩ := Network.bindingLinks_exact doorPlan ⟨"bolt"⟩
  obtain ⟨hlinks, hwithin⟩ := hinherited _ hparent hcontains
  exact ⟨hsize, (hclimb 60 hsize).trans hbolt.symm, (hway _).mpr hbolt, Network.wayUp_iff.mpr hdoor, hparent,
    hcontains, by decide +kernel, hlinks, by decide +kernel, by decide +kernel, hwithin⟩

end WorkPlan
