import WorkPlan.Proofs.Homecoming
import WorkPlan.Proofs.LinkCycle

/-! # Loops of parents

An item has one container at most, so a loop of parents consists of what the chain leads to from any item of
it (`ParentLoop.mem_iff`), and there is only one through an item: the item and its ancestors
(`parentLoop_iff`). The item that an audit names for a loop is the smallest one of it. So each loop is named
once, and an item that only stands below a loop is not named. -/

namespace WorkPlan
open Relation

/-- Where steps are unique, there is one way only from an item on to the next time that it is met. -/
theorem eq_of_isChain_of_unique {α : Type} {r : α → α → Prop} (hr : ∀ a b c, r a b → r a c → b = c)
    {x y : α} {way way' : List α} (h : (x :: (way ++ [y])).IsChain r)
    (h' : (x :: (way' ++ [y])).IsChain r) (hy : y ∉ way) (hy' : y ∉ way') : way = way' := by
  induction way generalizing x way' with
  | nil =>
    cases way' with
    | nil => rfl
    | cons b rest' =>
      have hxb : r x b := (List.isChain_cons_cons.mp h').1
      have hxy : r x y := (List.isChain_cons_cons.mp h).1
      exact absurd (hr x y b hxy hxb ▸ List.mem_cons_self) hy'
  | cons a rest ih =>
    obtain ⟨hxa, hrest⟩ := List.isChain_cons_cons.mp h
    cases way' with
    | nil =>
      have hxy : r x y := (List.isChain_cons_cons.mp h').1
      exact absurd (hr x y a hxy hxa ▸ List.mem_cons_self) hy
    | cons b rest' =>
      obtain ⟨hxb, hrest'⟩ := List.isChain_cons_cons.mp h'
      obtain rfl := hr x a b hxa hxb
      rw [ih hrest hrest' (List.not_mem_of_not_mem_cons hy) (List.not_mem_of_not_mem_cons hy')]

namespace Network
variable {net : Network} {loop : Cycle ItemId} {x y : ItemId}

/-- Whether some items, one at least, stand inside one another in a circle: each in the next, and the last
in the first. -/
structure ParentLoop (net : Network) (loop : Cycle ItemId) : Prop where
  nonempty : loop ≠ Cycle.nil
  nodup : loop.Nodup
  inside : loop.Chain net.Inside

theorem nodup_climb {steps : Nat} {seen : List ItemId} : (net.climb steps seen x).Nodup := by
  induction steps generalizing seen x with
  | zero => exact List.nodup_nil
  | succ steps ih =>
    rw [climb]
    split
    · exact List.nodup_nil
    · rename_i p hp
      split
      · exact List.nodup_nil
      · exact List.nodup_cons.mpr ⟨fun hmem => (transGen_of_mem_climb hmem).2 List.mem_cons_self, ih⟩

namespace ParentLoop
variable (h : net.ParentLoop loop)
include h

theorem transGen (hx : x ∈ loop) (hy : y ∈ loop) : TransGen net.Inside x y :=
  Cycle.chain_iff_pairwise.mp (h.inside.imp fun _ _ => .single) x hx y hy

theorem mem_of_inside (hx : x ∈ loop) (hxy : net.Inside x y) : y ∈ loop := by
  obtain ⟨rest, rfl⟩ := exists_coe_cons_eq hx
  have hinside := (Cycle.chain_coe_cons _ x rest).mp h.inside
  rw [Cycle.mem_coe_iff]
  cases rest with
  | nil => exact List.mem_singleton.mpr (hxy.unique (List.isChain_cons_cons.mp hinside).1)
  | cons b rest =>
    have hb : y = b := hxy.unique (List.isChain_cons_cons.mp hinside).1
    exact List.mem_cons_of_mem _ (hb ▸ List.mem_cons_self)

/-- A loop consists of what the chain leads to from an item of it. -/
theorem mem_iff (hx : x ∈ loop) : y ∈ loop ↔ ReflTransGen net.Inside x y := by
  constructor
  · exact fun hy => (h.transGen hx hy).to_reflTransGen
  · intro hxy
    induction hxy with
    | refl => exact hx
    | tail _ hab ih => exact h.mem_of_inside ih hab

theorem exists_mem : ∃ x, x ∈ loop := by
  induction loop using Cycle.induction_on with
  | nil => exact absurd rfl h.nonempty
  | cons first rest _ => exact ⟨first, Cycle.mem_coe_iff.mpr List.mem_cons_self⟩

/-- The smallest item of a loop, and nothing else of it, stands for the loop. -/
theorem exists_head : ∃ x ∈ loop, (∀ y ∈ loop, x ≤ y) ∧
    ∀ y ∈ loop, y ∈ net.hierarchyCycles ↔ y = x := by
  obtain ⟨a, ha⟩ := h.exists_mem
  obtain ⟨x, hhead, hax⟩ := exists_mem_hierarchyCycles (h.transGen ha ha)
  have hx : x ∈ loop := (h.mem_iff ha).mpr hax
  have hleast : ∀ y ∈ loop, x ≤ y := fun y hy =>
    (mem_hierarchyCycles.mp hhead).2 y ((h.mem_iff hx).mp hy)
  refine ⟨x, hx, hleast, fun y hy => ⟨fun hyhead => ?_, fun he => he ▸ hhead⟩⟩
  exact ItemId.le_antisymm ((mem_hierarchyCycles.mp hyhead).2 x ((h.mem_iff hy).mp hx)) (hleast y hy)

end ParentLoop

theorem isChain_ancestors_back (hx : TransGen net.Inside x x) :
    (x :: (net.ancestors x ++ [x])).IsChain net.Inside := by
  rw [← List.cons_append, List.isChain_append]
  refine ⟨isChain_climb _ _ x, List.isChain_singleton x, fun last hlast first hfirst => ?_⟩
  rw [List.getLast?_cons, Option.mem_some_iff] at hlast
  rw [List.head?_cons, Option.mem_some_iff] at hfirst
  exact hlast ▸ hfirst ▸ inside_last hx

/-- The loop through an item, if there is one, is the item and its ancestors. -/
theorem parentLoop_iff : net.ParentLoop loop ∧ x ∈ loop ↔
    TransGen net.Inside x x ∧ loop = ↑(x :: net.ancestors x) := by
  have hfirst : x ∉ net.ancestors x := fun hmem => (mem_ancestors.mp hmem).1 rfl
  constructor
  · rintro ⟨h, hx⟩
    -- both ways around come back to `x` without meeting it before
    have hloop := h.transGen hx hx
    obtain ⟨rest, rfl⟩ := exists_coe_cons_eq hx
    have hrest : x ∉ rest := (List.nodup_cons.mp (Cycle.nodup_coe_iff.mp h.nodup)).1
    have hinside := (Cycle.chain_coe_cons _ x rest).mp h.inside
    have hunique : ∀ a b c, net.Inside a b → net.Inside a c → b = c := fun _ _ _ => Inside.unique
    have hsame : rest = net.ancestors x :=
      eq_of_isChain_of_unique hunique hinside (isChain_ancestors_back hloop) hrest hfirst
    exact ⟨hloop, hsame ▸ rfl⟩
  · rintro ⟨hx, rfl⟩
    refine ⟨?_, Cycle.mem_coe_iff.mpr List.mem_cons_self⟩
    constructor
    case nonempty => exact fun hnil => List.cons_ne_nil _ _ ((Cycle.coe_eq_nil _).mp hnil)
    case nodup => exact Cycle.nodup_coe_iff.mpr (List.nodup_cons.mpr ⟨hfirst, nodup_climb⟩)
    case inside => exact (Cycle.chain_coe_cons _ x _).mpr (isChain_ancestors_back hx)

theorem pairwise_hierarchyCycles : net.hierarchyCycles.Pairwise (· < ·) :=
  (ordered_itemList.filter _).imp ItemId.lt_of_compare

theorem existsUnique_parentLoop (hx : x ∈ net.hierarchyCycles) :
    ∃! loop, net.ParentLoop loop ∧ x ∈ loop :=
  ⟨_, parentLoop_iff.mpr ⟨(mem_hierarchyCycles.mp hx).1, rfl⟩,
    fun _ hloop => (parentLoop_iff.mp hloop).2⟩

/-- From an item whose chain ends, it does not come back. -/
theorem not_mem_hierarchyCycles (hy : ReflTransGen net.Inside x y) (hend : net.container? y = none) :
    x ∉ net.hierarchyCycles := by
  intro hx
  obtain ⟨hloop, _⟩ := mem_hierarchyCycles.mp hx
  obtain ⟨z, hz, _⟩ := TransGen.head'_iff.mp (hloop.trans_right (reflTransGen_back hloop hy))
  rw [Inside, hend] at hz
  cases hz

/-- **An audit reports each loop of parents once, by its smallest item, and no loop that is none.** The
climbs from the items, one after the other, end in every network. They find the items that are reported for
loops, in order; of each loop its smallest item is among them and no other one; and each of them is on a
loop, and on one only. An item is none of them if its chain ends. -/
theorem hierarchyCycles_exact (net : Network) :
    ∃ heads, net.loopHeads? = some heads ∧
      net.faults.filter (·.kind = .hierarchyCycle) = heads.map .hierarchyCycle ∧
      heads.Pairwise (· < ·) ∧
      (∀ loop, net.ParentLoop loop →
        ∃ x ∈ loop, (∀ y ∈ loop, x ≤ y) ∧ ∀ y ∈ loop, y ∈ heads ↔ y = x) ∧
      (∀ x ∈ heads, ∃! loop, net.ParentLoop loop ∧ x ∈ loop) ∧
      ∀ x y, ReflTransGen net.Inside x y → net.container? y = none → x ∉ heads :=
  ⟨net.hierarchyCycles, loopHeads?_eq, filter_faults_hierarchyCycle, pairwise_hierarchyCycles,
    fun _ hloop => hloop.exists_head, fun _ hx => existsUnique_parentLoop hx,
    fun _ _ hy hend => not_mem_hierarchyCycles hy hend⟩

end Network

end WorkPlan
