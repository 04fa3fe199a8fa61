import Mathlib.Data.List.Chain
import Mathlib.Data.List.MinMax
import Mathlib.Data.String.Basic
import WorkPlan.Proofs.Audit
import WorkPlan.Proofs.Containment
import WorkPlan.Proofs.SpansInOrder

/-! # Networks in which an audit finds nothing

An audit looks for loops of parents by climbing: an item contains itself if its climb ends just before it
would come back (`containsItself_iff`), and of each loop the smallest item is reported, so nothing is
reported exactly if there is no loop (`hierarchyCycles_eq_nil_iff`). Together with what the audit looks for
in items and links this says which networks it finds nothing in (`faults_eq_nil_iff`). -/

namespace WorkPlan
open Relation

namespace Network
variable {net : Network} {x y z : ItemId}

/-! ## Loops of parents -/

theorem Inside.unique (hy : net.Inside x y) (hz : net.Inside x z) : y = z :=
  Option.some.inj (hy.symm.trans hz)

/-- From an item on a loop the chain leads to items on the loop only. -/
theorem reflTransGen_back (hx : TransGen net.Inside x x) (h : ReflTransGen net.Inside x y) :
    ReflTransGen net.Inside y x := by
  induction h with
  | refl => exact .refl
  | tail _ hyz ih =>
    obtain ⟨z, hz, hback⟩ := TransGen.head'_iff.mp (hx.trans_right ih)
    exact hyz.unique hz ▸ hback

/-- The climb from an item on a loop ends just before it would come back. -/
theorem inside_last (hx : TransGen net.Inside x x) :
    net.Inside ((net.ancestors x).getLast?.getD x) x := by
  obtain ⟨w, hxw, hwx⟩ := TransGen.tail'_iff.mp hx
  have hchain : (x :: net.ancestors x).IsChain net.Inside := isChain_climb _ _ x
  obtain ⟨before, after, hsplit⟩ := List.append_of_mem (mem_cons_ancestors.mpr hxw)
  cases after with
  | nil =>
    have hlast : (x :: net.ancestors x).getLast? = some ((net.ancestors x).getLast?.getD x) :=
      List.getLast?_cons
    rw [hsplit, List.getLast?_concat] at hlast
    exact Option.some.inj hlast ▸ hwx
  | cons b rest =>
    -- the container of `w` is listed behind it, and it is the first item again
    have hb : b ∈ (x :: net.ancestors x).tail := by
      rw [hsplit]
      cases before <;> simp
    rw [hsplit, List.isChain_append_cons_cons] at hchain
    exact absurd (hchain.2.1.unique hwx) (mem_ancestors.mp hb).1

theorem containsItself_iff : net.containsItself x = true ↔ TransGen net.Inside x x := by
  rw [containsItself, decide_eq_true_eq]
  constructor
  · intro hlast
    cases hanc : (net.ancestors x).getLast? with
    | none =>
      rw [hanc, Option.getD_none] at hlast
      exact .single (inside_iff.mpr ⟨hlast, contains_of_parent? hlast⟩)
    | some a =>
      rw [hanc, Option.getD_some] at hlast
      have hxa := (mem_ancestors.mp (List.mem_of_getLast? hanc)).2
      obtain ⟨_, hx, _⟩ := TransGen.head'_iff.mp hxa
      exact hxa.tail (inside_iff.mpr ⟨hlast, hx.contains_left⟩)
  · exact fun hx => (inside_iff.mp (inside_last hx)).1

/-- The smallest item of a loop, which stands for it. -/
theorem exists_mem_hierarchyCycles (hx : TransGen net.Inside x x) :
    ∃ y ∈ net.hierarchyCycles, ReflTransGen net.Inside x y := by
  obtain ⟨y, hy⟩ : ∃ y, y ∈ (x :: net.ancestors x).argmin ItemId.text :=
    Option.ne_none_iff_exists'.mp fun hnone => nomatch List.argmin_eq_none.mp hnone
  have hxy : ReflTransGen net.Inside x y := mem_cons_ancestors.mp (List.argmin_mem hy)
  have hloop : TransGen net.Inside y y := (hx.trans_right (reflTransGen_back hx hxy)).trans_left hxy
  obtain ⟨_, hinside, _⟩ := TransGen.head'_iff.mp hloop
  refine ⟨y, List.mem_filter.mpr ⟨mem_ids.mpr hinside.contains_left, ?_⟩, hxy⟩
  rw [Bool.and_eq_true, containsItself_iff, List.all_eq_true]
  refine ⟨hloop, fun a ha => decide_eq_true ?_⟩
  have hxa := hxy.trans (mem_ancestors.mp ha).2.to_reflTransGen
  exact List.le_of_mem_argmin (mem_cons_ancestors.mpr hxa) hy

theorem hierarchyCycles_eq_nil_iff : net.hierarchyCycles = [] ↔ net.LoopFree := by
  constructor
  · intro h x hx
    obtain ⟨y, hy, _⟩ := exists_mem_hierarchyCycles hx
    rw [h] at hy
    cases hy
  · intro h
    refine List.filter_eq_nil_iff.mpr fun x _ hx => ?_
    rw [Bool.and_eq_true, containsItself_iff] at hx
    exact h x hx.1

/-! ## What an audit that finds nothing says -/

/-- Whether nothing is wrong with a network: its parents and links are intact, no days are inverted, no link
runs along a parent chain, and no parent chain comes back to where it starts. -/
structure Valid (net : Network) : Prop where
  intact : net.Intact
  inOrder : ∀ x s, net.span? x = some s → s.InOrder
  apart : ∀ l ∈ net.links, l.predecessor ≠ l.successor ∧
    net.inSameChain l.predecessor l.successor = false
  loopFree : net.LoopFree

theorem itemFaults_eq_nil_iff {item : Item} : net.itemFaults item = [] ↔
    item.span.InOrder ∧ ∀ p, item.parent = some p → net.contains p = true := by
  rw [itemFaults, List.append_eq_nil_iff, List.map_eq_nil_iff, Option.toList_eq_nil_iff,
    Option.filter_eq_none_iff]
  refine and_congr ?_ (by simp)
  cases hstart : item.start with
  | none => simp [Span.InOrder, Item.span, hstart]
  | some start =>
    cases hdue : item.due with
    | none => simp [Span.InOrder, Item.span, hdue]
    | some due =>
      have hle : ¬ due < start ↔ start ≤ due := Int.not_lt
      simp [Span.InOrder, Item.span, hstart, hdue, hle]

theorem cyclicItem?_eq_none (h : ∀ x, ¬ TransGen net.Linked x x) : net.cyclicItem? = none := by
  refine List.find?_eq_none.mpr fun x _ => ?_
  rw [decide_eq_true_eq, mem_endless]
  exact fun ⟨y, _, hy⟩ => h y hy

/-- **An audit finds nothing exactly if nothing is wrong.** -/
theorem faults_eq_nil_iff : net.faults = [] ↔ net.Valid := by
  constructor
  · intro h
    obtain ⟨⟨hitems, hlinks⟩, _, hcycles⟩ := faults_eq_nil_iff_parts.mp h
    constructor
    case intact => exact intact_of_faults h
    case inOrder =>
      exact forall_span?_iff.mpr fun item hitem => (itemFaults_eq_nil_iff.mp (hitems item hitem)).1
    case apart => exact fun l hl => (faultsOfLink_eq_nil_iff.mp (hlinks l hl)).2
    case loopFree => exact hierarchyCycles_eq_nil_iff.mp hcycles
  · intro h
    have hitems : ∀ item ∈ net.itemList, net.itemFaults item = [] := by
      intro item hitem
      have hparent : ∀ p, item.parent = some p → net.contains p = true := fun p hp =>
        h.intact.parent item.id p ((parent?_of_item? (mem_itemList.mp hitem)).trans hp)
      exact itemFaults_eq_nil_iff.mpr ⟨forall_span?_iff.mp h.inOrder item hitem, hparent⟩
    have hlinks : ∀ l ∈ net.links, net.faultsOfLink l = [] := fun l hl =>
      faultsOfLink_eq_nil_iff.mpr
        ⟨⟨h.intact.predecessor l hl, h.intact.successor l hl⟩, h.apart l hl⟩
    exact faults_eq_nil_iff_parts.mpr ⟨⟨hitems, hlinks⟩, cyclicItem?_eq_none h.intact.noCircle,
      hierarchyCycles_eq_nil_iff.mpr h.loopFree⟩

end Network

end WorkPlan
