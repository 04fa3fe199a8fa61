import Mathlib.Data.List.Find
import Mathlib.Data.Set.Finite.Basic
import Mathlib.Logic.Relation
import Mathlib.Order.WellFounded
import WorkPlan.Arrangement

/-! # What an order promises

What an item needs of the list stands before it (`need_before`), so facts pass along the order
(`order_induct`). Stuck is what needs lead from to a circle (`mem_stuck_iff_reaches`), so it is told by the
needs alone (`mem_stuck_iff`). Of the ready items the first one of the list is taken (`first_ready`), so
an arrangement depends on nothing but what the items of the list need of one another
(`ofNeeds_congr_among`). -/

namespace WorkPlan.Arrangement
open Relation

variable {needs needs' : ItemId → List ItemId} {ids : List ItemId} {x y : ItemId}

theorem mem_ofNeeds : x ∈ (ofNeeds needs ids).order ∨ x ∈ (ofNeeds needs ids).stuck ↔ x ∈ ids := by
  rw [← List.mem_append]
  exact (perm_ofNeeds needs ids).mem_iff

theorem nodup_order (h : ids.Nodup) : (ofNeeds needs ids).order.Nodup :=
  (List.nodup_append.mp ((perm_ofNeeds needs ids).nodup_iff.mpr h)).1

theorem nodup_stuck (h : ids.Nodup) : (ofNeeds needs ids).stuck.Nodup :=
  (List.nodup_append.mp ((perm_ofNeeds needs ids).nodup_iff.mpr h)).2.1

theorem not_mem_stuck (h : ids.Nodup) (hx : x ∈ (ofNeeds needs ids).order) :
    x ∉ (ofNeeds needs ids).stuck := fun hstuck =>
  (List.nodup_append.mp ((perm_ofNeeds needs ids).nodup_iff.mpr h)).2.2 x hx x hstuck rfl

theorem mem_stuck_iff_not_mem_order (h : ids.Nodup) :
    x ∈ (ofNeeds needs ids).stuck ↔ x ∈ ids ∧ x ∉ (ofNeeds needs ids).order := by
  constructor
  · exact fun hx => ⟨mem_ofNeeds.mp (Or.inr hx), fun horder => not_mem_stuck h horder hx⟩
  · exact fun hx => (mem_ofNeeds.mpr hx.1).resolve_left hx.2

theorem stuck_sublist_of_take (steps : Nat) (rest : List ItemId) :
    (take needs steps rest).stuck.Sublist rest := by
  induction steps generalizing rest with
  | zero => exact .refl _
  | succ steps ih =>
    rw [take]
    split
    · exact .refl _
    · exact (ih _).trans List.erase_sublist

theorem stuck_sublist : (ofNeeds needs ids).stuck.Sublist ids := stuck_sublist_of_take ..

theorem need_before_of_take (steps : Nat) (rest before after : List ItemId)
    (h : (take needs steps rest).order = before ++ x :: after) (hy : y ∈ needs x)
    (hrest : y ∈ rest) : y ∈ before := by
  induction steps generalizing rest before with
  | zero => simp [take] at h
  | succ steps ih =>
    rw [take] at h
    split at h
    · simp at h
    · rename_i first hfirst
      cases before with
      | nil =>
        -- `x` is taken now, so none of its needs is left
        obtain ⟨rfl, _⟩ := List.cons.inj h
        have hready := List.find?_some hfirst
        simp only [List.all_eq_true, decide_eq_true_eq] at hready
        exact absurd hrest (hready y hy)
      | cons b before =>
        obtain ⟨rfl, hafter⟩ := List.cons.inj h
        by_cases he : y = first
        · exact he ▸ List.mem_cons_self
        · exact List.mem_cons_of_mem _
            (ih (rest.erase first) before hafter ((List.mem_erase_of_ne he).mpr hrest))

theorem need_before {before after : List ItemId}
    (h : (ofNeeds needs ids).order = before ++ x :: after) (hy : y ∈ needs x) (hids : y ∈ ids) :
    y ∈ before :=
  need_before_of_take ids.length ids before after h hy hids

/-- What holds of an item as soon as it holds of what the item needs, holds of all ordered items. -/
theorem order_induct {P : ItemId → Prop} (h : ∀ x ∈ (ofNeeds needs ids).order,
      (∀ y ∈ needs x, y ∈ (ofNeeds needs ids).order → P y) → P x) :
    ∀ x ∈ (ofNeeds needs ids).order, P x := by
  -- by the number of items that stand before it
  have hplace : ∀ n before x after, (ofNeeds needs ids).order = before ++ x :: after →
      before.length = n → P x := by
    intro n
    induction n using Nat.strong_induction_on with
    | _ n ih =>
      intro before x after horder hn
      refine h x (by simp [horder]) fun y hy hmem => ?_
      have hbefore : y ∈ before := need_before horder hy (mem_ofNeeds.mp (Or.inl hmem))
      obtain ⟨first, rest, rfl⟩ := List.append_of_mem hbefore
      refine ih first.length ?_ first y (rest ++ x :: after) (by simp [horder]) rfl
      rw [← hn, List.length_append, List.length_cons]
      omega
  intro x hx
  obtain ⟨before, after, horder⟩ := List.append_of_mem hx
  exact hplace _ before x after horder rfl

/-- From a stuck item needs lead to a circle: of the finitely many stuck items to which they lead, one
would be last along the needs if these ran in no circle, but it needs a further one. -/
theorem exists_reached_circle {r : ItemId → ItemId → Prop}
    (h : ∀ a ∈ (ofNeeds needs ids).stuck, ∀ b ∈ needs a, b ∈ (ofNeeds needs ids).stuck → r a b)
    (hx : x ∈ (ofNeeds needs ids).stuck) :
    ∃ y ∈ (ofNeeds needs ids).stuck, ReflTransGen r x y ∧ TransGen r y y := by
  by_contra hnone
  let met : ItemId → Prop := fun y => y ∈ (ofNeeds needs ids).stuck ∧ ReflTransGen r x y
  let after : {y // met y} → {y // met y} → Prop := fun a b => TransGen r b.1 a.1
  have hfinite : Finite {y // met y} :=
    ((List.finite_toSet (ofNeeds needs ids).stuck).subset fun _ hy => hy.1).to_subtype
  have htrans : IsTrans _ after := ⟨fun _ _ _ hab hbc => hbc.trans hab⟩
  have hirrefl : Std.Irrefl after := ⟨fun a ha => hnone ⟨a.1, a.2.1, a.2.2, ha⟩⟩
  obtain ⟨last, _, hlast⟩ :=
    (Finite.wellFounded_of_trans_of_irrefl after).has_min Set.univ ⟨⟨x, hx, .refl⟩, trivial⟩
  obtain ⟨y, hy, hstuck⟩ := exists_stuck_need needs ids last.2.1
  have hstep := h last.1 last.2.1 y hy hstuck
  exact hlast ⟨y, hstuck, last.2.2.tail hstep⟩ trivial (.single hstep)

theorem exists_circle (h : x ∈ (ofNeeds needs ids).stuck) : ∃ y ∈ (ofNeeds needs ids).stuck,
    TransGen (fun a b => b ∈ needs a ∧ b ∈ (ofNeeds needs ids).stuck) y y := by
  obtain ⟨y, hy, _, hcircle⟩ := exists_reached_circle
    (r := fun a b => b ∈ needs a ∧ b ∈ (ofNeeds needs ids).stuck) (fun _ _ _ hb hs => ⟨hb, hs⟩) h
  exact ⟨y, hy, hcircle⟩

theorem stuck_eq_nil {r : ItemId → ItemId → Prop} (hr : ∀ x, ¬ TransGen r x x)
    (h : ∀ x, ∀ y ∈ needs x, r x y) : (ofNeeds needs ids).stuck = [] := by
  refine List.eq_nil_iff_forall_not_mem.mpr fun x hx => ?_
  obtain ⟨y, _, hcircle⟩ := exists_circle hx
  exact hr y (TransGen.mono (fun a b hab => h a b hab.1) y y hcircle)

/-- Items of which each needs another one of them are never taken: the first one to be taken would
still need one that is left. -/
theorem mem_stuck_of_take {s : ItemId → Prop} (h : ∀ x, s x → ∃ y ∈ needs x, s y) (steps : Nat)
    (rest : List ItemId) (hrest : ∀ x, s x → x ∈ rest) (hx : s x) :
    x ∈ (take needs steps rest).stuck := by
  induction steps generalizing rest with
  | zero => exact hrest x hx
  | succ steps ih =>
    rw [take]
    split
    · exact hrest x hx
    · rename_i first hfirst
      refine ih (rest.erase first) fun y hy => ?_
      refine (List.mem_erase_of_ne ?_).mpr (hrest y hy)
      rintro rfl
      obtain ⟨z, hz, hs⟩ := h y hy
      have hready := List.find?_some hfirst
      simp only [List.all_eq_true, decide_eq_true_eq] at hready
      exact hready z hz (hrest z hs)

/-- What is stuck is the largest part of the list in which each item needs another one of the part. -/
theorem mem_stuck_iff : x ∈ (ofNeeds needs ids).stuck ↔
    ∃ s : ItemId → Prop, (∀ y, s y → y ∈ ids ∧ ∃ z ∈ needs y, s z) ∧ s x := by
  constructor
  · intro hx
    exact ⟨(· ∈ (ofNeeds needs ids).stuck),
      fun y hy => ⟨mem_ofNeeds.mp (Or.inr hy), exists_stuck_need needs ids hy⟩, hx⟩
  · rintro ⟨s, hs, hx⟩
    exact mem_stuck_of_take (fun y hy => (hs y hy).2) _ ids (fun y hy => (hs y hy).1) hx

/-- Whatever leads to a circle of needs is stuck. -/
theorem mem_stuck_of_reaches {r : ItemId → ItemId → Prop} (h : ∀ a b, r a b → a ∈ ids ∧ b ∈ needs a)
    (hxy : ReflTransGen r x y) (hy : TransGen r y y) : x ∈ (ofNeeds needs ids).stuck := by
  -- what leads to the circle goes on to something that does, round and round
  have hstep : ∀ z, ReflTransGen r z y → ∃ w, r z w ∧ ReflTransGen r w y := by
    intro z hz
    rcases ReflTransGen.cases_head hz with rfl | hnext
    · exact TransGen.head'_iff.mp hy
    · exact hnext
  refine mem_stuck_of_take (s := fun z => ReflTransGen r z y) ?_ _ ids ?_ hxy
  · intro z hz
    obtain ⟨w, hzw, hw⟩ := hstep z hz
    exact ⟨w, (h z w hzw).2, hw⟩
  · intro z hz
    obtain ⟨w, hzw, _⟩ := hstep z hz
    exact (h z w hzw).1

/-- Stuck are the items of the list from which a circle can be reached along needs inside the list. -/
theorem mem_stuck_iff_reaches {r : ItemId → ItemId → Prop}
    (h : ∀ a b, r a b ↔ a ∈ ids ∧ b ∈ needs a ∧ b ∈ ids) :
    x ∈ (ofNeeds needs ids).stuck ↔ ∃ y, ReflTransGen r x y ∧ TransGen r y y := by
  constructor
  · intro hx
    have hmem : ∀ a ∈ (ofNeeds needs ids).stuck, a ∈ ids := fun a ha => mem_ofNeeds.mp (Or.inr ha)
    obtain ⟨y, _, hcircle⟩ := exists_reached_circle
      (fun a ha b hb hstuck => (h a b).mpr ⟨hmem a ha, hb, hmem b hstuck⟩) hx
    exact ⟨y, hcircle⟩
  · rintro ⟨y, hxy, hy⟩
    exact mem_stuck_of_reaches (fun a b hab => ⟨((h a b).mp hab).1, ((h a b).mp hab).2.1⟩) hxy hy

theorem take_congr (steps : Nat) (rest : List ItemId)
    (h : ∀ id ∈ rest, ∀ y ∈ rest, y ∈ needs id ↔ y ∈ needs' id) :
    take needs steps rest = take needs' steps rest := by
  induction steps generalizing rest with
  | zero => rfl
  | succ steps ih =>
    have hready : ∀ id ∈ rest,
        (needs id).all (· ∉ rest) = (needs' id).all (· ∉ rest) := by
      intro id hid
      rw [Bool.eq_iff_iff, List.all_eq_true, List.all_eq_true]
      simp only [decide_eq_true_eq]
      constructor
      · exact fun hfree y hy hmem => hfree y ((h id hid y hmem).mpr hy) hmem
      · exact fun hfree y hy hmem => hfree y ((h id hid y hmem).mp hy) hmem
    rw [take, take, List.find?_congr hready]
    split
    · rfl
    · rename_i id _
      rw [ih (rest.erase id) fun x hx y hy =>
        h x (List.mem_of_mem_erase hx) y (List.mem_of_mem_erase hy)]

/-- Only what items need of one another counts. -/
theorem ofNeeds_congr_among (h : ∀ id ∈ ids, ∀ y ∈ ids, y ∈ needs id ↔ y ∈ needs' id) :
    ofNeeds needs ids = ofNeeds needs' ids := take_congr _ ids h

/-- Each place of the order is filled by the first item of the list that is not taken yet and has all its
needs in the list taken. -/
theorem first_ready_of_take (steps : Nat) (rest before after : List ItemId) (hrest : rest.Nodup)
    (h : (take needs steps rest).order = before ++ x :: after) (hy : y ∈ rest) (hleft : y ∉ before)
    (hready : ∀ z ∈ needs y, z ∈ rest → z ∈ before) : y = x ∨ [x, y].Sublist rest := by
  induction steps generalizing rest before with
  | zero => simp [take] at h
  | succ steps ih =>
    rw [take] at h
    split at h
    · simp at h
    · rename_i first hfirst
      cases before with
      | nil =>
        obtain ⟨rfl, _⟩ := List.cons.inj h
        obtain ⟨_, ahead, behind, rfl, hahead⟩ := List.find?_eq_some_iff_append.mp hfirst
        rcases List.mem_append.mp hy with hy | hy
        · -- `y` is ready, and would have been found
          have hnot := hahead y hy
          simp only [Bool.not_eq_true', List.all_eq_false, decide_eq_true_eq, not_not] at hnot
          obtain ⟨z, hz, hmem⟩ := hnot
          exact absurd (hready z hz hmem) List.not_mem_nil
        · rcases List.mem_cons.mp hy with he | hy
          · exact Or.inl he
          · refine Or.inr (List.Sublist.trans ?_ (List.sublist_append_right ahead _))
            exact (List.singleton_sublist.mpr hy).cons_cons first
      | cons b before =>
        obtain ⟨rfl, hafter⟩ := List.cons.inj h
        obtain ⟨hne, hleft⟩ := not_or.mp (List.mem_cons.not.mp hleft)
        refine (ih (rest.erase first) before (hrest.erase first) hafter
          ((List.mem_erase_of_ne hne).mpr hy) hleft fun z hz hmem => ?_).imp_right
            fun hsub => hsub.trans List.erase_sublist
        obtain ⟨hzf, hmem⟩ := hrest.mem_erase_iff.mp hmem
        exact (List.mem_cons.mp (hready z hz hmem)).resolve_left hzf

theorem first_ready {before after : List ItemId} (hids : ids.Nodup)
    (h : (ofNeeds needs ids).order = before ++ x :: after) (hy : y ∈ ids) (hleft : y ∉ before)
    (hready : ∀ z ∈ needs y, z ∈ ids → z ∈ before) : y = x ∨ [x, y].Sublist ids :=
  first_ready_of_take ids.length ids before after hids h hy hleft hready

end WorkPlan.Arrangement
