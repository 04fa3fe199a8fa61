import Mathlib.Data.List.Forall2
import WorkPlan.Link
import WorkPlan.Proofs.Bounds

/-! # Relations that bounds and hulls keep

A pass computes a bound from the due days of predecessors, and the days of an item with children from
theirs, by three operations only: the later and the earlier of two days, and the day that lies so many
days on. A relation between days that all three keep (`Date.Stable`) passes on from one plan to another:
to their bounds (`Network.soonestStartBy_related`), hulls (`Span.Related.hull`) and hulls behind bounds
(`Span.Related.notBefore`). -/

namespace WorkPlan

/-- Whether a relation between days passes on to the later and to the earlier of two days, and to the
days that lie equally far from two days. -/
structure Date.Stable (R : Date → Date → Prop) : Prop where
  max {a a' b b' : Date} (ha : R a a') (hb : R b b') : R (max a b) (max a' b')
  min {a a' b b' : Date} (ha : R a a') (hb : R b b') : R (min a b) (min a' b')
  addDays {a a' : Date} (ha : R a a') (n : Int) : R (a.addDays n) (a'.addDays n)

/-- Whether two spans set the same ends and these are related. -/
structure Span.Related (R : Date → Date → Prop) (s t : Span) : Prop where
  start : Option.Rel R s.start t.start
  due : Option.Rel R s.due t.due

theorem rel_map {α β : Type} {R : α → α → Prop} {S : β → β → Prop} {a b : Option α} {f g : α → β}
    (h : Option.Rel R a b) (hfg : ∀ x y, R x y → S (f x) (g y)) :
    Option.Rel S (a.map f) (b.map g) := by
  cases h with
  | some h => exact .some (hfg _ _ h)
  | none => exact .none

theorem rel_refl {α : Type} {R : α → α → Prop} (hR : ∀ x, R x x) (a : Option α) :
    Option.Rel R a a := by
  cases a with
  | none => exact .none
  | some x => exact .some (hR x)

theorem exists_of_rel_some {α : Type} {R : α → α → Prop} {a : Option α} {y : α}
    (h : Option.Rel R a (some y)) : ∃ x, a = some x ∧ R x y := by
  cases h with
  | some h => exact ⟨_, rfl, h⟩

theorem rel_elim {α β : Type} {R : α → α → Prop} {S : β → β → Prop} {a b : Option α} {x y : β}
    {f g : α → β} (h : Option.Rel R a b) (hxy : S x y) (hfg : ∀ c d, R c d → S (f c) (g d)) :
    S (a.elim x f) (b.elim y g) := by
  cases h with
  | some h => exact hfg _ _ h
  | none => exact hxy

theorem forall₂_filterMap {α β : Type} {R : β → β → Prop} {f g : α → Option β} {l : List α}
    (h : ∀ x ∈ l, Option.Rel R (f x) (g x)) : List.Forall₂ R (l.filterMap f) (l.filterMap g) := by
  refine List.rel_filterMap (R := fun x y => x = y ∧ x ∈ l) ?_
    (List.forall₂_same.mpr fun x hx => ⟨rfl, hx⟩)
  rintro x _ ⟨rfl, hx⟩
  exact h x hx

theorem Span.Related.refl {R : Date → Date → Prop} (hR : ∀ d, R d d) (s : Span) : s.Related R s :=
  ⟨rel_refl hR _, rel_refl hR _⟩

namespace Date.Stable
variable {R : Date → Date → Prop} (hR : Stable R)
include hR

theorem laterOf {a a' b b' : Option Date} (ha : Option.Rel R a a') (hb : Option.Rel R b b') :
    Option.Rel R (laterOf a b) (Date.laterOf a' b') := by
  cases ha with
  | none => exact hb
  | some ha =>
    cases hb with
    | none => exact .some ha
    | some hb => exact .some (hR.max ha hb)

theorem earlierOf {a a' b b' : Option Date} (ha : Option.Rel R a a') (hb : Option.Rel R b b') :
    Option.Rel R (earlierOf a b) (Date.earlierOf a' b') := by
  cases ha with
  | none => exact hb
  | some ha =>
    cases hb with
    | none => exact .some ha
    | some hb => exact .some (hR.min ha hb)

theorem release (l : Link) {s t : Option Span} (h : Option.Rel (Span.Related R) s t) :
    Option.Rel R (l.release (s.bind (·.due))) (l.release (t.bind (·.due))) := by
  cases h with
  | some h => exact rel_map h.due fun _ _ hd => hR.addDays hd _
  | none => exact .none

end Date.Stable

/-! ## Hulls and bounds -/

namespace Span.Related
variable {R : Date → Date → Prop} {s s' t t' : Span} {a b : Option Date}

theorem join (hR : Date.Stable R) (hs : s.Related R s') (ht : t.Related R t') :
    (s.join t).Related R (s'.join t') :=
  ⟨hR.earlierOf hs.start ht.start, hR.laterOf hs.due ht.due⟩

theorem hull (hR : Date.Stable R) {l l' : List Span} (h : List.Forall₂ (Related R) l l') :
    (hull l).Related R (Span.hull l') := by
  induction h with
  | nil => exact ⟨.none, .none⟩
  | cons hs _ ih =>
    rw [hull_cons, hull_cons]
    exact hs.join hR ih

theorem notBefore (hR : Date.Stable R) (h : s.Related R t) (hab : Option.Rel R a b) :
    (s.notBefore a).Related R (t.notBefore b) := by
  have hstart : Option.Rel R (s.notBefore a).start (t.notBefore b).start :=
    rel_map h.start fun _ _ hxy => rel_elim hab hxy fun _ _ hb => hR.max hxy hb
  exact ⟨hstart, rel_map h.due fun _ _ hxy => rel_elim hstart hxy fun _ _ hs => hR.max hs hxy⟩

end Span.Related

theorem Network.soonestStartBy_related {R : Date → Date → Prop} (hR : Date.Stable R) {net : Network}
    {spanOf spanOf' : ItemId → Option Span} {x : ItemId} (h : ∀ l ∈ net.bindingLinks x,
      Option.Rel (Span.Related R) (spanOf l.predecessor) (spanOf' l.predecessor)) :
    Option.Rel R (net.soonestStartBy spanOf x) (net.soonestStartBy spanOf' x) := by
  have hfold : ∀ (links : List Link) (a a' : Option Date), links ⊆ net.bindingLinks x →
      Option.Rel R a a' → Option.Rel R
        (links.foldl (fun bound l =>
          Date.laterOf bound (l.release ((spanOf l.predecessor).bind (·.due)))) a)
        (links.foldl (fun bound l =>
          Date.laterOf bound (l.release ((spanOf' l.predecessor).bind (·.due)))) a') := by
    intro links
    induction links with
    | nil => exact fun _ _ _ ha => ha
    | cons l rest ih =>
      intro a a' hl ha
      obtain ⟨hl, hrest⟩ := List.cons_subset.mp hl
      exact ih _ _ hrest (hR.laterOf ha (hR.release l (h l hl)))
  exact hfold _ _ _ (List.Subset.refl _) .none

end WorkPlan
