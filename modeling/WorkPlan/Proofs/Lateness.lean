import WorkPlan.Proofs.Related

/-! # Later days

Days and spans are compared end by end, and a missing end goes with a missing end only. Everything that
a pass does to spans respects this order: gathering them and keeping them behind a bound, as being no
later is a stable relation (`Date.stable_le`), and also moving them and letting them yield to a bound
(`Span.NoLater.yieldTo`), where a move may stop at an end of the supported range. -/

namespace WorkPlan

namespace Date

theorem addDays_mono {a b : Date} {m n : Int} (hab : a ≤ b) (hmn : m ≤ n) :
    a.addDays m ≤ b.addDays n := by
  rw [le_iff] at hab ⊢
  rw [day_addDays, day_addDays]
  omega

theorem daysUntil_mono {a b c : Date} (hbc : b ≤ c) : a.daysUntil b ≤ a.daysUntil c := by
  rw [le_iff] at hbc
  rw [daysUntil, daysUntil]
  omega

theorem stable_le : Stable (· ≤ ·) where
  max {a a' b b'} ha hb := by
    rw [le_iff] at ha hb ⊢
    rw [day_max, day_max]
    omega
  min {a a' b b'} ha hb := by
    rw [le_iff] at ha hb ⊢
    rw [day_min, day_min]
    omega
  addDays ha _ := addDays_mono ha (Int.le_refl _)

/-- Whether an optional day is no later than another one. A day is missing on both sides or on
neither. -/
def NoLater : Option Date → Option Date → Prop := Option.Rel (· ≤ ·)

theorem NoLater.within {a b : Option Date} (h : NoLater a b) : Within a b := by
  cases h with
  | some h => exact h
  | none => trivial

end Date

/-! ## Spans -/

namespace Span
variable {s t before : Span} {a b : Option Date} {m n : Int}

/-- Whether a span starts and is due no later than another one. An end is missing in both or in
neither. -/
structure NoLater (s t : Span) : Prop where
  start : Date.NoLater s.start t.start
  due : Date.NoLater s.due t.due

namespace NoLater

theorem iff_related : s.NoLater t ↔ s.Related (· ≤ ·) t :=
  ⟨fun h => ⟨h.start, h.due⟩, fun h => ⟨h.start, h.due⟩⟩

theorem refl (s : Span) : s.NoLater s := iff_related.mpr (.refl Date.le_refl s)

theorem rel_iff_related {s t : Option Span} :
    Option.Rel NoLater s t ↔ Option.Rel (Span.Related (· ≤ ·)) s t := by
  rw [show NoLater = Span.Related (· ≤ ·) from funext₂ fun _ _ => propext iff_related]

theorem shift (h : s.NoLater t) (hmn : m ≤ n) : (s.shift m).NoLater (t.shift n) :=
  ⟨rel_map h.start fun _ _ hle => Date.addDays_mono hle hmn,
    rel_map h.due fun _ _ hle => Date.addDays_mono hle hmn⟩

theorem yieldTo (s : Span) (hab : Date.NoLater a b) (hmn : m ≤ n) :
    (s.yieldTo a m).NoLater (s.yieldTo b n) := by
  cases hab with
  | none => exact refl s
  | @some a b hab =>
    cases hstart : s.start with
    | none =>
      simp only [Span.yieldTo, hstart]
      exact ⟨.some hab, rel_map (rel_refl Date.le_refl _) fun x y hxy => Date.stable_le.max hxy hab⟩
    | some start =>
      simp only [Span.yieldTo, hstart]
      have hdays := Date.daysUntil_mono (a := start) hab
      exact (refl s).shift (by omega)

theorem driftTo (before : Span) (h : s.NoLater t) : before.driftTo s ≤ before.driftTo t := by
  obtain ⟨first, last⟩ := before
  obtain ⟨s₁, s₂⟩ := s
  obtain ⟨t₁, t₂⟩ := t
  obtain ⟨hstart, hdue⟩ := h
  have hstarts : Span.driftTo ⟨first, none⟩ ⟨s₁, s₂⟩ ≤ Span.driftTo ⟨first, none⟩ ⟨t₁, t₂⟩ := by
    cases first with
    | none => exact Int.le_refl 0
    | some first =>
      cases hstart with
      | some h => exact Date.daysUntil_mono h
      | none => exact Int.le_refl 0
  cases last with
  | none => exact hstarts
  | some last =>
    cases hdue with
    | some h => exact Date.daysUntil_mono h
    | none => exact hstarts

end NoLater

theorem rel_noLater_refl (s : Option Span) : Option.Rel NoLater s s := rel_refl NoLater.refl s

end Span

end WorkPlan
