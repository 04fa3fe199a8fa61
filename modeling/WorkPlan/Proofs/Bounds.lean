import WorkPlan.Settings.Basic
import WorkPlan.Proofs.Ancestry

/-! # Bounds on starts, and the spans that obey them

A bound is an optional day. `Date.Within a b` says that `b` asks for at least as much as `a`; the
soonest start of an item is the least bound around the releases of the links that bind it
(`within_soonestStartBy`), so it depends on which links these are and on nothing else about them
(`soonestStartBy_congr`). A span that was kept behind a bound or yielded to it starts no earlier than
that (`start_notBefore`, `start_yieldTo`). -/

namespace WorkPlan

namespace Date

theorem le_refl (a : Date) : a ≤ a := Int.le_refl _

theorem le_trans {a b c : Date} (hab : a ≤ b) (hbc : b ≤ c) : a ≤ c := Int.le_trans hab hbc

theorem le_antisymm {a b : Date} (hab : a ≤ b) (hba : b ≤ a) : a = b :=
  Date.ext (Int.le_antisymm hab hba)

/-- Whether a bound asks for no more than another one does. A missing bound asks for nothing. -/
def Within : Option Date → Option Date → Prop
  | none, _ => True
  | some _, none => False
  | some a, some b => a ≤ b

instance decidableWithin : (a b : Option Date) → Decidable (Within a b)
  | none, _ => isTrue trivial
  | some _, none => isFalse id
  | some a, some b => inferInstanceAs (Decidable (a ≤ b))

theorem within_refl (a : Option Date) : Within a a := by
  cases a with
  | none => trivial
  | some a => exact le_refl a

theorem Within.trans {a b c : Option Date} (hab : Within a b) (hbc : Within b c) : Within a c := by
  cases a with
  | none => trivial
  | some a =>
    cases b with
    | none => exact hab.elim
    | some b =>
      cases c with
      | none => exact hbc.elim
      | some c => exact le_trans hab hbc

theorem Within.antisymm {a b : Option Date} (hab : Within a b) (hba : Within b a) : a = b := by
  cases a with
  | none =>
    cases b with
    | none => rfl
    | some b => exact hba.elim
  | some a =>
    cases b with
    | none => exact hab.elim
    | some b => rw [le_antisymm hab hba]

theorem within_some_iff {bound : Option Date} {d : Date} :
    Within bound (some d) ↔ ∀ b, bound = some b → b ≤ d := by
  cases bound with
  | none => simp [Within]
  | some b => simp [Within]

theorem within_laterOf {a b c : Option Date} :
    Within (laterOf a b) c ↔ Within a c ∧ Within b c := by
  cases a <;> cases b <;> cases c <;>
    simp only [laterOf, Within, le_iff, day_max, and_true, true_and, and_self]
  omega

theorem within_foldl_laterOf {l : List (Option Date)} {a c : Option Date} :
    Within (l.foldl laterOf a) c ↔ Within a c ∧ ∀ b ∈ l, Within b c := by
  induction l generalizing a with
  | nil => simp
  | cons b rest ih => rw [List.foldl_cons, ih, within_laterOf, List.forall_mem_cons, and_assoc]

theorem laterOf_eq_or (a b : Option Date) : laterOf a b = a ∨ laterOf a b = b := by
  cases a with
  | none => exact Or.inr rfl
  | some a =>
    cases b with
    | none => exact Or.inl rfl
    | some b =>
      rcases Int.le_total a.day b.day with hab | hba
      · exact Or.inr (congrArg some (Date.ext (by rw [day_max, Int.max_eq_right hab])))
      · exact Or.inl (congrArg some (Date.ext (by rw [day_max, Int.max_eq_left hba])))

theorem foldl_laterOf_eq_or_mem (l : List (Option Date)) (a : Option Date) :
    l.foldl laterOf a = a ∨ l.foldl laterOf a ∈ l := by
  induction l generalizing a with
  | nil => exact Or.inl rfl
  | cons b rest ih =>
    rw [List.foldl_cons]
    rcases ih (laterOf a b) with h | h
    · rcases laterOf_eq_or a b with ha | hb
      · exact Or.inl (h.trans ha)
      · exact Or.inr (List.mem_cons.mpr (Or.inl (h.trans hb)))
    · exact Or.inr (List.mem_cons_of_mem _ h)

theorem laterOf_comm (a b : Option Date) : laterOf a b = laterOf b a := by
  cases a <;> cases b <;> simp only [laterOf, Option.some.injEq]
  ext
  simp only [day_max]
  omega

theorem laterOf_assoc (a b c : Option Date) :
    laterOf (laterOf a b) c = laterOf a (laterOf b c) := by
  cases a <;> cases b <;> cases c <;> simp only [laterOf, Option.some.injEq]
  ext
  simp only [day_max]
  omega

theorem earlierOf_comm (a b : Option Date) : earlierOf a b = earlierOf b a := by
  cases a <;> cases b <;> simp only [earlierOf, Option.some.injEq]
  ext
  simp only [day_min]
  omega

theorem earlierOf_assoc (a b c : Option Date) :
    earlierOf (earlierOf a b) c = earlierOf a (earlierOf b c) := by
  cases a <;> cases b <;> cases c <;> simp only [earlierOf, Option.some.injEq]
  ext
  simp only [day_min]
  omega

end Date

/-! ## The soonest start -/

namespace Network
variable {net net' : Network} {spanOf spanOf' : ItemId → Option Span} {id id' : ItemId}

theorem soonestStartBy_eq_foldl : net.soonestStartBy spanOf id = ((net.bindingLinks id).map fun l =>
    l.release ((spanOf l.predecessor).bind (·.due))).foldl Date.laterOf none := by
  rw [List.foldl_map]; rfl

theorem within_soonestStartBy {c : Option Date} :
    Date.Within (net.soonestStartBy spanOf id) c ↔ ∀ l ∈ net.bindingLinks id,
      Date.Within (l.release ((spanOf l.predecessor).bind (·.due))) c := by
  rw [soonestStartBy_eq_foldl, Date.within_foldl_laterOf]
  simp [Date.Within]

theorem release_within_soonestStartBy (spanOf : ItemId → Option Span) {l : Link}
    (hl : l ∈ net.bindingLinks id) :
    Date.Within (l.release ((spanOf l.predecessor).bind (·.due))) (net.soonestStartBy spanOf id) :=
  within_soonestStartBy.mp (Date.within_refl _) l hl

/-- The soonest start is what one of the binding links asks for. -/
theorem exists_release_eq_soonestStartBy {d : Date} (h : net.soonestStartBy spanOf id = some d) :
    ∃ l ∈ net.bindingLinks id, l.release ((spanOf l.predecessor).bind (·.due)) = some d := by
  rw [soonestStartBy_eq_foldl] at h
  rcases Date.foldl_laterOf_eq_or_mem _ none with hnone | hmem
  · cases hnone.symm.trans h
  · rw [h] at hmem
    exact List.mem_map.mp hmem

theorem soonestStartBy_within_of_subset (hl : net.bindingLinks id ⊆ net'.bindingLinks id')
    (hs : ∀ l ∈ net.bindingLinks id, spanOf l.predecessor = spanOf' l.predecessor) :
    Date.Within (net.soonestStartBy spanOf id) (net'.soonestStartBy spanOf' id') := by
  refine within_soonestStartBy.mpr fun l hmem => ?_
  rw [hs l hmem]
  exact release_within_soonestStartBy spanOf' (hl hmem)

/-- An item is asked for at least as much as its parent. -/
theorem soonestStart_within_of_inside (h : net.Inside id id') :
    Date.Within (net.soonestStart id') (net.soonestStart id) :=
  soonestStartBy_within_of_subset (bindingLinks_subset_of_inside h) fun _ _ => rfl

/-- The soonest start is told by the set of the binding links and the days of their predecessors. -/
theorem soonestStartBy_congr (hl : ∀ l, l ∈ net.bindingLinks id ↔ l ∈ net'.bindingLinks id)
    (hs : ∀ l ∈ net.bindingLinks id, spanOf l.predecessor = spanOf' l.predecessor) :
    net.soonestStartBy spanOf id = net'.soonestStartBy spanOf' id :=
  (soonestStartBy_within_of_subset (fun _ h => (hl _).mp h) hs).antisymm
    (soonestStartBy_within_of_subset (fun _ h => (hl _).mpr h) fun l h =>
      (hs l ((hl l).mpr h)).symm)

end Network

/-! ## Pulls -/

theorem le_foldl_min {l : List Int} {a c : Int} :
    c ≤ l.foldl min a ↔ c ≤ a ∧ ∀ b ∈ l, c ≤ b := by
  induction l generalizing a with
  | nil => simp
  | cons b rest ih =>
    rw [List.foldl_cons, ih, List.forall_mem_cons, ← and_assoc]
    exact and_congr_left' (by omega)

theorem PullPolicy.pull_mono {policy : PullPolicy} {l l' : List Int}
    (h : ∀ n ∈ l', ∃ m ∈ l, m ≤ n) : policy.pull l ≤ policy.pull l' := by
  cases policy with
  | hold => exact Int.le_refl 0
  | follow =>
    have hleast := (le_foldl_min (l := l) (a := 0)).mp (Int.le_refl _)
    refine le_foldl_min.mpr ⟨hleast.1, fun n hn => ?_⟩
    obtain ⟨m, hm, hmn⟩ := h n hn
    exact Int.le_trans (hleast.2 m hm) hmn

theorem PullPolicy.pull_congr {policy : PullPolicy} {l l' : List Int} (h : ∀ n, n ∈ l ↔ n ∈ l') :
    policy.pull l = policy.pull l' :=
  Int.le_antisymm (pull_mono fun n hn => ⟨n, (h n).mpr hn, Int.le_refl n⟩)
    (pull_mono fun n hn => ⟨n, (h n).mp hn, Int.le_refl n⟩)

/-- Moves of no days pull nothing. -/
theorem PullPolicy.pull_le_of_moved {policy : PullPolicy} {l l' : List Int}
    (h : ∀ n ∈ l', n ≠ 0 → n ∈ l) : policy.pull l ≤ policy.pull l' := by
  cases policy with
  | hold => exact Int.le_refl 0
  | follow =>
    have hleast := le_foldl_min.mp (Int.le_refl (l.foldl min 0))
    refine le_foldl_min.mpr ⟨hleast.1, fun n hn => ?_⟩
    by_cases hzero : n = 0
    · exact hzero ▸ hleast.1
    · exact hleast.2 n (h n hn hzero)

/-- Predecessors that have moved to no earlier day pull nothing. -/
theorem PullPolicy.pull_eq_zero {policy : PullPolicy} {l : List Int} (h : ∀ n ∈ l, 0 ≤ n) :
    policy.pull l = 0 := by
  cases policy with
  | hold => rfl
  | follow =>
    exact Int.le_antisymm (le_foldl_min.mp (Int.le_refl _)).1
      (le_foldl_min.mpr ⟨Int.le_refl _, h⟩)

theorem PullPolicy.le_pull {policy : PullPolicy} {l : List Int} {n : Int} (hn : n ≤ 0)
    (h : ∀ m ∈ l, n ≤ m) : n ≤ policy.pull l := by
  cases policy with
  | hold => exact hn
  | follow => exact le_foldl_min.mpr ⟨hn, h⟩

/-- What pulls an item to an earlier day is the move of one of its predecessors. -/
theorem PullPolicy.exists_le_pull {policy : PullPolicy} {moves : List Int} (h : policy.pull moves < 0) :
    policy = .follow ∧ ∃ n ∈ moves, n ≤ policy.pull moves := by
  cases policy with
  | hold => exact absurd h (Int.lt_irrefl 0)
  | follow =>
    refine ⟨rfl, ?_⟩
    by_contra hnone
    have hall : ∀ n ∈ moves, PullPolicy.follow.pull moves + 1 ≤ n := by
      intro n hn
      by_contra hlt
      exact hnone ⟨n, hn, by omega⟩
    have hle : PullPolicy.follow.pull moves + 1 ≤ PullPolicy.follow.pull moves :=
      le_foldl_min.mpr ⟨by omega, hall⟩
    omega

/-! ## Spans -/

namespace Span

theorem start_notBefore {s : Span} {bound : Option Date} {start b : Date}
    (hs : (s.notBefore bound).start = some start) (hb : bound = some b) : b ≤ start := by
  obtain ⟨a, _, ha⟩ := Option.map_eq_some_iff.mp hs
  rw [hb] at ha
  rw [← ha, Date.le_iff]
  simp only [Option.elim_some, Date.day_max]
  omega

theorem yieldTo_of_start {s : Span} {start : Date} (hs : s.start = some start) (b : Date) (pull : Int) :
    s.yieldTo (some b) pull = s.shift (max (start.daysUntil b) (min pull 0)) := by
  simp only [yieldTo, hs]

theorem start_yieldTo {s : Span} {bound : Option Date} {pull : Int} {start b : Date}
    (hs : (s.yieldTo bound pull).start = some start) (hb : bound = some b) : b ≤ start := by
  obtain ⟨first, due⟩ := s
  subst hb
  cases first with
  | none =>
    have he : b = start := Option.some.inj hs
    exact he ▸ Date.le_refl b
  | some first =>
    have he : first.addDays (max (first.daysUntil b) (min pull 0)) = start := Option.some.inj hs
    have hlast := b.le_last
    rw [← he, Date.le_iff, Date.day_addDays, Date.daysUntil]
    omega

theorem shift_zero (s : Span) : s.shift 0 = s := by
  have hzero : ∀ d : Date, d.addDays 0 = d := fun d =>
    Date.addDays_of_daysUntil (Int.sub_self d.day)
  simp only [shift, hzero, Option.map_id']

theorem yieldTo_of_le {s : Span} {start b : Date} (hs : s.start = some start) (hb : b ≤ start) :
    s.yieldTo (some b) 0 = s := by
  have hstay : max (start.daysUntil b) (min 0 0) = 0 := by
    rw [Date.le_iff] at hb
    rw [Date.daysUntil]
    omega
  rw [yieldTo_of_start hs, hstay, shift_zero]

/-- A span that has yielded to a bound stays behind it, also at the ends of the supported range. -/
theorem yieldTo_yieldTo (s : Span) (bound : Option Date) (pull : Int) :
    (s.yieldTo bound pull).yieldTo bound 0 = s.yieldTo bound pull := by
  cases bound with
  | none => rfl
  | some b =>
    cases hstart : (s.yieldTo (some b) pull).start with
    | none =>
      obtain ⟨start, due⟩ := s
      cases start <;> cases hstart
    | some start => exact yieldTo_of_le hstart (start_yieldTo hstart rfl)

/-- Whether a span reaches from no later than another one starts to no earlier than that is due, at
each end that the other one sets. -/
structure Contains (outer inner : Span) : Prop where
  start : ∀ d, inner.start = some d → ∃ d', outer.start = some d' ∧ d' ≤ d
  due : ∀ d, inner.due = some d → ∃ d', outer.due = some d' ∧ d ≤ d'

theorem Contains.trans {a b c : Span} (hab : a.Contains b) (hbc : b.Contains c) :
    a.Contains c := by
  constructor
  · intro d hd
    obtain ⟨d', hd', hle⟩ := hbc.start d hd
    obtain ⟨d'', hd'', hle'⟩ := hab.start d' hd'
    exact ⟨d'', hd'', Date.le_trans hle' hle⟩
  · intro d hd
    obtain ⟨d', hd', hle⟩ := hbc.due d hd
    obtain ⟨d'', hd'', hle'⟩ := hab.due d' hd'
    exact ⟨d'', hd'', Date.le_trans hle hle'⟩

theorem join_comm (s t : Span) : s.join t = t.join s :=
  Span.ext (Date.earlierOf_comm _ _) (Date.laterOf_comm _ _)

theorem join_assoc (s t u : Span) : (s.join t).join u = s.join (t.join u) :=
  Span.ext (Date.earlierOf_assoc _ _ _) (Date.laterOf_assoc _ _ _)

theorem undated_join (s : Span) : undated.join s = s := rfl

theorem foldl_join (l : List Span) (s : Span) : l.foldl join s = s.join (hull l) := by
  induction l generalizing s with
  | nil => rw [hull, List.foldl_nil, List.foldl_nil, join_comm, undated_join]
  | cons t rest ih =>
    rw [hull, List.foldl_cons, List.foldl_cons, ih, ih (undated.join t), undated_join, join_assoc]

theorem hull_cons (s : Span) (l : List Span) : hull (s :: l) = s.join (hull l) := by
  rw [hull, List.foldl_cons, undated_join, foldl_join]

theorem join_contains_left (s t : Span) : (s.join t).Contains s := by
  obtain ⟨s₁, s₂⟩ := s
  obtain ⟨t₁, t₂⟩ := t
  constructor
  · rintro d rfl
    cases t₁ with
    | none => exact ⟨d, rfl, Date.le_refl d⟩
    | some e => exact ⟨min d e, rfl, by rw [Date.le_iff, Date.day_min]; omega⟩
  · rintro d rfl
    cases t₂ with
    | none => exact ⟨d, rfl, Date.le_refl d⟩
    | some e => exact ⟨max d e, rfl, by rw [Date.le_iff, Date.day_max]; omega⟩

theorem hull_contains {l : List Span} {s : Span} (h : s ∈ l) : (hull l).Contains s := by
  induction l with
  | nil => cases h
  | cons t rest ih =>
    rw [hull_cons]
    rcases List.mem_cons.mp h with rfl | h
    · exact join_contains_left _ _
    · rw [join_comm]
      exact (join_contains_left _ _).trans (ih h)

/-- Whether a span contains another one, except that it may start later than that one if that one starts
before a bound. -/
structure ContainsBehind (bound : Option Date) (outer inner : Span) : Prop where
  start : ∀ d, inner.start = some d → ∃ d', outer.start = some d' ∧
    (d' ≤ d ∨ ∃ b, bound = some b ∧ d < b)
  due : ∀ d, inner.due = some d → ∃ d', outer.due = some d' ∧ d ≤ d'

theorem ContainsBehind.contains {s t : Span} {bound : Option Date} (h : ContainsBehind bound s t)
    (hb : ∀ d, t.start = some d → Date.Within bound (some d)) : s.Contains t where
  start d hd := by
    obtain ⟨d', hd', hle | ⟨b, hbound, hlt⟩⟩ := h.start d hd
    · exact ⟨d', hd', hle⟩
    · exact absurd (Date.within_some_iff.mp (hb d hd) b hbound) (Int.not_le.mpr hlt)
  due := h.due

/-- Keeping a hull behind a bound takes out of it at most what lies before the bound. -/
theorem notBefore_containsBehind {s t : Span} (h : s.Contains t) (bound : Option Date) :
    ContainsBehind bound (s.notBefore bound) t := by
  constructor
  · intro d hd
    obtain ⟨d', hd', hle⟩ := h.start d hd
    refine ⟨bound.elim d' (max d'), by simp only [notBefore, hd', Option.map_some], ?_⟩
    cases bound with
    | none => exact Or.inl hle
    | some b =>
      simp only [Option.elim_some, Option.some.injEq, exists_eq_left', Date.le_iff, Date.lt_iff,
        Date.day_max] at hle ⊢
      omega
  · intro d hd
    obtain ⟨d', hd', hle⟩ := h.due d hd
    refine ⟨(s.start.map fun start => bound.elim start (max start)).elim d' (max · d'),
      by simp only [notBefore, hd', Option.map_some], ?_⟩
    cases (s.start.map fun start => bound.elim start (max start)) with
    | none => exact hle
    | some a =>
      rw [Date.le_iff] at hle ⊢
      simp only [Option.elim_some, Date.day_max]
      omega

/-- Keeping a hull behind a bound is settled at once: with the result in the place of one of the
spans, the hull comes to the same. -/
theorem notBefore_join_notBefore (s rest : Span) (bound : Option Date) :
    (((s.join rest).notBefore bound).join rest).notBefore bound =
      (s.join rest).notBefore bound := by
  obtain ⟨s₁, s₂⟩ := s
  obtain ⟨r₁, r₂⟩ := rest
  cases s₁ <;> cases r₁ <;> cases bound <;> cases s₂ <;> cases r₂ <;>
    simp only [join, notBefore, Date.earlierOf, Date.laterOf, Option.map_some, Option.map_none,
      Option.elim_some, Option.elim_none, Span.mk.injEq, Option.some.injEq, Date.ext_iff,
      Date.day_max, Date.day_min, and_true, true_and] <;> omega

end Span

end WorkPlan
