import WorkPlan.Proofs.Consistency
import WorkPlan.Proofs.Monotone

/-! # Nothing moves further than the root

A consistent plan is what its own rules make of it: parents have the hull of their children, and no item
would have to yield. The rules never add to a move. Bounds and hulls move by no more than the days they
come from (`Date.stable_movedWithin`), and an item that keeps its bound moves by no more than the bound
or the pull does (`Span.related_yieldTo`), also where a day stops at an end of the supported range. So no
chain, however long, carries an item further than the root was moved (`Pass.Nudge.settled`). -/

namespace WorkPlan

/-! ## Days that have moved -/

/-- Whether a day lies at least `lo` and at most `hi` days after another one. -/
def Date.MovedWithin (lo hi : Int) (a b : Date) : Prop := lo ≤ a.daysUntil b ∧ a.daysUntil b ≤ hi

section
variable {lo hi : Int} (hlo : lo ≤ 0) (hhi : 0 ≤ hi)
include hlo hhi

namespace Date

theorem movedWithin_refl (d : Date) : MovedWithin lo hi d d := by
  have hzero : d.daysUntil d = 0 := Int.sub_self _
  exact ⟨hzero ▸ hlo, hzero ▸ hhi⟩

/-- A day moves by no more than it is asked to, as it lies in the supported range itself. -/
theorem movedWithin_addDays {n : Int} (hl : lo ≤ n) (hh : n ≤ hi) (d : Date) :
    MovedWithin lo hi d (d.addDays n) := by
  have hfirst := d.first_le
  have hlast := d.le_last
  rw [MovedWithin, daysUntil, day_addDays]
  omega

theorem stable_movedWithin : Stable (MovedWithin lo hi) where
  max ha hb := by
    simp only [MovedWithin, daysUntil, day_max] at ha hb ⊢
    omega
  min ha hb := by
    simp only [MovedWithin, daysUntil, day_min] at ha hb ⊢
    omega
  addDays ha n := by
    simp only [MovedWithin, daysUntil, day_addDays] at ha ⊢
    omega

end Date

namespace Span
variable {s t : Span} {bound bound' : Option Date} {n : Int}

theorem related_shift (hl : lo ≤ n) (hh : n ≤ hi) (s : Span) :
    s.Related (Date.MovedWithin lo hi) (s.shift n) := by
  have hend : ∀ a : Option Date,
      Option.Rel (Date.MovedWithin lo hi) a (a.map (·.addDays n)) := by
    intro a
    cases a with
    | none => exact .none
    | some d => exact .some (Date.movedWithin_addDays hlo hhi hl hh d)
  exact ⟨hend s.start, hend s.due⟩

/-- A span that keeps its bound, and yields once the bound has moved, moves no further than the bound
or the pull. -/
theorem related_yieldTo (hstart : s.start.isSome = true)
    (hkept : ∀ d, s.start = some d → Date.Within bound (some d))
    (hb : Option.Rel (Date.MovedWithin lo hi) bound bound') {pull : Int} (hpull : lo ≤ pull) :
    s.Related (Date.MovedWithin lo hi) (s.yieldTo bound' pull) := by
  obtain ⟨start, hs⟩ := Option.isSome_iff_exists.mp hstart
  cases hb with
  | none => exact .refl (Date.movedWithin_refl hlo hhi) s
  | @some b b' hb =>
    have hkept : b ≤ start := hkept start hs
    have hmove : start.daysUntil b' ≤ hi := by
      have hle := hb.2
      rw [Date.le_iff] at hkept
      rw [Date.daysUntil] at hle ⊢
      omega
    simp only [yieldTo, hs]
    exact related_shift hlo hhi (by omega) (by omega) s

omit hhi in
theorem Related.le_driftTo (h : s.Related (Date.MovedWithin lo hi) t) : lo ≤ s.driftTo t := by
  obtain ⟨s₁, s₂⟩ := s
  obtain ⟨t₁, t₂⟩ := t
  obtain ⟨hstart, hdue⟩ := h
  cases hdue with
  | some hdue => exact hdue.1
  | none =>
    cases hstart with
    | some hstart => exact hstart.1
    | none => exact hlo

end Span

omit hhi in
theorem Settled.le_drift {s : Settled} {net net' : Network} {y : ItemId}
    (h : Option.Rel (Span.Related (Date.MovedWithin lo hi)) (net.span? y) (s.span? net' y)) :
    lo ≤ s.drift net y := by
  rw [drift]
  split
  · rename_i before after hbefore hafter
    rw [hbefore, span?_of_settled hafter] at h
    cases h with
    | some h => exact h.le_driftTo hlo
  · exact hlo

end

theorem Span.Related.exists_ends {R : Date → Date → Prop} {s t : Span} (h : s.Related R t)
    (hs : s.Dated) : ∃ a b a' b', s = ⟨some a, some b⟩ ∧ t = ⟨some a', some b'⟩ ∧
      R a a' ∧ R b b' := by
  obtain ⟨s₁, s₂⟩ := s
  obtain ⟨t₁, t₂⟩ := t
  obtain ⟨hstart, hdue⟩ := h
  obtain ⟨hs₁, hs₂⟩ := hs
  cases hstart with
  | none => cases hs₁
  | some hstart =>
    cases hdue with
    | none => cases hs₂
    | some hdue => exact ⟨_, _, _, _, rfl, rfl, hstart, hdue⟩

/-! ## A pass over a consistent plan -/

/-- A pass over a consistent plan with all dates that moves the ends of the root by a number of days
between two bounds and leaves it where it is contained. -/
structure Pass.Nudge (p : Pass) (lo hi : Int) : Prop extends p.Ready none where
  lo_le : lo ≤ 0
  le_hi : 0 ≤ hi
  parent : p.root.parent = p.stored.parent
  root : p.stored.span.Related (Date.MovedWithin lo hi) p.root.span
  dated : p.before.Dated
  consistent : p.before.Consistent

namespace Pass.Nudge
variable {p : Pass} {lo hi : Int} {policy : PullPolicy} {x : ItemId} (h : p.Nudge lo hi)
include h

/-- An item moves no further than what it depends on. -/
theorem spanFor {s : Settled} {item : Item} (hitem : p.before.item? x = some item)
    (hs : ∀ y ∈ p.working.dependencies x, Option.Rel (Span.Related (Date.MovedWithin lo hi))
      (p.before.span? y) (s.span? p.working y)) :
    item.span.Related (Date.MovedWithin lo hi) (p.spanFor policy s item) := by
  have hid := Network.id_of_item? hitem
  have hspan := Network.span?_of_item? hitem
  have hshape := h.sameShape h.parent
  have hstable := Date.stable_movedWithin h.lo_le h.le_hi
  obtain ⟨hkept, hhull⟩ := Network.consistent_iff.mp h.consistent
  have hbound : Option.Rel (Date.MovedWithin lo hi) (p.before.soonestStart x)
      (p.working.soonestStartBy (s.span? p.working) x) := by
    rw [Network.soonestStart, ← hshape.soonestStartBy_eq]
    exact Network.soonestStartBy_related hstable fun l hl =>
      hs _ (Network.predecessor_mem_dependencies hl)
  simp only [Pass.spanFor, hid]
  split
  · rename_i hchildren
    have hstored := hhull x (Network.contains_iff.mpr ⟨item, hitem⟩)
      (hshape.hasChildren_eq ▸ hchildren)
    rw [Option.some.inj (hspan.symm.trans hstored), ← hshape.childrenOf_eq]
    have hmoved := Span.Related.hull hstable (forall₂_filterMap fun c hc =>
      hs c (Network.child_mem_dependencies hc))
    exact hmoved.notBefore hstable hbound
  · split
    · refine Span.related_yieldTo h.lo_le h.le_hi (h.dated x _ hspan).start
        ((Network.keepsBound_iff hspan).mp (hkept x)) hbound
        (PullPolicy.le_pull h.lo_le fun n hn => ?_)
      obtain ⟨l, hl, rfl⟩ := List.mem_map.mp hn
      exact Settled.le_drift h.lo_le (hs _ (Network.predecessor_mem_dependencies hl))
    · exact .refl (Date.movedWithin_refl h.lo_le h.le_hi) _

/-- **No item moves further than the root was moved**, nor the other way. -/
theorem settled : Option.Rel (Span.Related (Date.MovedWithin lo hi)) (p.before.span? x)
    ((p.settled policy).span? p.working x) := by
  have hstill : ∀ {y}, y ≠ p.root.id → Option.Rel (Span.Related (Date.MovedWithin lo hi))
      (p.before.span? y) (p.working.span? y) := by
    intro y hy
    rw [h.span?_working hy]
    exact rel_refl (fun s => .refl (Date.movedWithin_refl h.lo_le h.le_hi) s) _
  refine h.settled_induct (P := fun y days => Option.Rel
    (Span.Related (Date.MovedWithin lo hi)) (p.before.span? y) (days <|> p.working.span? y))
    ?_ (fun y hy _ => hstill hy) ?_ x
  · rw [Network.span?_of_item? h.stored]
    exact .some h.root
  · intro y hy item hitem ih
    have hne := h.ne_root_of_mem_order hy
    have hbefore : p.before.item? y = some item := by
      rw [h.working, Network.item?_insert, if_neg (Ne.symm hne)] at hitem
      exact hitem
    rw [Network.span?_of_item? hbefore]
    refine .some (h.spanFor hbefore fun z hz => ?_)
    rw [Settled.span?, Settled.getElem?_without]
    split
    · rename_i hyz
      exact hyz ▸ hstill hne
    · rename_i hyz
      rw [Network.id_of_item? hitem] at ih
      exact ih z hz (Ne.symm hyz)

end Pass.Nudge

/-- **No item moves further than the root was moved**, nor the other way, in a consistent plan whose
items have all dates. -/
theorem Network.movedWithin_of_reflow {net : Network} {settings : Settings} {e : Edit} {o : Outcome}
    {stored : Item} {start due start' due' : Date} (hd : net.Dated) (hc : net.Consistent)
    (hstored : net.item? e.id = some stored) (hparent : e.proposed.parent = false)
    (hspan : stored.span = ⟨some start, some due⟩)
    (happlied : (e.applyTo stored).span = ⟨some start', some due'⟩)
    (h : net.reflow settings e = .ok o) :
    let lo := min (min (start.daysUntil start') (due.daysUntil due')) 0
    let hi := max (max (start.daysUntil start') (due.daysUntil due')) 0
    ∀ x slot, o.changes[x]? = some slot → ∃ s d s' d', net.span? x = some ⟨some s, some d⟩ ∧
      slot.span = ⟨some s', some d'⟩ ∧ s.MovedWithin lo hi s' ∧ d.MovedWithin lo hi d' := by
  intro lo hi x slot hslot
  obtain ⟨p, hp, rfl⟩ := reflow_eq_ok.mp h
  split at hslot
  · simp at hslot
  obtain ⟨_, stored', hstored', _, rfl⟩ := pass?_eq_ok.mp hp
  obtain rfl : stored = stored' := Option.some.inj (hstored.symm.trans hstored')
  have hkeeps : e.KeepsDates stored := ⟨hparent, by rw [happlied]; exact ⟨rfl, rfl⟩⟩
  have hroot : stored.span.Related (Date.MovedWithin lo hi) (e.applyTo stored).span := by
    rw [hspan, happlied]
    exact ⟨.some ⟨by omega, by omega⟩, .some ⟨by omega, by omega⟩⟩
  have hnudge : (Pass.prepare net e stored).Nudge lo hi :=
    { hkeeps.ready hstored with
      lo_le := by omega
      le_hi := by omega
      parent := hkeeps.root_eq ▸ hkeeps.parent_applyTo
      root := hkeeps.root_eq ▸ hroot
      dated := hd
      consistent := hc }
  rw [Pass.changes_outcome, Pass.changes_eq_some] at hslot
  obtain ⟨_, span, _, hsettled, _, rfl⟩ := hslot
  have hmoved : Option.Rel (Span.Related (Date.MovedWithin lo hi)) (net.span? x)
      (((Pass.prepare net e stored).settled settings.policy).span?
        (Pass.prepare net e stored).working x) := hnudge.settled
  rw [Settled.span?_of_settled hsettled] at hmoved
  obtain ⟨before, hbefore, hmoved⟩ := exists_of_rel_some hmoved
  obtain ⟨a, b, a', b', rfl, hslot, hstart, hdue⟩ := hmoved.exists_ends (hd x before hbefore)
  exact ⟨a, b, a', b', hbefore, hslot, hstart, hdue⟩

def datedPour : Item := { id := ⟨"pour"⟩, start := Date.ofDay? 4, due := Date.ofDay? 5 }

def datedShellPlan : Network := .ofLists
  [{ id := ⟨"frame"⟩, start := Date.ofDay? 6, due := Date.ofDay? 8, parent := some ⟨"shell"⟩ },
    datedPour, { id := ⟨"shell"⟩, start := Date.ofDay? 6, due := Date.ofDay? 8 }]
  shellLinks

/-- The pour starts one day later and is due four days later. -/
def pourLonger : Edit :=
  (({ id := ⟨"pour"⟩ } : Edit).withStart (Date.ofDay? 5)).withDue (Date.ofDay? 9)

theorem dated_datedShellPlan : datedShellPlan.Dated := by
  refine Network.dated_ofLists (by simp [datedPour]) fun x hx => ?_
  simp only [List.mem_cons, List.not_mem_nil, or_false] at hx
  rcases hx with rfl | rfl | rfl <;> exact ⟨rfl, rfl⟩

theorem movedWithin_pourLonger :
    datedShellPlan.Dated ∧ datedShellPlan.Consistent ∧ pourLonger.proposed.parent = false ∧
      datedShellPlan.reflow {} pourLonger = .ok shellLater ∧
      ∀ x slot, shellLater.changes[x]? = some slot → ∃ s d s' d',
        datedShellPlan.span? x = some ⟨some s, some d⟩ ∧ slot.span = ⟨some s', some d'⟩ ∧
        s.MovedWithin 0 4 s' ∧ d.MovedWithin 0 4 d' := by
  have hconsistent : datedShellPlan.Consistent := by decide +kernel
  have hreflow : datedShellPlan.reflow {} pourLonger = .ok shellLater := by decide +kernel
  have hstored : datedShellPlan.item? pourLonger.id = some datedPour := by decide +kernel
  have hspan : datedPour.span = ⟨some (.clamp 4), some (.clamp 5)⟩ := rfl
  have happlied : (pourLonger.applyTo datedPour).span = ⟨some (.clamp 5), some (.clamp 9)⟩ := rfl
  exact ⟨dated_datedShellPlan, hconsistent, rfl, hreflow, Network.movedWithin_of_reflow
    dated_datedShellPlan hconsistent hstored rfl hspan happlied hreflow⟩

end WorkPlan
