import WorkPlan.Proofs.Containment
import WorkPlan.Proofs.DayArithmetic
import WorkPlan.Proofs.Earliest

/-! # Held items come to rest at the same days, whichever way the root goes

If items are held where they are, it does not matter whether a root is taken to its new days at once or
rests on earlier days on the way. The first of two commits puts an item off by no more than the second one
alone would (`Pass.NoLater.span?`), and to be put off twice comes to being put off once, to the later of
the two bounds (`Span.yieldTo_yieldTo_of_within`). Items with children are computed afresh each time. So
both ways lead to the same days (`span?_of_commits`), unless the first commit starts a pass and the second
one does not (`frame_put_off_on_the_way`). -/

namespace WorkPlan

/-! ## Putting off twice -/

namespace Span
variable {s : Span} {a b : Option Date}

theorem shift_shift {m n : Int} (hm : 0 ≤ m) (hn : 0 ≤ n) (s : Span) :
    (s.shift m).shift n = s.shift (m + n) := by
  simp [shift, Function.comp_def, Date.addDays_addDays (Or.inl ⟨hm, hn⟩)]

/-- A span that was put off on the way to a bound comes to the same days there. -/
theorem yieldTo_yieldTo_of_within (hs : s.start.isSome = true) (hab : Date.Within a b) :
    (s.yieldTo a 0).yieldTo b 0 = s.yieldTo b 0 := by
  obtain ⟨start, hstart⟩ := Option.isSome_iff_exists.mp hs
  cases a with
  | none => rfl
  | some a =>
    cases b with
    | none => exact hab.elim
    | some b =>
      have hab : a.day ≤ b.day := hab
      have hput : (s.yieldTo (some a) 0).start = some (max start a) := by
        have ha := a.le_last
        have hfirst := start.first_le
        have hlast := start.le_last
        rw [yieldTo_of_start hstart, shift, hstart, Option.map_some, Option.some.injEq]
        ext
        rw [Date.day_addDays, Date.daysUntil, Date.day_max]
        omega
      have hsum : max (start.daysUntil a) (min 0 0) + max ((max start a).daysUntil b) (min 0 0) =
          max (start.daysUntil b) (min 0 0) := by
        simp only [Date.daysUntil, Date.day_max]
        omega
      rw [yieldTo_of_start hput, yieldTo_of_start hstart, yieldTo_of_start hstart,
        shift_shift (by omega) (by omega), hsum]

end Span

/-! ## Two ways to the same days -/

namespace Pass
variable {p q r : Pass} {x : ItemId}

/-- Two passes that take a root to the same days, `direct` from a plan as it stands and `onward` from one
in which items were put off before, but not beyond the bounds that they will have. -/
structure Detour (onward direct : Pass) : Prop where
  steady_onward : onward.Steady
  steady_direct : direct.Steady
  before : SameShape onward.before direct.before
  root_id : onward.root.id = direct.root.id
  root_span : onward.root.span = direct.root.span
  unordered : ∀ x, x ≠ direct.root.id → x ∉ direct.agenda.order →
    onward.before.span? x = direct.before.span? x
  childless : ∀ x ∈ direct.agenda.order, direct.working.hasChildren x = false →
    ∀ stored, direct.before.span? x = some stored →
      ∃ bound, onward.before.span? x = some (stored.yieldTo bound 0) ∧
        Date.Within bound (direct.working.soonestStartBy direct.heldDays x)

namespace Detour
variable (h : r.Detour q)
include h

theorem working : SameShape r.working q.working :=
  ((h.steady_onward.sameShape h.steady_onward.parent).trans h.before).trans
    (h.steady_direct.sameShape h.steady_direct.parent).symm

theorem order_eq : r.agenda.order = q.agenda.order := by
  rw [h.steady_onward.agenda, h.steady_direct.agenda, ← h.root_id]
  exact h.working.order_eq h.steady_onward.contains_root

/-- **Both ways lead to the same days.** -/
theorem heldDays_eq (x : ItemId) : r.heldDays x = q.heldDays x := by
  have honward := h.steady_onward.admissible
  have hdirect := h.steady_direct.admissible
  refine h.steady_direct.induct (P := fun x => r.heldDays x = q.heldDays x) ?_ ?_ x
  · intro y ho
    by_cases hy : y = q.root.id
    · rw [hy, hdirect.atRoot, ← h.root_id, honward.atRoot, h.root_span]
    · rw [honward.unordered y (h.root_id ▸ hy) (h.order_eq ▸ ho), hdirect.unordered y hy ho,
        h.unordered y hy ho]
  · intro y ho ih
    have ho' : y ∈ r.agenda.order := h.order_eq ▸ ho
    have hbound : r.working.soonestStartBy r.heldDays y = q.working.soonestStartBy q.heldDays y := by
      rw [h.working.soonestStartBy_eq]
      exact Network.soonestStartBy_congr (fun _ => Iff.rfl) fun l hl =>
        ih _ (Network.predecessor_mem_dependencies hl)
    cases hc : q.working.hasChildren y with
    | true =>
      rw [honward.parent y ho' (h.working.hasChildren_eq.trans hc), hdirect.parent y ho hc, hbound,
        h.working.childrenOf_eq, List.filterMap_congr fun c hchild =>
          ih c (Network.child_mem_dependencies hchild)]
    | false =>
      obtain ⟨stored, hstored, hdays⟩ := h.steady_direct.heldDays_childless ho hc
      obtain ⟨bound, hput, hwithin⟩ := h.childless y ho hc stored hstored
      obtain ⟨stored', hstored', hdays'⟩ :=
        h.steady_onward.heldDays_childless ho' (h.working.hasChildren_eq.trans hc)
      obtain rfl := Option.some.inj (hput.symm.trans hstored')
      -- put off on the way, the item yields once more to a bound that asks for no less
      have hstart := (h.steady_direct.dated y stored hstored).start
      rw [hdays', hbound, Span.yieldTo_yieldTo_of_within hstart hwithin, hdays]

end Detour

/-- Where nothing but the root was moved before, nothing was put off. -/
theorem Steady.detour (hr : r.Steady) (hq : q.Steady) (hbefore : SameShape r.before q.before)
    (hid : r.root.id = q.root.id) (hspan : r.root.span = q.root.span)
    (hsame : ∀ x, x ≠ q.root.id → r.before.span? x = q.before.span? x) : r.Detour q where
  steady_onward := hr
  steady_direct := hq
  before := hbefore
  root_id := hid
  root_span := hspan
  unordered x hx _ := hsame x hx
  childless x ho _ _ hstored :=
    ⟨none, (hsame x (hq.ne_root_of_mem_order ho)).trans hstored, trivial⟩

/-- A pass that takes the root part of the way puts nothing off beyond where the whole way does. -/
theorem NoLater.detour (h : p.NoLater q none) (hp : p.Steady) (hq : q.Steady) (hr : r.Steady)
    (hc : p.CarriedOut .hold r.before) (hid : r.root.id = q.root.id)
    (hspan : r.root.span = q.root.span) : r.Detour q where
  steady_onward := hr
  steady_direct := hq
  before := by
    rw [h.before]
    exact (hc.sameShape hp.toReady).trans (hp.sameShape hp.parent)
  root_id := hid
  root_span := hspan
  unordered x hx ho := by
    rw [hc.span?_eq_heldDays rfl, h.before]
    exact hp.admissible.unordered x (h.root_id ▸ hx) (h.agenda_eq.2 ▸ ho)
  childless x ho hchildren stored hstored := by
    rw [h.before] at hstored
    obtain ⟨stored', hstored', hdays⟩ :=
      hp.heldDays_childless (h.agenda_eq.2 ▸ ho) (h.sameShape.hasChildren_eq.trans hchildren)
    obtain rfl : stored = stored' := Option.some.inj (hstored.symm.trans hstored')
    have hbound : Date.NoLater (p.working.soonestStartBy p.heldDays x)
        (q.working.soonestStartBy q.heldDays x) := by
      rw [← h.sameShape.soonestStartBy_eq]
      exact Network.soonestStartBy_related Date.stable_le fun l _ =>
        Span.NoLater.rel_iff_related.mp h.span?
    exact ⟨_, (congrFun (hc.span?_eq_heldDays rfl) x).trans hdays, hbound.within⟩

end Pass

/-! ## One commit after another -/

/-- Whether an edit can be carried out is a matter of the shape. -/
theorem SameShape.exists_commit {net net' after : Network} {settings : Settings} {e : Edit} {o : Outcome}
    (hshape : SameShape net' net) (h : net.commit settings e = .ok (after, o)) :
    ∃ after' o', net'.commit settings e = .ok (after', o') := by
  obtain ⟨stored, hroot, hreflow, _⟩ := Network.commit_eq_ok.mp h
  obtain ⟨hblank, hstored⟩ := Network.root?_eq_ok.mp hroot
  obtain ⟨_, hpass, _⟩ := Network.reflow_eq_ok.mp hreflow
  obtain ⟨_, stored', hstored', hcheck, _⟩ := Network.pass?_eq_ok.mp hpass
  obtain rfl : stored = stored' := Option.some.inj (hstored.symm.trans hstored')
  obtain ⟨item, hitem⟩ := Network.contains_iff.mp
    ((hshape.contains e.id).trans (Network.contains_iff.mpr ⟨stored, hstored⟩))
  have hid : (e.applyTo item).id = (e.applyTo stored).id :=
    (Network.id_of_item? hitem).trans (Network.id_of_item? hstored).symm
  have hparent : (e.applyTo item).parent = (e.applyTo stored).parent := by
    have hsame : item.parent = stored.parent := by
      rw [← Network.parent?_of_item? hitem, hshape.parent?, Network.parent?_of_item? hstored]
    simp only [Edit.applyTo, hsame]
  have hcheck' : e.touches .parent = true → net'.checkParent (e.applyTo item) = .ok () := by
    intro ht
    refine Network.checkParent_eq_ok.mpr fun parent hp => ?_
    obtain ⟨hc, hin⟩ := Network.checkParent_eq_ok.mp (hcheck ht) parent (hparent ▸ hp)
    exact ⟨(hshape.contains parent).trans hc,
      fun hback => hin (hshape.reflTransGen_iff.mp (hid ▸ hback))⟩
  have hpass' := Network.pass?_eq_ok.mpr ⟨hblank, item, hitem, hcheck', rfl⟩
  exact ⟨_, _, Network.commit_eq_ok.mpr ⟨item, Network.root?_eq_ok.mpr ⟨hblank, hitem⟩,
    Network.reflow_eq_ok.mpr ⟨_, hpass', rfl⟩, rfl⟩⟩

namespace Network
variable {net between direct : Network} {settings : Settings} {e₁ e₂ : Edit} {o₁ o₂ : Outcome}
  {start₁ due₁ start₂ due₂ : Date} {stored item : Item}

/-- After a commit of earlier days, the pass of a second edit leads on from a detour. -/
theorem detour_of_commit (hd : net.Dated) (hs : net.SelfFree) (he₁ : e₁.ProposesDates start₁ due₁)
    (he₂ : e₂.ProposesDates start₂ due₂) (hid : e₁.id = e₂.id) (hstart : start₁ ≤ start₂)
    (hdue : due₁ ≤ due₂) (hhold : settings.policy = .hold)
    (h₁ : net.commit settings e₁ = .ok (between, o₁)) (hstored : net.item? e₂.id = some stored)
    (hitem : between.item? e₂.id = some item) :
    (Pass.prepare between e₂ item).Detour (Pass.prepare net e₂ stored) := by
  have hshape : SameShape between net := sameShape_of_commit (by rw [he₁.proposed]) h₁
  have hdirect := he₂.keepsDates.steady hstored hd hs
  have honward := he₂.keepsDates.steady hitem (dated_commit he₁ h₁ hd) (hs.sameShape hshape)
  have hroot : (Pass.prepare between e₂ item).root.id = (Pass.prepare net e₂ stored).root.id := by
    rw [Pass.id_root_prepare hitem, Pass.id_root_prepare hstored]
  have hspan : (Pass.prepare between e₂ item).root.span = (Pass.prepare net e₂ stored).root.span := by
    rw [he₂.root_eq, he₂.root_eq]
    rfl
  cases ht₁ : e₁.touched.isEmpty with
  | true =>
    obtain ⟨_, _, hspan₁⟩ := span?_commit_of_untouched h₁ ht₁
    refine honward.detour hdirect hshape hroot hspan fun x hx => ?_
    rw [Pass.id_root_prepare hstored, ← hid] at hx
    exact (hspan₁ x).trans (if_neg hx)
  | false =>
    obtain ⟨stored', hstored', hc₁⟩ := carriedOut_prepare h₁ ht₁
    obtain rfl : stored = stored' := Option.some.inj (hstored.symm.trans (hid ▸ hstored'))
    have hnoLater := he₁.noLater_prepare he₂ hid hstart hdue hstored'
    exact hnoLater.detour (he₁.keepsDates.steady hstored' hd hs) hdirect honward (hhold ▸ hc₁)
      hroot hspan

/-- **It does not matter which way a root goes** if items are held: after one commit of earlier days,
another one leaves all items on the days that it alone leaves them on, provided that it touches an
attribute or the first one touches none. -/
theorem span?_of_commits (hd : net.Dated) (hs : net.SelfFree) (he₁ : e₁.ProposesDates start₁ due₁)
    (he₂ : e₂.ProposesDates start₂ due₂) (hid : e₁.id = e₂.id) (hstart : start₁ ≤ start₂)
    (hdue : due₁ ≤ due₂) (ht : e₂.touched.isEmpty = true → e₁.touched.isEmpty = true)
    (hhold : settings.policy = .hold) (h₁ : net.commit settings e₁ = .ok (between, o₁))
    (h₂ : net.commit settings e₂ = .ok (direct, o₂)) :
    ∃ after o, between.commit settings e₂ = .ok (after, o) ∧
      ∀ x, after.span? x = direct.span? x := by
  have hshape : SameShape between net := sameShape_of_commit (by rw [he₁.proposed]) h₁
  obtain ⟨after, o, hafter⟩ := hshape.exists_commit h₂
  refine ⟨after, o, hafter, fun x => ?_⟩
  cases ht₂ : e₂.touched.isEmpty with
  | true =>
    obtain ⟨_, _, hspan₁⟩ := span?_commit_of_untouched h₁ (ht ht₂)
    obtain ⟨_, _, hspan₂⟩ := span?_commit_of_untouched h₂ ht₂
    obtain ⟨_, _, hspan⟩ := span?_commit_of_untouched hafter ht₂
    rw [hspan, hspan₂, he₂.applyTo_eq, he₂.applyTo_eq, hspan₁, hid]
    by_cases hx : x = e₂.id
    · simp only [if_pos hx]
      rfl
    · simp only [if_neg hx]
  | false =>
    obtain ⟨stored, hstored, hc₂⟩ := carriedOut_prepare h₂ ht₂
    obtain ⟨item, hitem, hc⟩ := carriedOut_prepare hafter ht₂
    have hdetour := detour_of_commit hd hs he₁ he₂ hid hstart hdue hhold h₁ hstored hitem
    rw [hc.span?_eq_heldDays hhold, hc₂.span?_eq_heldDays hhold]
    exact hdetour.heldDays_eq x

end Network

theorem sameDays_pourOn_nine :
    (pourAndFrame 4 8).Dated ∧ (pourAndFrame 4 8).SelfFree ∧
      (pourAndFrame 4 8).commit { policy := .hold } (pourOn 7) =
        .ok (pourAndFrame 7 9, framedOn 9 3) ∧
      (pourAndFrame 4 8).commit { policy := .hold } (pourOn 9) =
        .ok (pourAndFrame 9 11, framedOn 11 5) ∧
      ∃ after o, (pourAndFrame 7 9).commit { policy := .hold } (pourOn 9) = .ok (after, o) ∧
        ∀ x, after.span? x = (pourAndFrame 9 11).span? x := by
  have hdated := dated_pourAndFrame 4 8
  have hdirect : (pourAndFrame 4 8).commit { policy := .hold } (pourOn 9) =
      .ok (pourAndFrame 9 11, framedOn 11 5) := by decide +kernel
  exact ⟨hdated, selfFree_pourAndFrame, commit_pourOn_seven, hdirect,
    Network.span?_of_commits hdated selfFree_pourAndFrame (proposesDates_pourOn 7)
      (proposesDates_pourOn 9) rfl (by decide) (by decide) (fun h => h) rfl commit_pourOn_seven hdirect⟩

/-- On the way the pour puts framing off by one day. A last step without a touched attribute leaves it
there, and alone it would leave it where it was. -/
theorem frame_put_off_on_the_way :
    (pourAndFrame 4 8).Dated ∧ (pourAndFrame 4 8).SelfFree ∧
      (pourOn 7).ProposesDates (.clamp 7) (.clamp 8) ∧
      (silentPourOn 8).ProposesDates (.clamp 8) (.clamp 9) ∧
      (pourAndFrame 4 8).commit { policy := .hold } (pourOn 7) =
        .ok (pourAndFrame 7 9, framedOn 9 3) ∧
      (pourAndFrame 4 8).commit { policy := .hold } (silentPourOn 8) = .ok (pourAndFrame 8 8, {}) ∧
      ¬ ∃ after o, (pourAndFrame 7 9).commit { policy := .hold } (silentPourOn 8) = .ok (after, o) ∧
        ∀ x, after.span? x = (pourAndFrame 8 8).span? x := by
  refine ⟨dated_pourAndFrame 4 8, selfFree_pourAndFrame, proposesDates_pourOn 7,
    proposesDates_silentPourOn 8, commit_pourOn_seven, by decide +kernel, ?_⟩
  intro hsame
  obtain ⟨after, o, hafter, hspan⟩ := hsame
  have hcommit : (pourAndFrame 7 9).commit { policy := .hold } (silentPourOn 8) =
      .ok (pourAndFrame 8 9, {}) := by decide +kernel
  obtain ⟨rfl, _⟩ := Prod.mk.inj (Except.ok.inj (hcommit.symm.trans hafter))
  exact absurd (hspan ⟨"frame"⟩) (by decide +kernel)

end WorkPlan
