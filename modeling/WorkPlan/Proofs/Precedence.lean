import WorkPlan.Proofs.Commit

/-! # Which items keep behind their predecessors

An item keeps its bound if its start, when it has one, is not before the soonest start that the
network asks of it. A pass brings every item that it computes behind the bound that stands in the end
(`CarriedOut.keepsBound_of_mem_order`). It leaves out no item whose bound can have moved: of an item
that is no follower, and that the root does not contain, no binding predecessor is met at all
(`Ready.not_met_of_binding`). -/

namespace WorkPlan
open Relation

/-- Whether an item that has a start starts no earlier than its soonest start. -/
def Network.KeepsBound (net : Network) (x : ItemId) : Prop :=
  ∀ start ∈ (net.span? x).bind Span.start, ∀ bound ∈ net.soonestStart x, bound ≤ start

instance (net : Network) (x : ItemId) : Decidable (net.KeepsBound x) :=
  inferInstanceAs (Decidable (∀ start ∈ (net.span? x).bind Span.start,
    ∀ bound ∈ net.soonestStart x, bound ≤ start))

theorem Network.keepsBound_iff {net : Network} {x : ItemId} {span : Span}
    (h : net.span? x = some span) :
    net.KeepsBound x ↔ ∀ d, span.start = some d → Date.Within (net.soonestStart x) (some d) := by
  rw [KeepsBound, h]
  refine forall_congr' fun d => imp_congr Iff.rfl ?_
  cases net.soonestStart x with
  | none => simp [Date.Within]
  | some b => simp [Date.Within]

theorem Network.KeepsBound.congr {net net' : Network} {x : ItemId} (h : net.KeepsBound x)
    (hs : net'.span? x = net.span? x) (hb : net'.soonestStart x = net.soonestStart x) :
    net'.KeepsBound x := by
  rw [KeepsBound, hs, hb]
  exact h

/-- A child that keeps its own bound keeps that of its parent. -/
theorem Network.KeepsBound.within_of_inside {net : Network} {x y : ItemId} {span : Span} {d : Date}
    (h : net.KeepsBound x) (hin : net.Inside x y) (hspan : net.span? x = some span)
    (hd : span.start = some d) : Date.Within (net.soonestStart y) (some d) :=
  (soonestStart_within_of_inside hin).trans ((keepsBound_iff hspan).mp h d hd)

namespace Pass

/-! ## Items away from the root -/

namespace Ready
variable {p : Pass} {former : Option ItemId} {x y : ItemId} {l : Link} (hp : p.Ready former)
include hp

theorem mem_roles_of_mem_order (h : x ∈ p.agenda.order) : x ∈ p.agenda.roles := by
  rw [hp.agenda] at h ⊢
  exact Agenda.mem_order_or_cyclic.mp (Or.inl h)

theorem mem_order_of_mem_roles (h : x ∈ p.agenda.roles) (hc : x ∉ p.agenda.cyclic) :
    x ∈ p.agenda.order := by
  rw [hp.agenda] at h hc ⊢
  exact (Agenda.mem_order_or_cyclic.mpr h).resolve_right hc

theorem exists_meets (h : x = p.root.id ∨ x ∈ p.agenda.roles) :
    ∃ role, p.working.Meets p.root.id former ⟨x, role⟩ := by
  rcases h with rfl | hr
  · exact ⟨.ancestor, Network.meets_root⟩
  · rw [hp.agenda] at hr
    exact ((Agenda.mem_roles hp.contains_root).mp hr).2

omit hp in
/-- If no parent was left behind, an ordered item without children is a follower. -/
theorem follower_of_childless (hp : p.Ready none) (ho : x ∈ p.agenda.order)
    (hc : p.working.hasChildren x = false) : p.agenda.roles[x]? = some .follower := by
  have hne := hp.ne_root_of_mem_order ho
  obtain ⟨role, hm⟩ := hp.exists_meets (Or.inr (hp.mem_roles_of_mem_order ho))
  cases role with
  | ancestor => exact absurd (hm.hasChildren rfl hne) (by simp [hc])
  | follower =>
    rw [hp.agenda]
    exact (Agenda.roles_eq_follower hp.contains_root).mpr ⟨hne, hm⟩

theorem inside_working (hx : x ≠ p.root.id) : p.working.Inside x y ↔ p.before.Inside x y := by
  refine Network.inside_congr ?_ hp.contains_working
  rw [hp.working, Network.parent?_insert, if_neg (Ne.symm hx)]

theorem mem_bindingLinks_working (hx : ¬ ReflTransGen p.working.Inside x p.root.id) :
    l ∈ p.working.bindingLinks x ↔ l ∈ p.before.bindingLinks x := by
  refine Network.mem_bindingLinks_congr (fun _ => by rw [hp.working, Network.links_insert]) ?_
  intro y hxy z
  exact hp.inside_working fun he => hx (he ▸ hxy)

/-- An item that waits for the root, or for an item that is met, is met as a follower. -/
theorem follower_of_predecessor (hl : l ∈ p.working.bindingLinks x)
    (hc : p.working.contains x = true) (hx : ¬ ReflTransGen p.working.Inside x p.root.id)
    (hm : l.predecessor = p.root.id ∨ l.predecessor ∈ p.agenda.roles) :
    p.agenda.roles[x]? = some .follower := by
  have hne : x ≠ p.root.id := fun he => hx (he ▸ .refl)
  obtain ⟨role, hrole⟩ := hp.exists_meets hm
  rw [hp.agenda]
  exact (Agenda.roles_eq_follower hp.contains_root).mpr
    ⟨hne, Network.meets_follower_of_predecessor hrole hl hc hx⟩

theorem not_met_of_binding (hl : l ∈ p.working.bindingLinks x)
    (hc : p.working.contains x = true) (hx : ¬ ReflTransGen p.working.Inside x p.root.id)
    (hf : p.agenda.roles[x]? ≠ some .follower) :
    l.predecessor ≠ p.root.id ∧ l.predecessor ∉ p.agenda.roles :=
  not_or.mp fun hm => hf (hp.follower_of_predecessor hl hc hx hm)

end Ready

/-! ## Bounds once the pass is carried out -/

namespace CarriedOut
variable {p : Pass} {policy : PullPolicy} {after : Network} {former : Option ItemId} {x : ItemId}
  (hc : p.CarriedOut policy after) (hp : p.Ready former)
include hc hp

theorem span?_of_not_mem_order (hx : x ≠ p.root.id) (h : x ∉ p.agenda.order) :
    after.span? x = p.before.span? x :=
  (hc.finalDays hp).unordered x hx h

theorem span?_of_not_follower (ho : x ∈ p.agenda.order) (hleaf : after.hasChildren x = false)
    (hr : p.agenda.roles[x]? ≠ some .follower) : after.span? x = p.before.span? x := by
  obtain ⟨role, hrole⟩ := Option.isSome_iff_exists.mp
    (Std.ExtTreeMap.mem_iff_isSome_getElem?.mp (hp.mem_roles_of_mem_order ho))
  cases role with
  | ancestor => exact (hc.finalDays hp).ancestor x ho (hc.hasChildren ▸ hleaf) hrole
  | follower => exact absurd hrole hr

section
variable (ho : x ∈ p.agenda.order) (hself : ∀ l ∈ after.bindingLinks x, l.predecessor ≠ x)
include ho hself

/-- An ordered item with children has, once the pass is carried out, the hull of their days behind the
bound that it has then. -/
theorem span?_parent (hchildren : after.hasChildren x = true) :
    after.span? x = some ((Span.hull ((after.childrenOf x).filterMap after.span?)).notBefore
      (after.soonestStart x)) := by
  rw [hc.childrenOf, ← hc.soonestStart hp hself]
  exact (hc.finalDays hp).parent x ho (hc.hasChildren ▸ hchildren)

/-- A follower without children yields, once the pass is carried out, to the bound that it has then. -/
theorem span?_follower (hleaf : after.hasChildren x = false)
    (hr : p.agenda.roles[x]? = some .follower) : ∃ stored, p.before.span? x = some stored ∧
      after.span? x = some (stored.yieldTo (after.soonestStart x) (policy.pull
        ((after.bindingLinks x).map fun l => p.before.driftTo after.span? l.predecessor))) := by
  obtain ⟨stored, hstored, hdays⟩ := (hc.finalDays hp).follower x ho (hc.hasChildren ▸ hleaf) hr
  refine ⟨stored, hstored, ?_⟩
  have hmoves : (p.working.bindingLinks x).map (fun l =>
        p.before.driftTo (p.before.seenBy after.span? x) l.predecessor) =
      (p.working.bindingLinks x).map fun l => p.before.driftTo after.span? l.predecessor := by
    refine List.map_congr_left fun l hl => Network.driftTo_congr ?_
    rw [Network.seenBy, if_neg (hself l ((hc.mem_bindingLinks hp).mpr hl))]
  have hpull : policy.pull ((p.working.bindingLinks x).map fun l =>
        p.before.driftTo after.span? l.predecessor) =
      policy.pull ((after.bindingLinks x).map fun l =>
        p.before.driftTo after.span? l.predecessor) := by
    refine PullPolicy.pull_congr fun n => ?_
    simp only [List.mem_map, hc.mem_bindingLinks hp]
  rw [hdays, hc.soonestStart hp hself, hmoves, hpull]

end

theorem keepsBound_of_mem_order (ho : x ∈ p.agenda.order)
    (hr : p.agenda.roles[x]? = some .follower ∨ p.working.hasChildren x = true)
    (hself : ∀ l ∈ after.bindingLinks x, l.predecessor ≠ x) : after.KeepsBound x := by
  intro start hstart bound hbound
  rw [← hc.hasChildren] at hr
  cases hchildren : after.hasChildren x with
  | true =>
    rw [hc.span?_parent hp ho hself hchildren] at hstart
    exact Span.start_notBefore hstart hbound
  | false =>
    rw [hchildren] at hr
    obtain ⟨stored, _, hdays⟩ :=
      hc.span?_follower hp ho hself hchildren (hr.resolve_right Bool.false_ne_true)
    rw [hdays] at hstart
    exact Span.start_yieldTo hstart hbound

/-- Neither the links that bind an item nor the days of their predecessors have changed, if the root
does not contain the item and the item is no follower. -/
theorem soonestStart_of_not_follower (hx : ¬ ReflTransGen p.working.Inside x p.root.id)
    (hf : p.agenda.roles[x]? ≠ some .follower) (hin : p.working.contains x = true) :
    after.soonestStart x = p.before.soonestStart x := by
  refine Network.soonestStartBy_congr
    (fun l => (hc.mem_bindingLinks hp).trans (hp.mem_bindingLinks_working hx)) fun l hl => ?_
  obtain ⟨hroot, hroles⟩ :=
    hp.not_met_of_binding ((hc.mem_bindingLinks hp).mp hl) hin hx hf
  exact hc.span?_of_not_mem_order hp hroot fun ho => hroles (hp.mem_roles_of_mem_order ho)

theorem keepsBound_of_not_inside (hx : ¬ ReflTransGen p.working.Inside x p.root.id)
    (hcyclic : x ∉ p.agenda.cyclic) (hself : ∀ l ∈ after.bindingLinks x, l.predecessor ≠ x)
    (h : p.before.KeepsBound x) : after.KeepsBound x := by
  have hne : x ≠ p.root.id := fun he => hx (he ▸ .refl)
  cases hin : p.working.contains x with
  | false =>
    rw [← hc.contains hp, Network.contains_eq_isSome_span?, Option.isSome_eq_false_iff,
      Option.isNone_iff_eq_none] at hin
    rw [Network.KeepsBound, hin]
    simp
  | true =>
    by_cases ho : x ∈ p.agenda.order
    · by_cases hr : p.agenda.roles[x]? = some .follower ∨ p.working.hasChildren x = true
      · exact hc.keepsBound_of_mem_order hp ho hr hself
      · obtain ⟨hf, hchildren⟩ := not_or.mp hr
        have hleaf := hc.hasChildren.trans (Bool.eq_false_iff.mpr hchildren)
        exact h.congr (hc.span?_of_not_follower hp ho hleaf hf)
          (hc.soonestStart_of_not_follower hp hx hf hin)
    · have hf : p.agenda.roles[x]? ≠ some .follower := fun hf =>
        ho (hp.mem_order_of_mem_roles
          (Std.ExtTreeMap.mem_iff_isSome_getElem?.mpr (Option.isSome_of_eq_some hf)) hcyclic)
      exact h.congr (hc.span?_of_not_mem_order hp hne ho)
        (hc.soonestStart_of_not_follower hp hx hf hin)

end CarriedOut

/-- The only cycle that a pass reports is made of all items that are stuck. -/
theorem Ready.cycle_mem_issues {p : Pass} {former : Option ItemId} {settings : Settings}
    {items : List ItemId} (hp : p.Ready former) :
    .cycle items ∈ (p.outcome settings).issues ↔
      p.agenda.cyclic ≠ [] ∧ items = p.agenda.cyclic := by
  have hmet : .cycle items ∉ p.agenda.issues := by
    rw [hp.agenda]
    simp [Agenda.ofChange, Network.issuesAt]
  rw [mem_issues_outcome, mem_issues]
  simp [hmet]

end Pass

/-- **No commit brings an item before its predecessors.** What the pass computed keeps its bound, and
so does any item that kept it before, unless the root now contains it. -/
theorem Network.keepsBound_commit {net after : Network} {settings : Settings} {e : Edit}
    {o : Outcome} {x : ItemId} (h : net.commit settings e = .ok (after, o))
    (ht : e.touched.isEmpty = false) (hx : x ≠ e.id)
    (hcyclic : ∀ items, .cycle items ∈ o.issues → x ∉ items)
    (hself : ∀ l ∈ after.bindingLinks x, l.predecessor ≠ x) :
    (∀ p, net.pass? e = .ok p → x ∈ p.agenda.order →
      p.agenda.roles[x]? = some .follower ∨ after.hasChildren x = true → after.KeepsBound x) ∧
    (e.id ∉ after.ancestors x → net.KeepsBound x → after.KeepsBound x) := by
  obtain ⟨p, hpass, hbefore, hroot, ⟨former, hp⟩, rfl, hc⟩ := Pass.carriedOut_of_commit h ht
  constructor
  · intro q hq ho hr
    obtain rfl : p = q := Except.ok.inj (hpass.symm.trans hq)
    rw [hc.hasChildren] at hr
    exact hc.keepsBound_of_mem_order hp ho hr hself
  · intro hancestor hkept
    rw [not_mem_ancestors hx, hc.reflTransGen_iff hp, ← hroot] at hancestor
    rw [← hbefore] at hkept
    have hx : x ∉ p.agenda.cyclic := fun hx =>
      hcyclic _ (hp.cycle_mem_issues.mpr ⟨List.ne_nil_of_mem hx, rfl⟩) hx
    exact hc.keepsBound_of_not_inside hp hancestor hx hself hkept

def laterShellPlan : Network := .ofLists
  [{ id := ⟨"frame"⟩, start := Date.ofDay? 10, due := Date.ofDay? 12, parent := some ⟨"shell"⟩ },
    { id := ⟨"pour"⟩, due := Date.ofDay? 9 },
    { id := ⟨"shell"⟩, start := Date.ofDay? 10, due := Date.ofDay? 12 }]
  shellLinks

theorem commit_shellPlan : shellPlan.commit {} pourLater = .ok (laterShellPlan, shellLater) := by
  decide +kernel

theorem keepsBound_frame :
    (∃ p, shellPlan.pass? pourLater = .ok p ∧ ⟨"frame"⟩ ∈ p.agenda.order ∧
      p.agenda.roles[ItemId.mk "frame"]? = some .follower ∧
      laterShellPlan.KeepsBound ⟨"frame"⟩) ∧
    pourLater.id ∉ laterShellPlan.ancestors ⟨"frame"⟩ ∧ shellPlan.KeepsBound ⟨"frame"⟩ ∧
      laterShellPlan.KeepsBound ⟨"frame"⟩ := by
  obtain ⟨hcomputed, hkept⟩ := Network.keepsBound_commit (x := ⟨"frame"⟩) commit_shellPlan rfl
    (by decide) (fun _ h => by cases h) (by decide +kernel)
  have hancestor : pourLater.id ∉ laterShellPlan.ancestors ⟨"frame"⟩ := by decide +kernel
  have hbefore : shellPlan.KeepsBound ⟨"frame"⟩ := by decide +kernel
  refine ⟨?_, hancestor, hbefore, hkept hancestor hbefore⟩
  have hpass : shellPlan.pass? pourLater = .ok (Pass.prepare shellPlan pourLater
      { id := ⟨"pour"⟩, due := Date.ofDay? 5 }) :=
    Network.pass?_eq_ok.mpr ⟨by decide +kernel, _, by decide +kernel, by decide +kernel, rfl⟩
  have horder : ⟨"frame"⟩ ∈ (Pass.prepare shellPlan pourLater
      { id := ⟨"pour"⟩, due := Date.ofDay? 5 }).agenda.order := by decide +kernel
  have hrole : (Pass.prepare shellPlan pourLater
      { id := ⟨"pour"⟩, due := Date.ofDay? 5 }).agenda.roles[ItemId.mk "frame"]? =
        some .follower := by decide +kernel
  exact ⟨_, hpass, horder, hrole, hcomputed _ hpass horder (Or.inl hrole)⟩

end WorkPlan
