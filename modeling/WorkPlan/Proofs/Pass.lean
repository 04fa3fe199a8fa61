import WorkPlan.Reflow
import WorkPlan.Proofs.Agenda
import WorkPlan.Proofs.Bounds

/-! # What a pass settles

Each step settles one item and leaves the others alone, and an item reads nothing but its
dependencies (`spanFor_congr`). What it reads of them in the middle of a pass is what stands at the
end, because the agenda puts them before it or leaves them out; of its own days it reads the stored
ones (`Ready.settled_ordered`). So what holds of the dependencies of an item passes on to the item
(`Ready.settled_induct`). -/

namespace WorkPlan
open Relation

namespace Settled
variable {s : Settled} {net : Network} {id k : ItemId}

theorem getElem?_settle {span : Span} : (s.settle id span).spans[k]? =
    if id = k ∧ s.spans[k]? = none then some span else s.spans[k]? := by
  simp only [settle, Std.ExtTreeMap.getElem?_insertIfNew, Std.compare_eq_iff_eq]
  by_cases hid : id = k
  · rw [hid]
    simp only [Std.ExtTreeMap.mem_iff_isSome_getElem?, Option.not_isSome_iff_eq_none]
  · simp only [hid, false_and]

theorem span?_of_settled {span : Span} (h : s.spans[k]? = some span) : s.span? net k = some span := by
  rw [span?, h]; rfl

theorem span?_of_unsettled (h : s.spans[k]? = none) : s.span? net k = net.span? k := by
  rw [span?, h]; rfl

theorem span?_congr {t : Settled} (h : s.spans[k]? = t.spans[k]?) : s.span? net k = t.span? net k := by
  rw [span?, span?, h]

theorem drift_congr {t : Settled} (h : s.spans[k]? = t.spans[k]?) : s.drift net k = t.drift net k := by
  rw [drift, drift, h]

def without (s : Settled) (id : ItemId) : Settled := ⟨s.spans.erase id⟩

theorem getElem?_without : (s.without id).spans[k]? = if id = k then none else s.spans[k]? := by
  simp only [without, Std.ExtTreeMap.getElem?_erase, Std.compare_eq_iff_eq]

end Settled

namespace Pass
variable {p : Pass} {policy : PullPolicy} {s t : Settled} {x k : ItemId} {item : Item}

/-! ## One step -/

theorem step_of_item? (h : p.working.item? x = some item) :
    p.step policy s x = s.settle x (p.spanFor policy s item) := by
  rw [step, h]

theorem getElem?_step_of_ne (h : x ≠ k) : (p.step policy s x).spans[k]? = s.spans[k]? := by
  rw [step]
  split
  · rw [Settled.getElem?_settle, if_neg fun hk => h hk.1]
  · rfl

theorem getElem?_foldl_step_of_not_mem {ids : List ItemId} (h : k ∉ ids) :
    (ids.foldl (p.step policy) s).spans[k]? = s.spans[k]? := by
  induction ids generalizing s with
  | nil => rfl
  | cons id rest ih =>
    obtain ⟨hne, hrest⟩ := not_or.mp (mt List.mem_cons.mpr h)
    rw [List.foldl_cons, ih hrest, getElem?_step_of_ne (Ne.symm hne)]

/-- The span of an item is told by what is settled of its dependencies. -/
theorem spanFor_congr (h : ∀ y ∈ p.working.dependencies item.id, s.spans[y]? = t.spans[y]?) :
    p.spanFor policy s item = p.spanFor policy t item := by
  have hlink : ∀ l ∈ p.working.bindingLinks item.id,
      s.spans[l.predecessor]? = t.spans[l.predecessor]? := fun l hl =>
    h _ (Network.predecessor_mem_dependencies hl)
  have hsoonest : p.working.soonestStartBy (s.span? p.working) item.id =
      p.working.soonestStartBy (t.span? p.working) item.id :=
    Network.soonestStartBy_congr (fun _ => Iff.rfl) fun l hl => Settled.span?_congr (hlink l hl)
  have hchildren : (p.working.childrenOf item.id).filterMap (s.span? p.working) =
      (p.working.childrenOf item.id).filterMap (t.span? p.working) :=
    List.filterMap_congr fun c hc => Settled.span?_congr (h c (Network.child_mem_dependencies hc))
  have hmoves : ((p.working.bindingLinks item.id).map fun l => s.drift p.before l.predecessor) =
      (p.working.bindingLinks item.id).map fun l => t.drift p.before l.predecessor :=
    List.map_congr_left fun l hl => Settled.drift_congr (hlink l hl)
  simp only [spanFor, hsoonest, hchildren, hmoves]

/-! ## A whole pass -/

/-- What preparing a pass makes sure of. -/
structure Ready (p : Pass) (former : Option ItemId) : Prop where
  stored : p.before.item? p.root.id = some p.stored
  working : p.working = p.before.insert p.root
  agenda : p.agenda = Agenda.ofChange p.working p.root.id former

theorem id_seed (net : Network) (e : Edit) (applied : Item) :
    (seed net e applied).id = applied.id := by
  unfold seed
  split
  · split
    · unfold Item.adopt
      split <;> rfl
    · rfl
  · rfl

theorem parent_seed (net : Network) (e : Edit) (applied : Item) :
    (seed net e applied).parent = applied.parent := by
  unfold seed
  split
  · split
    · unfold Item.adopt
      split <;> rfl
    · rfl
  · rfl

theorem id_root_prepare {net : Network} {e : Edit} {stored : Item}
    (h : net.item? e.id = some stored) : (prepare net e stored).root.id = e.id := by
  rw [← Network.id_of_item? h]
  exact id_seed net e (e.applyTo stored)

theorem ready_prepare {net : Network} {e : Edit} {stored : Item}
    (h : net.item? e.id = some stored) :
    (prepare net e stored).Ready (formerParent e stored (e.applyTo stored)) where
  stored := by rw [id_root_prepare h]; exact h
  working := rfl
  agenda := rfl

namespace Ready
variable {former : Option ItemId} (hp : p.Ready former)
include hp

theorem contains_working : p.working.contains x = p.before.contains x := by
  rw [hp.working]
  exact Network.contains_insert (Network.contains_iff.mpr ⟨_, hp.stored⟩)

theorem contains_root : p.working.contains p.root.id = true := by
  rw [hp.contains_working]
  exact Network.contains_iff.mpr ⟨_, hp.stored⟩

theorem span?_working (h : x ≠ p.root.id) : p.working.span? x = p.before.span? x := by
  rw [hp.working, Network.span?_insert, if_neg (Ne.symm h)]

theorem contains_of_mem_order (h : x ∈ p.agenda.order) : p.working.contains x = true := by
  rw [hp.agenda] at h
  exact Agenda.contains_of_mem_roles hp.contains_root (Agenda.mem_order_or_cyclic.mp (Or.inl h))

theorem ne_root_of_mem_order (h : x ∈ p.agenda.order) : x ≠ p.root.id := by
  rintro rfl
  rw [hp.agenda] at h
  exact Agenda.root_not_mem_order h

theorem settled_root : (p.settled policy).spans[p.root.id]? = some p.root.span := by
  rw [settled, getElem?_foldl_step_of_not_mem fun h => hp.ne_root_of_mem_order h rfl,
    Settled.getElem?_settle, if_pos ⟨rfl, Std.ExtTreeMap.getElem?_empty⟩]

omit hp in
theorem settled_of_not_mem_order (hx : x ≠ p.root.id) (h : x ∉ p.agenda.order) :
    (p.settled policy).spans[x]? = none := by
  rw [settled, getElem?_foldl_step_of_not_mem h, Settled.getElem?_settle,
    if_neg fun hk => hx hk.1.symm]
  exact Std.ExtTreeMap.getElem?_empty

theorem contains_of_mem_settled {span : Span} (h : (p.settled policy).spans[x]? = some span) :
    p.working.contains x = true := by
  by_cases hx : x = p.root.id
  · rw [hx]; exact hp.contains_root
  · by_cases ho : x ∈ p.agenda.order
    · exact hp.contains_of_mem_order ho
    · rw [settled_of_not_mem_order hx ho] at h
      cases h

/-- **An ordered item is settled from the final days of the others.** When its turn comes, each of
its dependencies but itself is settled already or never will be. -/
theorem settled_ordered (hx : x ∈ p.agenda.order) (hi : p.working.item? x = some item) :
    (p.settled policy).spans[x]? =
      some (p.spanFor policy ((p.settled policy).without x) item) := by
  obtain ⟨before, after, horder⟩ := List.append_of_mem hx
  have hroot := hp.ne_root_of_mem_order hx
  have hnodup : (before ++ x :: after).Nodup := by
    rw [← horder, hp.agenda]; exact Agenda.nodup_order
  obtain ⟨_, hafter, hdisjoint⟩ := List.nodup_append.mp hnodup
  have hxbefore : x ∉ before := fun h => hdisjoint x h x List.mem_cons_self rfl
  have hxafter : x ∉ after := (List.nodup_cons.mp hafter).1
  generalize hm : before.foldl (p.step policy) ((⟨∅⟩ : Settled).settle p.root.id p.root.span) = mid
  have hfinal : p.settled policy = after.foldl (p.step policy) (p.step policy mid x) := by
    rw [settled, horder, List.foldl_append, List.foldl_cons, hm]
  have hmid : mid.spans[x]? = none := by
    rw [← hm, getElem?_foldl_step_of_not_mem hxbefore, Settled.getElem?_settle,
      if_neg fun hk => hroot hk.1.symm]
    exact Std.ExtTreeMap.getElem?_empty
  have hself : (p.settled policy).spans[x]? = some (p.spanFor policy mid item) := by
    rw [hfinal, getElem?_foldl_step_of_not_mem hxafter, step_of_item? hi, Settled.getElem?_settle,
      if_pos ⟨rfl, hmid⟩]
  rw [hself]
  refine congrArg some (spanFor_congr fun y hy => ?_)
  rw [Settled.getElem?_without]
  split
  · rename_i hxy
    rw [← hxy, hmid]
  · rename_i hxy
    -- a dependency that comes later would be concerned, and then the order puts it first
    have hyafter : y ∉ after := by
      intro hya
      have hyorder : y ∈ p.agenda.order := by rw [horder]; simp [hya]
      rw [hp.agenda] at hyorder horder
      rw [Network.id_of_item? hi] at hy
      have hbefore := Agenda.dependency_before horder hy (Ne.symm hxy)
        (Agenda.mem_order_or_cyclic.mp (Or.inl hyorder))
      exact hdisjoint y hbefore y (List.mem_cons_of_mem _ hya) rfl
    rw [hfinal, getElem?_foldl_step_of_not_mem hyafter, getElem?_step_of_ne hxy]

/-- What passes from the other dependencies of an ordered item to the item, and holds out of order, holds
of all items. -/
theorem induct {P : ItemId → Prop} (hrest : ∀ x, x ∉ p.agenda.order → P x)
    (hstep : ∀ x ∈ p.agenda.order, (∀ y ∈ p.working.dependencies x, y ≠ x → P y) → P x)
    (x : ItemId) : P x := by
  rw [hp.agenda] at hrest hstep
  exact Agenda.induct hrest hstep x

/-- What holds of the root and of all that is not in order, and passes from the dependencies of an
ordered item to the item, holds of all that a pass settles. -/
theorem settled_induct {P : ItemId → Option Span → Prop}
    (hroot : P p.root.id (some p.root.span))
    (hrest : ∀ x, x ≠ p.root.id → x ∉ p.agenda.order → P x none)
    (hstep : ∀ x ∈ p.agenda.order, ∀ item, p.working.item? x = some item →
      (∀ y ∈ p.working.dependencies item.id, y ≠ x → P y (p.settled policy).spans[y]?) →
      P x (some (p.spanFor policy ((p.settled policy).without x) item))) (x : ItemId) :
    P x (p.settled policy).spans[x]? := by
  refine hp.induct (P := fun x => P x (p.settled policy).spans[x]?) ?_ ?_ x
  · intro y hy
    by_cases he : y = p.root.id
    · rw [he, hp.settled_root]
      exact hroot
    · rw [settled_of_not_mem_order he hy]
      exact hrest y he hy
  · intro y hy ih
    obtain ⟨item, hi⟩ := Network.contains_iff.mp (hp.contains_of_mem_order hy)
    rw [hp.settled_ordered hy hi]
    refine hstep y hy item hi ?_
    rw [Network.id_of_item? hi]
    exact ih

end Ready

end Pass

/-! ## From an edit to its outcome -/

theorem bind_eq_ok {α β : Type} {x : Except EditError α} {f : α → Except EditError β} {b : β} :
    (x >>= f) = .ok b ↔ ∃ a, x = .ok a ∧ f a = .ok b := by
  cases x <;> simp [bind, Except.bind]

namespace Network
variable {net : Network} {e : Edit}

theorem root?_eq_ok {stored : Item} :
    net.root? e = .ok stored ↔ e.id.isBlank = false ∧ net.item? e.id = some stored := by
  rw [root?]
  split
  · rename_i hblank
    simp [hblank]
  · rename_i hblank
    split <;> rename_i hitem <;> simp [hblank, hitem]

theorem pass?_eq_ok {p : Pass} : net.pass? e = .ok p ↔
    e.id.isBlank = false ∧ ∃ stored, net.item? e.id = some stored ∧
      (e.touches .parent = true → net.checkParent (e.applyTo stored) = .ok ()) ∧
      Pass.prepare net e stored = p := by
  rw [pass?, bind_eq_ok]
  simp only [root?_eq_ok, and_assoc, exists_and_left]
  refine and_congr_right fun _ => exists_congr fun stored => and_congr_right fun _ => ?_
  split
  · rename_i ht
    refine bind_eq_ok.trans ⟨?_, ?_⟩
    · rintro ⟨⟨⟩, hc, hp⟩
      exact ⟨fun _ => hc, Except.ok.inj hp⟩
    · rintro ⟨hc, rfl⟩
      exact ⟨(), hc ht, rfl⟩
  · rename_i ht
    simp [pure, Except.pure, ht]

theorem reflow_eq_ok {settings : Settings} {o : Outcome} : net.reflow settings e = .ok o ↔
    ∃ p, net.pass? e = .ok p ∧ (if e.touched.isEmpty then {} else p.outcome settings) = o := by
  rw [reflow, bind_eq_ok]
  exact exists_congr fun p => and_congr_right fun _ => by simp [pure, Except.pure]

end Network

namespace Outcome
variable {o : Outcome} {issues : List Issue}

theorem foldl_addIssue : (issues.foldl addIssue o).changes = o.changes ∧
    (issues.foldl addIssue o).delta = o.delta := by
  induction issues generalizing o with
  | nil => exact ⟨rfl, rfl⟩
  | cons i rest ih =>
    rw [List.foldl_cons, ih.1, ih.2, addIssue]
    split <;> exact ⟨rfl, rfl⟩

theorem mem_foldl_addIssue {i : Issue} :
    i ∈ (issues.foldl addIssue o).issues ↔ i ∈ o.issues ∨ i ∈ issues := by
  induction issues generalizing o with
  | nil => simp
  | cons j rest ih =>
    rw [List.foldl_cons, ih, List.mem_cons, ← or_assoc]
    refine or_congr_left ?_
    rw [addIssue]
    split
    · rename_i hj
      exact ⟨Or.inl, fun h => h.elim id fun he => he ▸ hj⟩
    · rw [List.mem_append, List.mem_singleton]

end Outcome

namespace Pass
variable {p : Pass} {settings : Settings}

theorem changes_outcome : (p.outcome settings).changes = p.changes settings :=
  Outcome.foldl_addIssue.1

theorem delta_outcome : (p.outcome settings).delta = p.stored.span.driftTo p.root.span :=
  Outcome.foldl_addIssue.2

/-- A pass meets the issues of its agenda, the items that are stuck, and the links from missing items
that bind an ordered one. -/
theorem mem_issues {i : Issue} : i ∈ p.issues ↔ i ∈ p.agenda.issues ∨
    (p.agenda.cyclic ≠ [] ∧ i = .cycle p.agenda.cyclic) ∨
    ∃ x ∈ p.agenda.order, ∃ l ∈ p.working.bindingLinks x,
      p.working.contains l.predecessor = false ∧ i = .danglingLink l.predecessor l.successor := by
  have hcyclic : (i ∈ if p.agenda.cyclic.isEmpty then [] else [Issue.cycle p.agenda.cyclic]) ↔
      p.agenda.cyclic ≠ [] ∧ i = .cycle p.agenda.cyclic := by
    cases p.agenda.cyclic <;> simp
  rw [issues, List.mem_append, List.mem_append, hcyclic, or_assoc]
  simp only [List.mem_flatMap, List.mem_map, List.mem_filter, Bool.not_eq_true', and_assoc,
    eq_comm (b := i)]

theorem mem_issues_outcome {i : Issue} : i ∈ (p.outcome settings).issues ↔ i ∈ p.issues := by
  rw [outcome, Outcome.mem_foldl_addIssue]
  simp

end Pass

end WorkPlan
