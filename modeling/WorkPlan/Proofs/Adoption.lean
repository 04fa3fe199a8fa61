import WorkPlan.Proofs.Containment

/-! # The start that a root takes from its parent

A root without a start that is put under a parent takes the first day on which that parent may start
(`Pass.exists_of_seed_ne`). What binds the parent is what the root inherits, since the check of the edit keeps
the root out of the parent's chain (`Network.inherited_insert`). So the start that is taken is the latest day
that an inherited link asks for (`Network.adopted_start`). The links into the root itself are not looked at,
and one of them may ask for a later day (`adopted_before_own_link`). -/

namespace WorkPlan
open Relation

namespace Network
variable {net : Network} {item : Item} {x y p : ItemId} {l : Link}

/-- What an item outside the chain of its container inherits is what binds the container. -/
theorem inherited_iff (h : net.Inside x p) (hout : ¬ ReflTransGen net.Inside p x) :
    l ∈ net.bindingLinks x ∧ l.successor ≠ x ↔ l ∈ net.bindingLinks p := by
  rw [mem_bindingLinks, mem_bindingLinks, and_assoc]
  refine and_congr_right fun _ => ?_
  constructor
  · rintro ⟨hchain, hne⟩
    obtain ⟨q, hq, hback⟩ := (ReflTransGen.cases_head hchain).resolve_left (Ne.symm hne)
    rw [inside_iff] at h hq
    exact Option.some.inj (hq.1.symm.trans h.1) ▸ hback
  · exact fun hchain => ⟨hchain.head h, fun he => hout (he ▸ hchain)⟩

/-- A chain that does not come to an item does not notice what is put in its place. -/
theorem reflTransGen_insert (hc : net.contains item.id = true)
    (hout : ¬ ReflTransGen net.Inside x item.id) :
    ReflTransGen (net.insert item).Inside x y ↔ ReflTransGen net.Inside x y := by
  refine (reflTransGen_congr fun a hxa b => ?_).symm
  have hne : item.id ≠ a := fun he => hout (he ▸ hxa)
  exact inside_congr (parent?_insert.trans (if_neg hne)).symm (contains_insert hc).symm

/-- Once an item has a parent that the check lets it have, it inherits what binds the parent. -/
theorem inherited_insert (hc : net.contains item.id = true) (hparent : item.parent = some p)
    (hcheck : net.checkParent item = .ok ()) :
    l ∈ (net.insert item).bindingLinks item.id ∧ l.successor ≠ item.id ↔
      l ∈ (net.insert item).bindingLinks p := by
  obtain ⟨hcontains, hout⟩ := checkParent_eq_ok.mp hcheck p hparent
  have hinside : (net.insert item).Inside item.id p := by
    rw [inside_iff, parent?_insert, if_pos rfl, contains_insert hc]
    exact ⟨hparent, hcontains⟩
  exact inherited_iff hinside ((reflTransGen_insert hc hout).not.mpr hout)

end Network

theorem Item.span_adopt (x : Item) (start : Option Date) :
    (x.adopt start).span = ⟨x.start.or start, x.due⟩ := by
  unfold adopt
  cases hstart : x.start with
  | none => rfl
  | some first => exact congrArg (Span.mk · x.due) hstart

/-- The root differs from what the edit makes of it only if it takes a start from its parent. -/
theorem Pass.exists_of_seed_ne {net : Network} {e : Edit} {applied : Item}
    (h : (seed net e applied).span ≠ applied.span) :
    e.touches .parent = true ∧ ∃ parent start, applied.parent = some parent ∧ applied.start = none ∧
      (net.insert applied).soonestStart parent = some start ∧
      (seed net e applied).span = ⟨some start, applied.due⟩ := by
  unfold seed at h ⊢
  by_cases ht : e.touches .parent = true
  · rw [if_pos ht] at h ⊢
    refine ⟨ht, ?_⟩
    cases hparent : applied.parent with
    | none =>
      rw [hparent] at h
      exact absurd rfl h
    | some parent =>
      simp only [hparent, Item.span_adopt] at h ⊢
      cases hstart : applied.start with
      | some first =>
        rw [Item.span, hstart] at h
        exact absurd rfl h
      | none =>
        cases hsoonest : (net.insert applied).soonestStart parent with
        | none =>
          rw [Item.span, hstart, hsoonest] at h
          exact absurd rfl h
        | some start => exact ⟨parent, start, rfl, rfl, hsoonest, rfl⟩
  · rw [if_neg ht] at h
    exact absurd rfl h

/-- The root is listed among the changes if it is not what the edit makes of it. -/
theorem Pass.Ready.changes_root {p : Pass} {former : Option ItemId} {settings : Settings} {slot : Slot}
    (hp : p.Ready former) : (p.changes settings)[p.root.id]? = some slot ↔
      p.root.span ≠ p.applied.span ∧ slot = Slot.ofSpan p.root.span settings.placeholder := by
  have hreference : p.reference? p.root.id = some p.applied.span := if_pos rfl
  rw [changes_eq_some, hreference, hp.settled_root]
  simp only [Option.some.injEq, exists_and_left, exists_eq_left']

/-- **The start that a root takes is the latest day that what it inherits asks for.** A pass lists the root
among the changes only if the edit leaves it without a start; then it takes one, and its due day is the one
that the edit leaves. Of the links that bind the root, those that it inherits ask for no later day, with the
days of the network that holds the root as the edit has it, and one of them asks for this day. -/
theorem Network.adopted_start {net : Network} {settings : Settings} {e : Edit} {o : Outcome} {slot : Slot}
    (h : net.reflow settings e = .ok o) (hslot : o.changes[e.id]? = some slot) :
    ∃ stored start, net.item? e.id = some stored ∧
      let applied := e.applyTo stored
      let working := net.insert applied
      applied.start = none ∧ slot.span = ⟨some start, applied.due⟩ ∧
      (∀ l ∈ working.bindingLinks e.id, l.successor ≠ e.id → ∀ bound,
        l.release ((working.span? l.predecessor).bind (·.due)) = some bound → bound ≤ start) ∧
      ∃ l ∈ working.bindingLinks e.id, l.successor ≠ e.id ∧
        l.release ((working.span? l.predecessor).bind (·.due)) = some start := by
  obtain ⟨p, hp, rfl⟩ := reflow_eq_ok.mp h
  obtain ⟨_, stored, hstored, hcheck, rfl⟩ := pass?_eq_ok.mp hp
  split at hslot
  · cases (Std.ExtTreeMap.getElem?_empty).symm.trans hslot
  · rw [Pass.changes_outcome, ← Pass.id_root_prepare hstored,
      (Pass.ready_prepare hstored).changes_root] at hslot
    obtain ⟨hne, rfl⟩ := hslot
    obtain ⟨ht, parent, start, hparent, hstart, hsoonest, hroot⟩ := Pass.exists_of_seed_ne hne
    have hid : (e.applyTo stored).id = e.id := (id_of_item? hstored :)
    have hc : net.contains (e.applyTo stored).id = true := hid ▸ contains_iff.mpr ⟨stored, hstored⟩
    refine ⟨stored, start, hstored, hstart, hroot, fun l hl hne bound hbound => ?_, ?_⟩
    · rw [← hid] at hl hne
      have hl := (inherited_insert hc hparent (hcheck ht)).mp ⟨hl, hne⟩
      have hwithin := release_within_soonestStartBy (net.insert (e.applyTo stored)).span? hl
      rw [← soonestStart, hsoonest] at hwithin
      exact Date.within_some_iff.mp hwithin bound hbound
    · obtain ⟨l, hl, hrelease⟩ := exists_release_eq_soonestStartBy hsoonest
      obtain ⟨hl, hne⟩ := (inherited_insert hc hparent (hcheck ht)).mpr hl
      rw [hid] at hl hne
      exact ⟨l, hl, hne, hrelease⟩

/-! ## A task that is moved into a phase -/

/-- The phase waits for a permit, and the task for a survey that is due later. -/
def phasePlan : Network := .ofLists
  [{ id := ⟨"permit"⟩, due := Date.ofDay? 5 }, { id := ⟨"phase"⟩ },
    { id := ⟨"survey"⟩, due := Date.ofDay? 10 }, { id := ⟨"task"⟩ }]
  [{ predecessor := ⟨"permit"⟩, successor := ⟨"phase"⟩ },
    { predecessor := ⟨"survey"⟩, successor := ⟨"task"⟩ }]

def taskIntoPhase : Edit := ({ id := ⟨"task"⟩ } : Edit).withParent (some ⟨"phase"⟩)

/-- The task starts on the first day that the permit allows, and the phase with it. -/
def phaseStarted : Outcome where
  changes := .ofList [(ItemId.mk "phase", Slot.mk (Date.ofDay? 6) none 1),
    (ItemId.mk "task", Slot.mk (Date.ofDay? 6) none 1)]

theorem adopted_start_task :
    phasePlan.reflow {} taskIntoPhase = .ok phaseStarted ∧
      phaseStarted.changes[taskIntoPhase.id]? = some (Slot.mk (Date.ofDay? 6) none 1) ∧
      ∃ stored start, phasePlan.item? taskIntoPhase.id = some stored ∧
        let applied := taskIntoPhase.applyTo stored
        let working := phasePlan.insert applied
        applied.start = none ∧ (Slot.mk (Date.ofDay? 6) none 1).span = ⟨some start, applied.due⟩ ∧
        (∀ l ∈ working.bindingLinks taskIntoPhase.id, l.successor ≠ taskIntoPhase.id → ∀ bound,
          l.release ((working.span? l.predecessor).bind (·.due)) = some bound → bound ≤ start) ∧
        ∃ l ∈ working.bindingLinks taskIntoPhase.id, l.successor ≠ taskIntoPhase.id ∧
          l.release ((working.span? l.predecessor).bind (·.due)) = some start := by
  have hreflow : phasePlan.reflow {} taskIntoPhase = .ok phaseStarted := by decide +kernel
  have hslot : phaseStarted.changes[taskIntoPhase.id]? = some (Slot.mk (Date.ofDay? 6) none 1) := by
    decide +kernel
  exact ⟨hreflow, hslot, Network.adopted_start hreflow hslot⟩

/-- The task itself waits for the survey, and takes an earlier start than this allows. -/
theorem adopted_before_own_link :
    ∃ o slot stored, phasePlan.reflow {} taskIntoPhase = .ok o ∧
      o.changes[taskIntoPhase.id]? = some slot ∧ phasePlan.item? taskIntoPhase.id = some stored ∧
      let working := phasePlan.insert (taskIntoPhase.applyTo stored)
      ∃ l ∈ working.bindingLinks taskIntoPhase.id, ∃ start bound, slot.start = some start ∧
        l.release ((working.span? l.predecessor).bind (·.due)) = some bound ∧ start < bound := by
  refine ⟨phaseStarted, Slot.mk (Date.ofDay? 6) none 1, { id := ⟨"task"⟩ }, by decide +kernel,
    by decide +kernel, by decide +kernel, { predecessor := ⟨"survey"⟩, successor := ⟨"task"⟩ },
    by decide +kernel, Date.clamp 6, Date.clamp 11, by decide +kernel, by decide +kernel, by decide⟩

end WorkPlan
