import WorkPlan.Proofs.Hull
import WorkPlan.Proofs.PartialPass
import WorkPlan.Proofs.Renaming

/-! # A pass under other names

The pass over a renamed network has the same work to do but may do it in another order, as ties are
decided by the identifiers. The order does not matter, because an item is settled from the final days of
what it depends on: by induction along the one order, every item is settled on the same days as its
namesake (`Renames.settled_eq`). So an edit under other names comes to the same under other names
(`Network.reflow_rename`). -/

namespace WorkPlan

def Edit.rename (e : Edit) (r : Renaming) : Edit := { e with id := r e.id, parent := e.parent.map r }

def EditError.rename (x : EditError) (r : Renaming) : EditError :=
  match x with
  | .blankRoot => .blankRoot
  | .unknownAttribute name => .unknownAttribute name
  | .unknownItem id => .unknownItem (r id)
  | .unknownParent item parent => .unknownParent (r item) (r parent)
  | .invalidParent item parent => .invalidParent (r item) (r parent)

/-- Whether two issues differ at most in the order in which a cycle lists its items. -/
inductive Issue.Same : Issue → Issue → Prop
  | refl (i : Issue) : Same i i
  | cycle {l l' : List ItemId} (h : l.Perm l') : Same (.cycle l) (.cycle l')

/-- Whether `o'` is `o` under other names, but for the order of the issues and that of the items of a
cycle. -/
structure Outcome.Renames (r : Renaming) (o o' : Outcome) : Prop where
  delta : o'.delta = o.delta
  changes : ∀ k slot, o'.changes[k]? = some slot ↔ ∃ x, r x = k ∧ o.changes[x]? = some slot
  issues : ∀ i ∈ o.issues, ∃ j ∈ o'.issues, (i.rename r).Same j
  issues_of : ∀ j ∈ o'.issues, ∃ i ∈ o.issues, (i.rename r).Same j

theorem Outcome.renames_empty (r : Renaming) : Outcome.Renames r {} {} where
  delta := rfl
  changes k slot := by simp
  issues i hi := by cases hi
  issues_of j hj := by cases hj

/-- Whether the second of two edits fails as the first one does, or has its outcome, under other
names. -/
inductive Outcome.RenamedAlike (r : Renaming) :
    Except EditError Outcome → Except EditError Outcome → Prop
  | error (x : EditError) : RenamedAlike r (.error x) (.error (x.rename r))
  | ok {o o' : Outcome} (h : o.Renames r o') : RenamedAlike r (.ok o) (.ok o')

namespace Pass
variable {r : Renaming} {p q : Pass} {former : Option ItemId} {policy : PullPolicy} {x k : ItemId}

/-- Whether `q` is over a renamed network what `p` is over the network. -/
structure Renames (r : Renaming) (p q : Pass) (former : Option ItemId) : Prop where
  ready : p.Ready former
  ready_renamed : q.Ready (former.map r)
  stored : q.stored = p.stored.rename r
  applied : q.applied = p.applied.rename r
  root : q.root = p.root.rename r
  before : p.before.Renames r q.before

namespace Renames
variable (h : p.Renames r q former)
include h

theorem root_id : q.root.id = r p.root.id := by
  rw [h.root]
  rfl

theorem working : p.working.Renames r q.working := by
  rw [h.ready.working, h.ready_renamed.working, h.root]
  exact h.before.insert p.root

/-! ## What is to be done -/

theorem agenda : q.agenda = Agenda.ofChange q.working (r p.root.id) (former.map r) := by
  rw [← h.root_id]
  exact h.ready_renamed.agenda

theorem roles_eq : q.agenda.roles[r x]? = p.agenda.roles[x]? := by
  rw [h.agenda, h.ready.agenda]
  exact h.working.roles_eq h.ready.contains_root

theorem mem_order : k ∈ q.agenda.order ↔ ∃ x ∈ p.agenda.order, r x = k := by
  rw [h.agenda, h.ready.agenda]
  exact h.working.mem_order h.ready.contains_root

theorem perm_cyclic : q.agenda.cyclic.Perm (p.agenda.cyclic.map r) := by
  rw [h.agenda, h.ready.agenda]
  exact h.working.perm_cyclic h.ready.contains_root

/-! ## What is settled -/

/-- An item and its namesake are settled alike, where their dependencies are. -/
theorem spanFor_eq {s s' : Settled} {item : Item}
    (hs : ∀ y ∈ p.working.dependencies item.id, s'.spans[r y]? = s.spans[y]?) :
    q.spanFor policy s' (item.rename r) = p.spanFor policy s item := by
  have hid : (item.rename r).id = r item.id := rfl
  have hspan : ∀ y ∈ p.working.dependencies item.id,
      s'.span? q.working (r y) = s.span? p.working y := by
    intro y hy
    rw [Settled.span?, Settled.span?, hs y hy, h.working.span?_eq]
  have hsoonest : q.working.soonestStartBy (s'.span? q.working) (r item.id) =
      p.working.soonestStartBy (s.span? p.working) item.id :=
    h.working.soonestStartBy_eq fun l hl => hspan _ (Network.predecessor_mem_dependencies hl)
  have hhull : Span.hull ((q.working.childrenOf (r item.id)).filterMap (s'.span? q.working)) =
      Span.hull ((p.working.childrenOf item.id).filterMap (s.span? p.working)) := by
    rw [Span.hull_congr fun _ => (h.working.perm_childrenOf.filterMap _).mem_iff, List.filterMap_map]
    exact congrArg Span.hull (List.filterMap_congr fun c hc =>
      hspan c (Network.child_mem_dependencies hc))
  have hdrift : ∀ l ∈ p.working.bindingLinks item.id,
      s'.drift q.before (r l.predecessor) = s.drift p.before l.predecessor := by
    intro l hl
    rw [Settled.drift, Settled.drift, hs _ (Network.predecessor_mem_dependencies hl),
      h.before.span?_eq]
  have hpull : policy.pull ((q.working.bindingLinks (r item.id)).map fun l =>
        s'.drift q.before l.predecessor) =
      policy.pull ((p.working.bindingLinks item.id).map fun l =>
        s.drift p.before l.predecessor) := by
    refine PullPolicy.pull_congr fun n => ?_
    simp only [List.mem_map, h.working.mem_bindingLinks]
    constructor
    · rintro ⟨_, ⟨l, hl, rfl⟩, rfl⟩
      exact ⟨l, hl, (hdrift l hl).symm⟩
    · rintro ⟨l, hl, rfl⟩
      exact ⟨l.rename r, ⟨l, hl, rfl⟩, hdrift l hl⟩
  have hown : (item.rename r).span = item.span := rfl
  simp only [spanFor, hid, hsoonest, hhull, hpull, hown, h.working.hasChildren_eq, h.roles_eq]

/-- **Every item is settled on the days of its namesake**, in whatever order the two passes go. -/
theorem settled_eq : (q.settled policy).spans[r x]? = (p.settled policy).spans[x]? := by
  refine h.ready.settled_induct (P := fun x span => (q.settled policy).spans[r x]? = span)
    ?_ ?_ ?_ x
  · rw [← h.root_id, h.ready_renamed.settled_root, h.root]
    rfl
  · intro y hy ho
    refine Ready.settled_of_not_mem_order (h.root_id ▸ r.inj.ne.mpr hy) fun hq => ho ?_
    obtain ⟨z, hz, he⟩ := h.mem_order.mp hq
    exact r.injective he ▸ hz
  · intro y hy item hitem ih
    have hrenamed : q.working.item? (r y) = some (item.rename r) := by
      rw [h.working.item?, hitem]
      rfl
    rw [h.ready_renamed.settled_ordered (h.mem_order.mpr ⟨y, hy, rfl⟩) hrenamed]
    refine congrArg some (h.spanFor_eq fun z hz => ?_)
    simp only [Settled.getElem?_without, r.inj]
    split
    · rfl
    · rename_i hne
      exact ih z hz (Ne.symm hne)

/-! ## What comes out -/

theorem reference?_eq : q.reference? (r x) = p.reference? x := by
  rw [reference?, reference?, h.root_id, h.applied, h.before.span?_eq]
  simp only [r.inj]
  rfl

theorem changes_eq {settings : Settings} :
    (q.changes settings)[r x]? = (p.changes settings)[x]? := by
  rw [getElem?_changes, getElem?_changes, h.settled_eq, h.reference?_eq]

theorem changes_eq_some_iff {settings : Settings} {slot : Slot} :
    (q.changes settings)[k]? = some slot ↔ ∃ x, r x = k ∧ (p.changes settings)[x]? = some slot := by
  constructor
  · intro hk
    have hsettled := hk
    rw [getElem?_changes] at hsettled
    obtain ⟨span, hspan, _⟩ := Option.bind_eq_some_iff.mp hsettled
    obtain ⟨x, rfl⟩ := h.working.known k (h.ready_renamed.contains_of_mem_settled hspan)
    exact ⟨x, rfl, h.changes_eq ▸ hk⟩
  · rintro ⟨x, rfl, hx⟩
    rw [h.changes_eq, hx]

theorem mem_agenda_issues {i : Issue} :
    i ∈ q.agenda.issues ↔ ∃ j ∈ p.agenda.issues, j.rename r = i := by
  rw [h.agenda, h.ready.agenda]
  exact h.working.mem_issues h.ready.contains_root

theorem cyclic_eq_nil_iff : q.agenda.cyclic = [] ↔ p.agenda.cyclic = [] := by
  rw [← List.length_eq_zero_iff, h.perm_cyclic.length_eq, List.length_map,
    List.length_eq_zero_iff]

theorem issue_mem {i : Issue} (hi : i ∈ p.issues) : ∃ j ∈ q.issues, (i.rename r).Same j := by
  rcases mem_issues.mp hi with hi | ⟨hne, rfl⟩ | ⟨x, hx, l, hl, hc, rfl⟩
  · exact ⟨_, mem_issues.mpr (Or.inl (h.mem_agenda_issues.mpr ⟨i, hi, rfl⟩)), .refl _⟩
  · exact ⟨.cycle q.agenda.cyclic,
      mem_issues.mpr (Or.inr (Or.inl ⟨h.cyclic_eq_nil_iff.not.mpr hne, rfl⟩)),
      .cycle h.perm_cyclic.symm⟩
  · refine ⟨_, mem_issues.mpr (Or.inr (Or.inr ⟨r x, h.mem_order.mpr ⟨x, hx, rfl⟩, l.rename r,
      h.working.mem_bindingLinks.mpr ⟨l, hl, rfl⟩, ?_, rfl⟩)), .refl _⟩
    exact h.working.contains_eq.trans hc

theorem issue_of_mem {j : Issue} (hj : j ∈ q.issues) : ∃ i ∈ p.issues, (i.rename r).Same j := by
  rcases mem_issues.mp hj with hj | ⟨hne, rfl⟩ | ⟨k, hk, m, hm, hc, rfl⟩
  · obtain ⟨i, hi, rfl⟩ := h.mem_agenda_issues.mp hj
    exact ⟨i, mem_issues.mpr (Or.inl hi), .refl _⟩
  · exact ⟨.cycle p.agenda.cyclic,
      mem_issues.mpr (Or.inr (Or.inl ⟨h.cyclic_eq_nil_iff.not.mp hne, rfl⟩)),
      .cycle h.perm_cyclic.symm⟩
  · obtain ⟨x, hx, rfl⟩ := h.mem_order.mp hk
    obtain ⟨l, hl, rfl⟩ := h.working.mem_bindingLinks.mp hm
    exact ⟨.danglingLink l.predecessor l.successor,
      mem_issues.mpr (Or.inr (Or.inr ⟨x, hx, l, hl, h.working.contains_eq ▸ hc, rfl⟩)), .refl _⟩

theorem outcome {settings : Settings} : (p.outcome settings).Renames r (q.outcome settings) where
  delta := by
    rw [delta_outcome, delta_outcome, h.stored, h.root]
    rfl
  changes k slot := by
    rw [changes_outcome, changes_outcome]
    exact h.changes_eq_some_iff
  issues i hi := by
    obtain ⟨j, hj, hsame⟩ := h.issue_mem (mem_issues_outcome.mp hi)
    exact ⟨j, mem_issues_outcome.mpr hj, hsame⟩
  issues_of j hj := by
    obtain ⟨i, hi, hsame⟩ := h.issue_of_mem (mem_issues_outcome.mp hj)
    exact ⟨i, mem_issues_outcome.mpr hi, hsame⟩

end Renames
end Pass

/-! ## From an edit to its outcome -/

theorem Edit.applyTo_rename (e : Edit) (r : Renaming) (stored : Item) :
    (e.rename r).applyTo (stored.rename r) = (e.applyTo stored).rename r := by
  unfold applyTo rename Item.rename
  cases e.proposed.parent <;> rfl

theorem Item.adopt_rename (x : Item) (r : Renaming) (start : Option Date) :
    (x.rename r).adopt start = (x.adopt start).rename r := by
  unfold adopt Item.rename
  split <;> rfl

theorem Pass.formerParent_rename (e : Edit) (r : Renaming) (stored applied : Item) :
    formerParent (e.rename r) (stored.rename r) (applied.rename r) =
      (formerParent e stored applied).map r := by
  have hparent : (applied.rename r).parent = (stored.rename r).parent ↔
      applied.parent = stored.parent := (Option.map_injective r.injective).eq_iff
  have htouches : (e.rename r).touches .parent = e.touches .parent := rfl
  simp only [formerParent, htouches, ne_eq, hparent]
  split <;> rfl

namespace Network.Renames
variable {r : Renaming} {net net' : Network} {e : Edit} {stored x : Item} {settings : Settings}
  (h : Renames r net net')
include h

theorem checkParent_eq :
    net'.checkParent (x.rename r) = (net.checkParent x).mapError (·.rename r) := by
  unfold checkParent
  have hparent : (x.rename r).parent = x.parent.map r := rfl
  have hid : (x.rename r).id = r x.id := rfl
  rw [hparent, hid]
  cases x.parent with
  | none => rfl
  | some p =>
    simp only [Option.map_some, r.inj, h.contains_eq, h.isAncestor_eq]
    split
    · rfl
    · split
      · rfl
      · split <;> rfl

theorem seed_eq : Pass.seed net' (e.rename r) (x.rename r) = (Pass.seed net e x).rename r := by
  have hparent : (x.rename r).parent = x.parent.map r := rfl
  have htouches : (e.rename r).touches .parent = e.touches .parent := rfl
  unfold Pass.seed
  rw [hparent, htouches]
  split
  · cases x.parent with
    | none => rfl
    | some p =>
      have hsoonest : (net'.insert (x.rename r)).soonestStart (r p) =
          (net.insert x).soonestStart p :=
        (h.insert x).soonestStartBy_eq fun l _ => (h.insert x).span?_eq
      simp only [Option.map_some, hsoonest, Item.adopt_rename]
  · rfl

theorem prepare (hstored : net.item? e.id = some stored) :
    (Pass.prepare net e stored).Renames r (Pass.prepare net' (e.rename r) (stored.rename r))
      (Pass.formerParent e stored (e.applyTo stored)) := by
  have hrenamed : net'.item? (e.rename r).id = some (stored.rename r) := by
    rw [Edit.rename, h.item?, hstored]
    rfl
  constructor
  case ready => exact Pass.ready_prepare hstored
  case ready_renamed =>
    rw [← Pass.formerParent_rename, ← Edit.applyTo_rename]
    exact Pass.ready_prepare hrenamed
  case stored => rfl
  case applied => exact e.applyTo_rename r stored
  case root =>
    unfold Pass.prepare
    rw [Edit.applyTo_rename]
    exact h.seed_eq
  case before => exact h

theorem reflow : Outcome.RenamedAlike r (net.reflow settings e) (net'.reflow settings (e.rename r)) := by
  have hid : (e.rename r).id = r e.id := rfl
  cases hblank : e.id.isBlank with
  | true =>
    have hrenamed : (e.rename r).id.isBlank = true := (r.isBlank_apply e.id).trans hblank
    rw [reflow_of_root?_error (root?_of_isBlank hblank),
      reflow_of_root?_error (root?_of_isBlank hrenamed)]
    exact .error _
  | false =>
    have hrenamed : (e.rename r).id.isBlank = false := (r.isBlank_apply e.id).trans hblank
    cases hitem : net.item? e.id with
    | none =>
      have hnone : net'.item? (e.rename r).id = none := by
        rw [hid, h.item?, hitem]
        rfl
      rw [reflow_of_root?_error (root?_of_unknown hblank hitem),
        reflow_of_root?_error (root?_of_unknown hrenamed hnone)]
      exact .error _
    | some stored =>
      have hsome : net'.item? (e.rename r).id = some (stored.rename r) := by
        rw [hid, h.item?, hitem]
        rfl
      have hpass : (if e.touched.isEmpty then {} else
          (Pass.prepare net e stored).outcome settings : Outcome).Renames r
          (if (e.rename r).touched.isEmpty then {} else
            (Pass.prepare net' (e.rename r) (stored.rename r)).outcome settings) := by
        have htouched : (e.rename r).touched = e.touched := rfl
        rw [htouched]
        split
        · exact Outcome.renames_empty r
        · exact (h.prepare hitem).outcome
      have hcheck : (if (e.rename r).touches .parent then
            net'.checkParent ((e.rename r).applyTo (stored.rename r)) else .ok ()) =
          (if e.touches .parent then net.checkParent (e.applyTo stored) else .ok ()).mapError
            (·.rename r) := by
        have htouches : (e.rename r).touches .parent = e.touches .parent := rfl
        rw [htouches, e.applyTo_rename, h.checkParent_eq]
        split <;> rfl
      rw [reflow_of_item? hblank hitem, reflow_of_item? hrenamed hsome, hcheck]
      cases if e.touches .parent then net.checkParent (e.applyTo stored) else .ok () with
      | error x => exact .error x
      | ok => exact .ok hpass

end Network.Renames

/-- **The names of items do not matter to an edit.** -/
theorem Network.reflow_rename (r : Renaming) (net : Network) (settings : Settings) (e : Edit) :
    Outcome.RenamedAlike r (net.reflow settings e) ((net.rename r).reflow settings (e.rename r)) :=
  (renames_rename r net).reflow

/-- With the names of the frame and the pour exchanged, a later frame moves the pour and the shell. -/
example :
    let exchanged := Renaming.swap ⟨"frame"⟩ ⟨"pour"⟩ rfl
    (shellPlan.rename exchanged).reflow {} (pourLater.rename exchanged) = .ok
      { changes := .ofList [(ItemId.mk "shell", Slot.mk (Date.ofDay? 10) (Date.ofDay? 12) 3),
          (ItemId.mk "pour", Slot.mk (Date.ofDay? 10) (Date.ofDay? 12) 3)]
        delta := 4 } := by decide +kernel

end WorkPlan
