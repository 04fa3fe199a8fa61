import WorkPlan.Proofs.Excerpt
import WorkPlan.Proofs.FinalDays

/-! # A pass over an excerpt

The pass over an excerpt takes the same root, has the same agenda and settles the same days as the
pass over the network. Only the order in which issues are met may differ, as it follows the order of
the links and of the search. So an edit comes to the same in both
(`Excerpt.reflow_of_read_parent`). -/

namespace WorkPlan

/-- Whether two outcomes differ at most in the order of their issues. -/
structure Outcome.Agrees (o o' : Outcome) : Prop where
  changes : o.changes = o'.changes
  delta : o.delta = o'.delta
  issues : ∀ i, i ∈ o.issues ↔ i ∈ o'.issues

/-- Whether two edits fail alike or have outcomes that agree. -/
inductive Outcome.Alike : Except EditError Outcome → Except EditError Outcome → Prop
  | error (x : EditError) : Alike (.error x) (.error x)
  | ok {o o' : Outcome} (h : o.Agrees o') : Alike (.ok o) (.ok o')

namespace Pass

/-- Whether `q` is over an excerpt what `p` is over the network. -/
structure Mirrors (q p : Pass) (former : Option ItemId) (reads : Visit → Prop) : Prop where
  ready : p.Ready former
  partReady : q.Ready former
  stored : q.stored = p.stored
  applied : q.applied = p.applied
  root : q.root = p.root
  before : Excerpt q.before p.before p.root.id reads
  working : Excerpt q.working p.working p.root.id reads
  former_read : ∀ x, former = some x → p.working.contains x = true → reads ⟨x, .ancestor⟩

namespace Mirrors
variable {q p : Pass} {former : Option ItemId} {reads : Visit → Prop} {x : ItemId}
  (h : q.Mirrors p former reads)
include h

/-! ## What is to be done -/

theorem agenda_eq : q.agenda.roles = p.agenda.roles ∧ q.agenda.order = p.agenda.order ∧
    q.agenda.cyclic = p.agenda.cyclic := by
  rw [h.ready.agenda, h.partReady.agenda, h.root]
  exact ⟨h.working.roles_eq h.former_read, h.working.arranged_eq h.former_read⟩

theorem met_of_mem_order (hx : x ∈ p.agenda.order) : Visit.Met reads x := by
  rw [h.ready.agenda] at hx
  exact h.working.met_of_mem_roles h.former_read (Agenda.mem_order_or_cyclic.mp (Or.inl hx))

theorem item?_before (hx : q.working.item? x = p.working.item? x) :
    q.before.item? x = p.before.item? x := by
  by_cases hroot : x = p.root.id
  · rw [hroot]
    exact h.before.item?_read _ h.before.read_root
  · rw [h.ready.working, h.partReady.working, h.root, Network.item?_insert, Network.item?_insert,
      if_neg (Ne.symm hroot), if_neg (Ne.symm hroot)] at hx
    exact hx

/-! ## What is settled -/

theorem spanFor_eq {policy : PullPolicy} {s : Settled} {item : Item}
    (hx : Visit.Met reads item.id) : q.spanFor policy s item = p.spanFor policy s item := by
  have hspan : ∀ y, q.working.item? y = p.working.item? y →
      s.span? q.working y = s.span? p.working y := by
    intro y hy
    rw [Settled.span?, Settled.span?, Network.span?_of_item?_eq hy]
  have hsoonest : p.working.soonestStartBy (s.span? p.working) item.id =
      q.working.soonestStartBy (s.span? q.working) item.id :=
    Network.soonestStartBy_congr (fun l => h.working.mem_bindingLinks hx) fun l hl =>
      (hspan _ (h.working.item?_binding hx hl)).symm
  have hchildren : q.working.childrenOf item.id = p.working.childrenOf item.id :=
    h.working.childrenOf_eq hx
  have hdays : (p.working.childrenOf item.id).filterMap (s.span? q.working) =
      (p.working.childrenOf item.id).filterMap (s.span? p.working) := by
    refine List.filterMap_congr fun c hc => hspan c ?_
    obtain ⟨role, hx⟩ := hx
    exact h.working.item?_child _ hx c (Network.mem_childrenOf.mp hc)
  have hdrift : ∀ l ∈ p.working.bindingLinks item.id,
      s.drift q.before l.predecessor = s.drift p.before l.predecessor := by
    intro l hl
    have hitem := h.item?_before (h.working.item?_binding hx hl)
    rw [Settled.drift, Settled.drift, Network.span?_of_item?_eq hitem]
  -- the links may come in another order, but the pull is told by the set of the moves
  have hpull : policy.pull ((q.working.bindingLinks item.id).map fun l =>
        s.drift q.before l.predecessor) =
      policy.pull ((p.working.bindingLinks item.id).map fun l =>
        s.drift p.before l.predecessor) := by
    refine PullPolicy.pull_congr fun n => ?_
    rw [List.mem_map, List.mem_map]
    refine exists_congr fun l => ?_
    rw [← h.working.mem_bindingLinks hx]
    exact and_congr_right fun hl => by rw [hdrift l hl]
  unfold spanFor Network.hasChildren
  simp only [← hsoonest, hchildren, hdays, hpull, h.agenda_eq.1]

theorem step_eq {policy : PullPolicy} {s : Settled} (hx : Visit.Met reads x) :
    q.step policy s x = p.step policy s x := by
  unfold step
  rw [h.working.item?_met hx]
  cases hitem : p.working.item? x with
  | none => rfl
  | some item =>
    have hid := Network.id_of_item? hitem
    simp only [h.spanFor_eq (hid.symm ▸ hx)]

theorem settled_eq {policy : PullPolicy} : q.settled policy = p.settled policy := by
  unfold settled
  rw [h.agenda_eq.2.1, h.root]
  exact List.foldl_ext _ _ _ fun s x hx => h.step_eq (h.met_of_mem_order hx)

/-! ## What comes out -/

theorem changes_eq {settings : Settings} : q.changes settings = p.changes settings := by
  apply Std.ExtTreeMap.ext_getElem?
  intro x
  rw [getElem?_changes, getElem?_changes, h.settled_eq]
  cases hs : (p.settled settings.policy).spans[x]? with
  | none => rfl
  | some span =>
    have href : q.reference? x = p.reference? x := by
      unfold reference?
      rw [h.root, h.applied]
      split
      · rfl
      · rename_i hx
        have ho : x ∈ p.agenda.order := by
          by_contra ho
          rw [Ready.settled_of_not_mem_order hx ho] at hs
          cases hs
        exact Network.span?_of_item?_eq (h.before.item?_met (h.met_of_mem_order ho))
    simp only [href]

theorem mem_issues {i : Issue} : i ∈ q.issues ↔ i ∈ p.issues := by
  have hagenda : i ∈ q.agenda.issues ↔ i ∈ p.agenda.issues := by
    rw [h.ready.agenda, h.partReady.agenda, h.root]
    exact h.working.mem_agenda_issues h.former_read
  have hlinks : ∀ x ∈ p.agenda.order, ∀ l,
      (l ∈ q.working.bindingLinks x ∧ q.working.contains l.predecessor = false ↔
        l ∈ p.working.bindingLinks x ∧ p.working.contains l.predecessor = false) := by
    intro x hx l
    have hmet := h.met_of_mem_order hx
    rw [← h.working.mem_bindingLinks hmet]
    refine and_congr_right fun hl => ?_
    rw [Network.contains_of_item?_eq (h.working.item?_binding hmet hl)]
  rw [Pass.mem_issues, Pass.mem_issues, hagenda, h.agenda_eq.2.1, h.agenda_eq.2.2]
  refine or_congr_right (or_congr_right (exists_congr fun x => and_congr_right fun hx => ?_))
  simp only [← and_assoc, hlinks x hx]

theorem outcome {settings : Settings} : (q.outcome settings).Agrees (p.outcome settings) where
  changes := by rw [changes_outcome, changes_outcome, h.changes_eq]
  delta := by rw [delta_outcome, delta_outcome, h.stored, h.root]
  issues i := by rw [mem_issues_outcome, mem_issues_outcome, h.mem_issues]

end Mirrors

end Pass

/-! ## From an edit to its outcome -/

theorem Network.reflow_of_root?_error {net : Network} {settings : Settings} {e : Edit}
    {x : EditError} (h : net.root? e = .error x) : net.reflow settings e = .error x := by
  unfold reflow pass?
  rw [h]
  rfl

theorem Network.root?_of_isBlank {net : Network} {e : Edit} (h : e.id.isBlank = true) :
    net.root? e = .error .blankRoot := by
  rw [root?, if_pos h]

theorem Network.root?_of_unknown {net : Network} {e : Edit} (hblank : e.id.isBlank = false)
    (h : net.item? e.id = none) : net.root? e = .error (.unknownItem e.id) := by
  rw [root?, hblank, h]
  rfl

theorem Network.reflow_of_item? {net : Network} {settings : Settings} {e : Edit} {stored : Item}
    (hblank : e.id.isBlank = false) (h : net.item? e.id = some stored) :
    net.reflow settings e =
      (if e.touches .parent then net.checkParent (e.applyTo stored) else .ok ()).bind fun _ =>
        .ok (if e.touched.isEmpty then {} else (Pass.prepare net e stored).outcome settings) := by
  have hroot : net.root? e = .ok stored := root?_eq_ok.mpr ⟨hblank, h⟩
  unfold reflow pass?
  rw [hroot]
  cases e.touches .parent with
  | false => rfl
  | true =>
    simp only [bind, Except.bind, if_true]
    cases net.checkParent (e.applyTo stored) <;> rfl

namespace Excerpt
variable {part net : Network} {e : Edit} {reads : Visit → Prop} {stored item : Item}
  (h : Excerpt part net e.id reads)
include h

theorem checkParent_eq
    (hparent : ∀ p, item.parent = some p → net.contains p = true → reads ⟨p, .ancestor⟩) :
    part.checkParent item = net.checkParent item := by
  unfold Network.checkParent
  cases hp : item.parent with
  | none => rfl
  | some p =>
    have hcontains : part.contains p = net.contains p :=
      h.contains_eq fun hc => ⟨.ancestor, hparent p hp hc⟩
    cases hc : net.contains p with
    | false => simp [hcontains, hc]
    | true =>
      have hmet : Visit.Met reads p := ⟨.ancestor, hparent p hp hc⟩
      simp only [hcontains, hc, h.isAncestor_eq hmet]

omit h in
theorem contains_of_checkParent {p : ItemId} (hcheck : net.checkParent item = .ok ())
    (hp : item.parent = some p) : net.contains p = true := by
  unfold Network.checkParent at hcheck
  rw [hp] at hcheck
  cases hc : net.contains p with
  | true => rfl
  | false =>
    simp only [hc, Bool.not_false, if_true] at hcheck
    split at hcheck <;> cases hcheck

theorem seed_eq (hid : item.id = e.id)
    (hparent : ∀ p, item.parent = some p → net.contains p = true → reads ⟨p, .ancestor⟩)
    (hcheck : e.touches .parent = true → net.checkParent item = .ok ()) :
    Pass.seed part e item = Pass.seed net e item := by
  unfold Pass.seed
  split
  · rename_i ht
    cases hp : item.parent with
    | none => rfl
    | some p =>
      have hc := contains_of_checkParent (hcheck ht) hp
      have hmet : Visit.Met reads p := ⟨.ancestor, hparent p hp hc⟩
      simp only [(h.insert hid hparent).soonestStart_eq hmet]
  · rfl

theorem read_stored_parent (hstored : net.item? e.id = some stored) :
    ∀ p, stored.parent = some p → net.contains p = true → reads ⟨p, .ancestor⟩ := by
  intro p hp hc
  by_cases he : p = e.id
  · exact he ▸ h.read_root
  · have hparent : net.parent? e.id = some p := (Network.parent?_of_item? hstored).trans hp
    exact h.closed _ _ h.read_root (.parent (Network.inside_iff.mpr ⟨hparent, hc⟩)) he

theorem mirrors (hstored : net.item? e.id = some stored)
    (hparent : ∀ p, (e.applyTo stored).parent = some p → net.contains p = true →
      reads ⟨p, .ancestor⟩)
    (hcheck : e.touches .parent = true → net.checkParent (e.applyTo stored) = .ok ()) :
    (Pass.prepare part e stored).Mirrors (Pass.prepare net e stored)
      (Pass.formerParent e stored (e.applyTo stored)) reads := by
  have hpart : part.item? e.id = some stored := (h.item?_read _ h.read_root).trans hstored
  have hid : (e.applyTo stored).id = e.id := (Network.id_of_item? hstored :)
  have hroot : (Pass.prepare net e stored).root.id = e.id := Pass.id_root_prepare hstored
  have hseed : (Pass.prepare part e stored).root = (Pass.prepare net e stored).root :=
    h.seed_eq hid hparent hcheck
  have hworking : Excerpt (part.insert (Pass.prepare net e stored).root)
      (net.insert (Pass.prepare net e stored).root) e.id reads := by
    refine h.insert hroot fun p hp => hparent p ?_
    rw [← hp]
    exact (Pass.parent_seed net e _).symm
  constructor
  case ready => exact Pass.ready_prepare hstored
  case partReady => exact Pass.ready_prepare hpart
  case stored => rfl
  case applied => rfl
  case root => exact hseed
  case before => rw [hroot]; exact h
  case working =>
    rw [hroot, (Pass.ready_prepare hpart).working, hseed]
    exact hworking
  case former_read =>
    intro x hx hc
    have hx : stored.parent = some x := by
      unfold Pass.formerParent at hx
      split at hx
      · exact hx
      · cases hx
    rw [(Pass.ready_prepare hstored).contains_working] at hc
    exact h.read_stored_parent hstored x hx hc

/-- **An edit of an excerpt comes to what it comes to in the network**, provided that the parent which
the edit leaves the root with was read too. -/
theorem reflow_of_read_parent {settings : Settings}
    (hparent : ∀ stored, net.item? e.id = some stored → ∀ p, (e.applyTo stored).parent = some p →
      net.contains p = true → reads ⟨p, .ancestor⟩) :
    Outcome.Alike (part.reflow settings e) (net.reflow settings e) := by
  obtain ⟨stored, hstored⟩ : ∃ stored, net.item? e.id = some stored :=
    Network.contains_iff.mp (h.contains _ h.read_root)
  have hpart : part.item? e.id = some stored := (h.item?_read _ h.read_root).trans hstored
  have hparent := hparent stored hstored
  cases hblank : e.id.isBlank with
  | true =>
    have hfail : ∀ n : Network, n.reflow settings e = .error .blankRoot := fun n =>
      Network.reflow_of_root?_error (Network.root?_of_isBlank hblank)
    rw [hfail, hfail]
    exact .error _
  | false =>
    rw [Network.reflow_of_item? hblank hpart, Network.reflow_of_item? hblank hstored,
      h.checkParent_eq hparent]
    cases hcheck : (if e.touches .parent then net.checkParent (e.applyTo stored) else .ok ()) with
    | error x => exact .error x
    | ok =>
      have hmirror := h.mirrors hstored hparent fun ht => by rw [← hcheck, ht, if_pos rfl]
      refine .ok ?_
      split
      · exact ⟨rfl, rfl, fun _ => Iff.rfl⟩
      · exact hmirror.outcome

theorem reflow {settings : Settings} (he : e.proposed.parent = true → e.touched.parent = true)
    (hcarried : e.touches .parent = true → ∀ p, e.parent = some p → net.contains p = true →
      reads ⟨p, .ancestor⟩) :
    Outcome.Alike (part.reflow settings e) (net.reflow settings e) := by
  refine h.reflow_of_read_parent fun stored hstored p hp hc => ?_
  cases hproposed : e.proposed.parent with
  | true => exact hcarried (he hproposed) p (by simpa [Edit.applyTo, hproposed] using hp) hc
  | false =>
    exact h.read_stored_parent hstored p (by simpa [Edit.applyTo, hproposed] using hp) hc

end Excerpt

end WorkPlan
