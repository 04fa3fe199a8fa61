import WorkPlan.Proofs.FinalDays
import WorkPlan.Proofs.Shape

/-! # The committed network

To commit an edit is to store the root as the edit has it and then every span of the outcome. What
comes out has the links and the parents of the network that the pass worked on, and the final days of
the pass (`carriedOut_of_commit`). -/

namespace WorkPlan
open Relation

namespace Network
variable {net : Network} {k : ItemId} {slots : List (ItemId × Slot)}

/-! ## Storing spans -/

theorem links_foldl_setSpan :
    (slots.foldl (fun net s => net.setSpan s.1 s.2.span) net).links = net.links := by
  induction slots generalizing net with
  | nil => rfl
  | cons s rest ih => rw [List.foldl_cons, ih, links_setSpan]

theorem parent?_foldl_setSpan :
    (slots.foldl (fun net s => net.setSpan s.1 s.2.span) net).parent? k = net.parent? k := by
  induction slots generalizing net with
  | nil => rfl
  | cons s rest ih => rw [List.foldl_cons, ih, parent?_setSpan]

theorem contains_foldl_setSpan :
    (slots.foldl (fun net s => net.setSpan s.1 s.2.span) net).contains k = net.contains k := by
  induction slots generalizing net with
  | nil => rfl
  | cons s rest ih =>
    rw [List.foldl_cons, ih, contains_eq_isSome_span?, span?_setSpan, contains_eq_isSome_span?]
    split
    · rw [Option.isSome_map]
    · rfl

theorem span?_foldl_setSpan_of_not_mem (h : k ∉ slots.map Prod.fst) :
    (slots.foldl (fun net s => net.setSpan s.1 s.2.span) net).span? k = net.span? k := by
  induction slots generalizing net with
  | nil => rfl
  | cons s rest ih =>
    rw [List.map_cons] at h
    obtain ⟨hne, hrest⟩ := not_or.mp (mt List.mem_cons.mpr h)
    rw [List.foldl_cons, ih hrest, span?_setSpan, if_neg (Ne.symm hne)]

theorem span?_foldl_setSpan_of_mem {slot : Slot} (hn : (slots.map Prod.fst).Nodup)
    (h : (k, slot) ∈ slots) (hc : net.contains k = true) :
    (slots.foldl (fun net s => net.setSpan s.1 s.2.span) net).span? k = some slot.span := by
  obtain ⟨a, b, rfl⟩ := List.append_of_mem h
  rw [List.map_append, List.map_cons] at hn
  have hb : k ∉ b.map Prod.fst :=
    (List.nodup_cons.mp (List.nodup_append.mp hn).2.1).1
  have hcontains : (a.foldl (fun net s => net.setSpan s.1 s.2.span) net).contains k = true :=
    contains_foldl_setSpan.trans hc
  rw [contains_eq_isSome_span?] at hcontains
  obtain ⟨s, hs⟩ := Option.isSome_iff_exists.mp hcontains
  rw [List.foldl_append, List.foldl_cons, span?_foldl_setSpan_of_not_mem hb, span?_setSpan,
    if_pos rfl, hs, Option.map_some]

/-! ## Storing an outcome -/

variable {e : Edit} {stored : Item} {o : Outcome}

theorem store_eq_foldl : net.store e stored o = o.changes.toList.foldl
    (fun net s => net.setSpan s.1 s.2.span)
    ((net.setSpan e.id (e.applyTo stored).span).setParent e.id (e.applyTo stored).parent) := by
  rw [store, Std.ExtTreeMap.foldl_eq_foldl_toList]

theorem links_store : (net.store e stored o).links = net.links := by
  rw [store_eq_foldl, links_foldl_setSpan, links_setParent, links_setSpan]

theorem item?_edited_root (h : net.item? e.id = some stored) :
    ((net.setSpan e.id (e.applyTo stored).span).setParent e.id (e.applyTo stored).parent).item? k =
      if e.id = k then some (e.applyTo stored) else net.item? k := by
  rw [item?_setParent, item?_setSpan]
  split
  · rename_i hk
    rw [← hk, h]; rfl
  · rfl

theorem parent?_store (h : net.item? e.id = some stored) : (net.store e stored o).parent? k =
    if e.id = k then (e.applyTo stored).parent else net.parent? k := by
  rw [store_eq_foldl, parent?_foldl_setSpan, parent?, item?_edited_root h]
  split <;> rfl

theorem contains_edited_root (h : net.item? e.id = some stored) :
    ((net.setSpan e.id (e.applyTo stored).span).setParent e.id (e.applyTo stored).parent).contains k =
      net.contains k := by
  rw [contains_eq_isSome, item?_edited_root h, contains_eq_isSome]
  split
  · rename_i hk
    rw [← hk, h]; rfl
  · rfl

theorem contains_store (h : net.item? e.id = some stored) :
    (net.store e stored o).contains k = net.contains k := by
  rw [store_eq_foldl, contains_foldl_setSpan, contains_edited_root h]

theorem span?_store (h : net.item? e.id = some stored)
    (hchanges : ∀ x slot, o.changes[x]? = some slot → net.contains x = true) :
    (net.store e stored o).span? k = net.spanAfter? e o k := by
  rw [store_eq_foldl, spanAfter?]
  cases hk : o.changes[k]? with
  | some slot =>
    refine span?_foldl_setSpan_of_mem ?_ (Std.ExtTreeMap.mem_toList_iff_getElem?_eq_some.mpr hk)
      ((contains_edited_root h).trans (hchanges k slot hk))
    rw [Std.ExtTreeMap.map_fst_toList_eq_keys]
    exact Std.ExtTreeMap.nodup_keys
  | none =>
    rw [span?_foldl_setSpan_of_not_mem, span?, item?_edited_root h]
    · by_cases he : e.id = k
      · rw [if_pos he, if_pos he.symm, ← he, h]; rfl
      · rw [if_neg he]
        exact (if_neg (Ne.symm he)).symm
    · rw [Std.ExtTreeMap.map_fst_toList_eq_keys, Std.ExtTreeMap.mem_keys,
        Std.ExtTreeMap.mem_iff_isSome_getElem?, hk]
      simp

theorem commit_eq_ok {settings : Settings} {after : Network} :
    net.commit settings e = .ok (after, o) ↔ ∃ stored, net.root? e = .ok stored ∧
      net.reflow settings e = .ok o ∧ net.store e stored o = after := by
  rw [commit, bind_eq_ok]
  refine exists_congr fun stored => and_congr_right fun _ => ?_
  rw [bind_eq_ok]
  constructor
  · rintro ⟨o', ho, h⟩
    obtain ⟨rfl, rfl⟩ := Prod.mk.inj (Except.ok.inj h)
    exact ⟨ho, rfl⟩
  · rintro ⟨ho, rfl⟩
    exact ⟨o, ho, rfl⟩

/-- An outcome lists nothing but items. -/
theorem contains_of_change {settings : Settings} (h : net.reflow settings e = .ok o) {slot : Slot}
    (hslot : o.changes[k]? = some slot) : net.contains k = true := by
  obtain ⟨p, hp, rfl⟩ := reflow_eq_ok.mp h
  obtain ⟨_, stored, hstored, _, rfl⟩ := pass?_eq_ok.mp hp
  split at hslot
  · simp at hslot
  · rw [Pass.changes_outcome, Pass.changes_eq_some] at hslot
    obtain ⟨_, _, _, hsettled, _⟩ := hslot
    have hready := Pass.ready_prepare hstored
    exact hready.contains_working.symm.trans (hready.contains_of_mem_settled hsettled)

/-- A commit leaves the days that its outcome tells. -/
theorem span?_of_commit {settings : Settings} {after : Network}
    (h : net.commit settings e = .ok (after, o)) : after.span? k = net.spanAfter? e o k := by
  obtain ⟨stored, hroot, hreflow, rfl⟩ := commit_eq_ok.mp h
  exact span?_store (root?_eq_ok.mp hroot).2 fun _ _ => contains_of_change hreflow

/-- An edit that proposes no parent leaves a network its shape. -/
theorem sameShape_of_commit {settings : Settings} {after : Network} (he : e.proposed.parent = false)
    (h : net.commit settings e = .ok (after, o)) : SameShape after net := by
  obtain ⟨stored, hroot, _, rfl⟩ := commit_eq_ok.mp h
  have hstored := (root?_eq_ok.mp hroot).2
  constructor
  · exact links_store
  · intro x
    rw [parent?_store hstored]
    split
    · rename_i hx
      rw [← hx, parent?_of_item? hstored]
      simp [Edit.applyTo, he]
    · rfl
  · exact fun x => contains_store hstored

end Network

/-! ## The pass behind a commit -/

namespace Pass

/-- What a committed network has of the pass behind it: its links, its parents and its final days. -/
structure CarriedOut (p : Pass) (policy : PullPolicy) (after : Network) : Prop where
  links : after.links = p.working.links
  parent : ∀ x, after.parent? x = p.working.parent? x
  span : ∀ x, after.span? x = (p.settled policy).span? p.working x

theorem carriedOut_of_commit {net after : Network} {settings : Settings} {e : Edit} {o : Outcome}
    (h : net.commit settings e = .ok (after, o)) (ht : e.touched.isEmpty = false) :
    ∃ p, net.pass? e = .ok p ∧ p.before = net ∧ p.root.id = e.id ∧
      (∃ former, p.Ready former) ∧ p.outcome settings = o ∧ p.CarriedOut settings.policy after := by
  obtain ⟨stored, hroot, hreflow, rfl⟩ := Network.commit_eq_ok.mp h
  have hstored := (Network.root?_eq_ok.mp hroot).2
  obtain ⟨p, hp, rfl⟩ := Network.reflow_eq_ok.mp hreflow
  obtain ⟨_, stored', hstored', _, rfl⟩ := Network.pass?_eq_ok.mp hp
  obtain rfl : stored = stored' := Option.some.inj (hstored.symm.trans hstored')
  have hready := ready_prepare hstored
  refine ⟨_, hp, rfl, id_root_prepare hstored, ⟨_, hready⟩, ?_, ?_⟩
  · rw [ht, if_neg Bool.false_ne_true]
  · constructor
    · exact Network.links_store
    · intro x
      rw [Network.parent?_store hstored, hready.working, Network.parent?_insert,
        id_root_prepare hstored]
      split
      · exact (parent_seed net e _).symm
      · rfl
    · intro x
      rw [Network.span?_of_commit h, ht, if_neg Bool.false_ne_true, spanAfter?_outcome hstored]

/-- A root that stays where it is leaves the network its shape. -/
theorem Ready.sameShape {p : Pass} {former : Option ItemId} (hp : p.Ready former)
    (h : p.root.parent = p.stored.parent) : SameShape p.working p.before := by
  constructor
  · rw [hp.working, Network.links_insert]
  · intro x
    rw [hp.working, Network.parent?_insert]
    split
    · rename_i hx
      rw [← hx, Network.parent?_of_item? hp.stored, h]
    · rfl
  · exact fun _ => hp.contains_working

namespace CarriedOut
variable {p : Pass} {policy : PullPolicy} {after : Network} {former : Option ItemId} {x y : ItemId}
  (hc : p.CarriedOut policy after)
include hc

theorem contains (hp : p.Ready former) : after.contains x = p.working.contains x := by
  rw [Network.contains_eq_isSome_span?, hc.span]
  cases hs : (p.settled policy).spans[x]? with
  | some span =>
    rw [Settled.span?_of_settled hs, hp.contains_of_mem_settled hs]; rfl
  | none => rw [Settled.span?_of_unsettled hs, Network.contains_eq_isSome_span?]

theorem sameShape (hp : p.Ready former) : SameShape after p.working :=
  ⟨hc.links, hc.parent, fun _ => hc.contains hp⟩

theorem reflTransGen_iff (hp : p.Ready former) :
    ReflTransGen after.Inside x y ↔ ReflTransGen p.working.Inside x y :=
  (hc.sameShape hp).reflTransGen_iff

theorem mem_bindingLinks (hp : p.Ready former) {l : Link} :
    l ∈ after.bindingLinks x ↔ l ∈ p.working.bindingLinks x :=
  (hc.sameShape hp).mem_bindingLinks

theorem childrenOf : after.childrenOf x = p.working.childrenOf x :=
  Network.childrenOf_congr fun c => by rw [hc.parent]

theorem hasChildren : after.hasChildren x = p.working.hasChildren x := by
  rw [Network.hasChildren, hc.childrenOf, Network.hasChildren]

theorem finalDays (hp : p.Ready former) :
    FinalDays p.before p.working p.root p.agenda policy after.span? := by
  rw [show after.span? = (p.settled policy).span? p.working from funext hc.span]
  exact hp.finalDays

/-- An item that no link ties to itself answers, once the pass is carried out, to the bound that it
was computed from. -/
theorem soonestStart (hp : p.Ready former)
    (hself : ∀ l ∈ after.bindingLinks x, l.predecessor ≠ x) :
    p.working.soonestStartBy (p.before.seenBy after.span? x) x = after.soonestStart x := by
  rw [Network.soonestStart, (hc.sameShape hp).soonestStartBy_eq]
  exact Network.soonestStartBy_seenBy fun l hl => hself l ((hc.mem_bindingLinks hp).mpr hl)

end CarriedOut

end Pass

end WorkPlan
