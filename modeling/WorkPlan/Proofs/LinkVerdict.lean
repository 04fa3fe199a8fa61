import WorkPlan.Proofs.Audit

/-! # The verdict on a new link

The check of a new link raises each objection that there is against the link, once, and no other
(`mem_linkFaults`). And if it says that the link would close a cycle, the link does close one. This is not
plain from the search behind the verdict, which goes down to children although these do not wait for their
parents. But an item is held back by whatever holds back an item that it is inside. So as soon as the way
from the successor has led along a link, all that it meets waits for the successor or for an item inside it
(`inside_or_heldBack`), and this is what waits for the predecessor once the link is there
(`closes_of_closesCycle`). -/

namespace WorkPlan
open Relation

namespace Network
variable {net : Network} {l : Link} {p s x y : ItemId}

/-! ## The objections to a link -/

/-- Whether two identifiers stand for two items. -/
structure TwoItems (net : Network) (p s : ItemId) : Prop where
  ne : p ≠ s
  left : net.contains p = true
  right : net.contains s = true

def Related (net : Network) (p s : ItemId) : Prop := p ∈ net.ancestors s ∨ s ∈ net.ancestors p

/-- What there is to be said against a link from `p` to `s`. -/
inductive Objection (net : Network) (p s : ItemId) : LinkFault → Prop where
  | selfLink (he : p = s) : Objection net p s (.selfLink p)
  | unknownItem {x : ItemId} (hne : p ≠ s) (hend : x = p ∨ x = s) (hx : net.contains x = false) :
      Objection net p s (.unknownItem x)
  | duplicate (hps : net.TwoItems p s) (hlinked : net.Linked p s) :
      Objection net p s (.duplicate p s)
  | sameChain (hps : net.TwoItems p s) (hrelated : net.Related p s) :
      Objection net p s (.sameChain p s)
  | closesCycle (hps : net.TwoItems p s) (hapart : ¬ net.Related p s)
      (hreach : ReflTransGen (fun x y => net.Linked x y ∨ net.parent? y = some x) s p) :
      Objection net p s (.closesCycle p s)

theorem inSameChain_iff : net.inSameChain p s = true ↔ net.Related p s := by
  rw [inSameChain, isAncestor, isAncestor, Bool.or_eq_true, decide_eq_true_eq, decide_eq_true_eq,
    Related]

theorem related_of_inside (hne : p ≠ s) (h : ReflTransGen net.Inside p s) : net.Related p s :=
  Or.inr ((List.mem_cons.mp (mem_cons_ancestors.mpr h)).resolve_left hne.symm)

theorem mem_reachable_iff : y ∈ net.reachable x ↔
    ReflTransGen (fun x y => net.Linked x y ∨ net.parent? y = some x) x y :=
  mem_reachable.trans (reflTransGen_congr fun _ _ _ => stepsTo_iff)

/-! ## The objections that are raised -/

theorem linkFaults_of_twoItems (h : net.TwoItems p s) : net.linkFaults p s =
    (if (net.linksFrom p).any (·.successor = s) then [.duplicate p s] else []) ++
      if net.inSameChain p s then [.sameChain p s]
      else if p ∈ net.reachable s then [.closesCycle p s] else [] := by
  have hends : ([p, s].filter fun id => !net.contains id) = [] := by simp [h.left, h.right]
  rw [linkFaults, if_neg h.ne, hends]

theorem linkFaults_of_not_twoItems (hne : p ≠ s) (h : ¬ net.TwoItems p s) : net.linkFaults p s =
    ([p, s].filter fun id => !net.contains id).map .unknownItem := by
  rw [linkFaults, if_neg hne]
  split
  · rename_i hends
    rw [List.filter_eq_nil_iff] at hends
    exact absurd ⟨hne, by simpa using hends p (by simp), by simpa using hends s (by simp)⟩ h
  · rfl

theorem nodup_linkFaults : (net.linkFaults p s).Nodup := by
  by_cases he : p = s
  · rw [linkFaults, if_pos he]
    exact List.nodup_singleton _
  · by_cases hps : net.TwoItems p s
    · rw [linkFaults_of_twoItems hps]
      split <;> split <;> try split
      all_goals simp
    · rw [linkFaults_of_not_twoItems he hps]
      have hnodup : [p, s].Nodup := by simpa using he
      exact (hnodup.filter _).map fun _ _ => LinkFault.unknownItem.inj

theorem mem_linkFaults_of_twoItems (h : net.TwoItems p s) {f : LinkFault} :
    f ∈ net.linkFaults p s ↔ net.Objection p s f := by
  rw [linkFaults_of_twoItems h, List.mem_append]
  constructor
  · rintro (hf | hf)
    · split at hf
      · rename_i hlinked
        rw [List.mem_singleton.mp hf]
        exact .duplicate h (any_linksFrom_iff.mp hlinked)
      · cases hf
    · split at hf
      · rename_i hchain
        rw [List.mem_singleton.mp hf]
        exact .sameChain h (inSameChain_iff.mp hchain)
      · rename_i hchain
        split at hf
        · rename_i hreach
          rw [List.mem_singleton.mp hf]
          exact .closesCycle h (inSameChain_iff.not.mp hchain) (mem_reachable_iff.mp hreach)
        · cases hf
  · intro hf
    cases hf with
    | selfLink he => exact absurd he h.ne
    | unknownItem _ hend hx =>
      rcases hend with rfl | rfl
      · rw [h.left] at hx
        cases hx
      · rw [h.right] at hx
        cases hx
    | duplicate _ hlinked =>
      rw [if_pos (any_linksFrom_iff.mpr hlinked)]
      exact Or.inl (List.mem_singleton_self _)
    | sameChain _ hrelated =>
      rw [if_pos (inSameChain_iff.mpr hrelated)]
      exact Or.inr (List.mem_singleton_self _)
    | closesCycle _ hapart hreach =>
      rw [if_neg (inSameChain_iff.not.mpr hapart), if_pos (mem_reachable_iff.mpr hreach)]
      exact Or.inr (List.mem_singleton_self _)

theorem mem_linkFaults {f : LinkFault} : f ∈ net.linkFaults p s ↔ net.Objection p s f := by
  by_cases he : p = s
  · rw [linkFaults, if_pos he, List.mem_singleton]
    constructor
    · rintro rfl
      exact .selfLink he
    · intro h
      cases h with
      | selfLink => rfl
      | unknownItem hne => exact absurd he hne
      | duplicate hps | sameChain hps | closesCycle hps => exact absurd he hps.ne
  · by_cases hps : net.TwoItems p s
    · exact mem_linkFaults_of_twoItems hps
    · rw [linkFaults_of_not_twoItems he hps]
      constructor
      · intro hf
        obtain ⟨x, hx, rfl⟩ := List.mem_map.mp hf
        obtain ⟨hend, hx⟩ := List.mem_filter.mp hx
        exact .unknownItem he (by simpa using hend) (by simpa using hx)
      · intro h
        cases h with
        | selfLink he' => exact absurd he' he
        | unknownItem _ hend hx =>
          exact List.mem_map_of_mem (List.mem_filter.mpr ⟨by simpa using hend, by simpa using hx⟩)
        | duplicate h | sameChain h | closesCycle h => exact absurd h hps

/-! ## Cycles that a link closes -/

/-- Whether a link binds `x` whose predecessor is `s` or an item inside it, or depends on such an item. -/
def HeldBack (net : Network) (s x : ItemId) : Prop :=
  ∃ l ∈ net.bindingLinks x, ∃ y, ReflTransGen net.DependsOn l.predecessor y ∧
    ReflTransGen net.Inside y s

/-- What can be reached along links and down to children is inside the item where the way starts, as long as
it has not led along a link, and is held back by that item from then on. -/
theorem inside_or_heldBack (hparents : ∀ x p, net.parent? x = some p → net.contains p = true)
    (h : ReflTransGen net.StepsTo s x) : ReflTransGen net.Inside x s ∨ net.HeldBack s x := by
  induction h with
  | refl => exact Or.inl .refl
  | @tail x y _ hxy ih =>
    rcases stepsTo_iff.mp hxy with ⟨l, hl, rfl, rfl⟩ | hp
    · -- the item at the near end of a link is what holds back the one at the far end
      refine Or.inr ⟨l, mem_bindingLinks.mpr ⟨hl, .refl⟩, ?_⟩
      rcases ih with hin | ⟨k, hk, z, hz, hin⟩
      · exact ⟨_, .refl, hin⟩
      · exact ⟨z, hz.head (dependsOn_predecessor hk), hin⟩
    · -- a child inherits what holds back its parent
      have hinside : net.Inside y x := inside_iff.mpr ⟨hp, hparents y x hp⟩
      rcases ih with hin | ⟨k, hk, hback⟩
      · exact Or.inl (hin.head hinside)
      · exact Or.inr ⟨k, bindingLinks_subset_of_inside hinside hk, hback⟩

/-- A chain of dependencies between different items is one in which each waits for the next. -/
theorem reflTransGen_waitsFor (h : ReflTransGen net.DependsOn x y) :
    ReflTransGen net.WaitsFor x y := by
  induction h with
  | refl => exact .refl
  | @tail y z _ hyz ih =>
    by_cases he : z = y
    · exact he ▸ ih
    · exact ih.tail ⟨hyz, he⟩

/-- Whether a link closes a chain: an item waits for the predecessor because of the link, and the
predecessor waits for that item already. -/
def Closes (net : Network) (l : Link) : Prop :=
  ∃ x, (net.addLink l).WaitsFor x l.predecessor ∧ TransGen net.WaitsFor l.predecessor x ∧
    ReflTransGen net.Inside x l.successor

theorem Closes.transGen (h : net.Closes l) :
    TransGen (net.addLink l).WaitsFor l.predecessor l.predecessor := by
  obtain ⟨x, hx, hback, _⟩ := h
  exact (TransGen.mono (fun _ _ hab => waitsFor_addLink.mpr (Or.inl hab)) _ _ hback).tail hx

theorem closes_of_closesCycle
    (hparents : ∀ x p, net.parent? x = some p → net.contains p = true)
    (h : .closesCycle l.predecessor l.successor ∈ net.linkFaults l.predecessor l.successor) :
    net.Closes l := by
  cases mem_linkFaults.mp h with
  | closesCycle hps hapart hreach =>
    have hout : ¬ ReflTransGen net.Inside l.predecessor l.successor :=
      fun hin => hapart (related_of_inside hps.ne hin)
    have hsteps : ReflTransGen net.StepsTo l.successor l.predecessor :=
      mem_reachable.mp (mem_reachable_iff.mpr hreach)
    obtain ⟨k, hk, x, hx, hin⟩ := (inside_or_heldBack hparents hsteps).resolve_left hout
    have hne : l.predecessor ≠ x := fun he => hout (he ▸ hin)
    have hwaits : ReflTransGen net.WaitsFor l.predecessor x :=
      reflTransGen_waitsFor (hx.head (dependsOn_predecessor hk))
    exact ⟨x, waitsFor_addLink.mpr (Or.inr ⟨⟨hin, rfl⟩, hne⟩),
      (reflTransGen_iff_eq_or_transGen.mp hwaits).resolve_left hne.symm, hin⟩

/-- **The check of a new link raises exactly the objections that there are**, each of them once, and finds
nothing if there are none. Where all parents are items and the check says that the link would close a
cycle, a chain of items that wait for one another is closed through the predecessor, whatever the lag. -/
theorem linkFaults_exact : (net.linkFaults p s).Nodup ∧
    (∀ f, f ∈ net.linkFaults p s ↔ net.Objection p s f) ∧
    (net.linkFaults p s = [] ↔ ∀ f, ¬ net.Objection p s f) ∧
    ((∀ x parent, net.parent? x = some parent → net.contains parent = true) →
      .closesCycle p s ∈ net.linkFaults p s →
      ∀ lag, net.Closes ⟨p, s, lag⟩ ∧ TransGen (net.addLink ⟨p, s, lag⟩).WaitsFor p p) := by
  refine ⟨nodup_linkFaults, fun _ => mem_linkFaults, ?_, fun hparents hcycle lag => ?_⟩
  · rw [List.eq_nil_iff_forall_not_mem]
    exact forall_congr' fun _ => mem_linkFaults.not
  · have hcloses : net.Closes ⟨p, s, lag⟩ := closes_of_closesCycle hparents hcycle
    exact ⟨hcloses, hcloses.transGen⟩

end Network

/-! ## A frame that the site would wait for -/

/-- The permit, which is part of the site, comes before the shell, and framing is part of the shell. -/
def permitPlan : Network := .ofLists
  [{ id := ⟨"frame"⟩, parent := some ⟨"shell"⟩ }, { id := ⟨"permit"⟩, parent := some ⟨"site"⟩ },
    { id := ⟨"shell"⟩ }, { id := ⟨"site"⟩ }]
  [{ predecessor := ⟨"permit"⟩, successor := ⟨"shell"⟩ }]

/-- A link from framing to the site leads neither from nor to an end of the link that is there, but framing
inherits the wait for the permit, and the permit would inherit the wait for framing. -/
theorem closes_permitPlan :
    permitPlan.linkFaults ⟨"frame"⟩ ⟨"site"⟩ = [.closesCycle ⟨"frame"⟩ ⟨"site"⟩] ∧
      permitPlan.Closes ⟨⟨"frame"⟩, ⟨"site"⟩, 2⟩ ∧
      TransGen (permitPlan.addLink ⟨⟨"frame"⟩, ⟨"site"⟩, 2⟩).WaitsFor ⟨"frame"⟩ ⟨"frame"⟩ := by
  have hfaults : permitPlan.linkFaults ⟨"frame"⟩ ⟨"site"⟩ = [.closesCycle ⟨"frame"⟩ ⟨"site"⟩] := by
    decide +kernel
  have hintact : permitPlan.Intact := Network.intact_of_faults (by decide +kernel)
  exact ⟨hfaults, Network.linkFaults_exact.2.2.2 hintact.parent (hfaults ▸ List.mem_singleton_self _) 2⟩

end WorkPlan
