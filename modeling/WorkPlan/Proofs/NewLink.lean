import WorkPlan.Audit
import WorkPlan.Proofs.Dependence

/-! # What the check of a new link is worth

The check searches from the successor along links and down to children, and refuses the link if it
meets the predecessor (`mem_reachable`). So it rules out that the predecessor follows the successor or
an item inside it, by links of its own or inherited ones (`reachable_of_follows`). It does not look at
parents that wait for their children. A link that passes the check therefore closes a circle exactly if
the predecessor waits for the successor through such a parent (`orderable_addLink_iff`). -/

namespace WorkPlan
open Relation

namespace Network
variable {net : Network} {l : Link} {p s x y : ItemId}

/-! ## What the search reaches -/

def StepsTo (net : Network) (x y : ItemId) : Prop := y ∈ net.stepsFrom x

theorem stepsTo_iff : net.StepsTo x y ↔ net.Linked x y ∨ net.parent? y = some x := by
  rw [StepsTo, stepsFrom, List.mem_append, linked_iff, mem_childrenOf]

def visitsStepped (net : Network) (v : Visit) : List Visit :=
  (net.stepsFrom v.id).map (Visit.mk · v.role)

/-- The items that a search from `x` could meet at most. -/
def stepEnds (net : Network) (x : ItemId) : List ItemId :=
  x :: (net.items.keys ++ net.links.map (·.successor))

theorem visitsStepped_subset (x : ItemId) {v : Visit}
    (hv : v ∈ (net.stepEnds x).map (Visit.mk · .follower)) :
    net.visitsStepped v ⊆ (net.stepEnds x).map (Visit.mk · .follower) := by
  intro w hw
  obtain ⟨_, _, rfl⟩ := List.mem_map.mp hv
  obtain ⟨y, hy, rfl⟩ := List.mem_map.mp hw
  refine List.mem_map.mpr ⟨y, List.mem_cons_of_mem _ (List.mem_append.mpr ?_), rfl⟩
  rcases stepsTo_iff.mp hy with ⟨l, hl, _, rfl⟩ | hp
  · exact Or.inr (List.mem_map.mpr ⟨l, hl, rfl⟩)
  · exact Or.inl (mem_keys.mpr (contains_of_parent? hp))

theorem mem_reachable : y ∈ net.reachable x ↔ ReflTransGen net.StepsTo x y := by
  have htrace : ∀ v, v ∈ Visit.trace net.visitsStepped (net.items.size + net.links.length + 1)
      [⟨x, .follower⟩] ↔ Visit.Reached net.visitsStepped [⟨x, .follower⟩] v := fun v =>
    Visit.mem_trace_iff_of_follower (by simp [stepEnds]) (fun _ => visitsStepped_subset x)
      (by simp [stepEnds, Std.ExtTreeMap.length_keys]) fun v hv => by
        obtain ⟨_, _, rfl⟩ := List.mem_map.mp hv
        rfl
  refine List.mem_map.trans ((exists_congr fun v => and_congr_left' (htrace v)).trans ?_)
  constructor
  · rintro ⟨v, hv, rfl⟩
    induction hv with
    | start h => rw [List.mem_singleton.mp h]
    | next _ hw ih =>
      obtain ⟨z, hz, rfl⟩ := List.mem_map.mp hw
      exact ih.tail hz
  · intro h
    refine ⟨⟨y, .follower⟩, ?_, rfl⟩
    induction h with
    | refl => exact .start (List.mem_singleton_self _)
    | tail _ hyz ih => exact ih.next (List.mem_map.mpr ⟨_, hyz, rfl⟩)

theorem reachable_of_inside (h : ReflTransGen net.Inside x y) : ReflTransGen net.StepsTo y x := by
  induction h with
  | refl => exact .refl
  | tail _ hyz ih => exact ih.head (stepsTo_iff.mpr (Or.inr (inside_iff.mp hyz).1))

/-- Whatever an item follows leads to it by steps along links and down to children. -/
theorem reachable_of_follows (h : ReflTransGen net.Follows x y) : ReflTransGen net.StepsTo y x := by
  induction h with
  | refl => exact .refl
  | tail _ hyz ih =>
    obtain ⟨l, hl, rfl⟩ := hyz
    obtain ⟨hl, hin⟩ := mem_bindingLinks.mp hl
    exact ((reachable_of_inside hin).trans ih).head (stepsTo_iff.mpr (Or.inl ⟨l, hl, rfl, rfl⟩))

/-! ## A link that passes the check -/

/-- Whether a link from `p` to `s` may be added: both are items, no link leads from one to the other yet,
neither contains the other, and `p` is out of reach from `s`. -/
structure Linkable (net : Network) (p s : ItemId) : Prop where
  ne : p ≠ s
  predecessor : net.contains p = true
  successor : net.contains s = true
  unlinked : ¬ net.Linked p s
  apart : net.inSameChain p s = false
  unreached : ¬ ReflTransGen net.StepsTo s p

theorem any_linksFrom_iff : (net.linksFrom p).any (·.successor = s) = true ↔ net.Linked p s := by
  simp only [List.any_eq_true, mem_linksFrom, decide_eq_true_eq, and_assoc, Linked]

theorem linkFaults_eq_nil_iff : net.linkFaults p s = [] ↔ net.Linkable p s := by
  have hends : ([p, s].filter fun id => !net.contains id) = [] ↔
      net.contains p = true ∧ net.contains s = true := by simp
  rw [linkFaults]
  by_cases hne : p = s
  · rw [if_pos hne]
    exact ⟨nofun, fun h => absurd hne h.ne⟩
  · rw [if_neg hne]
    split
    · rename_i hfound
      obtain ⟨hp, hs⟩ := hends.mp hfound
      constructor
      · intro h
        obtain ⟨hnew, h⟩ := List.append_eq_nil_iff.mp h
        split at h
        · cases h
        · rename_i hapart
          split at h
          · cases h
          · rename_i hreach
            refine ⟨hne, hp, hs, fun hlinked => ?_, Bool.eq_false_iff.mpr hapart,
              mem_reachable.not.mp hreach⟩
            rw [if_pos (any_linksFrom_iff.mpr hlinked)] at hnew
            cases hnew
      · intro h
        rw [if_neg (any_linksFrom_iff.not.mpr h.unlinked), if_neg (Bool.eq_false_iff.mp h.apart),
          if_neg (mem_reachable.not.mpr h.unreached), List.append_nil]
    · rename_i hmissing
      exact ⟨fun h => absurd (List.map_eq_nil_iff.mp h) hmissing,
        fun h => absurd (hends.mpr ⟨h.predecessor, h.successor⟩) hmissing⟩

theorem linkFaults_eq_nil (h : net.linkFaults p s = []) :
    ¬ ReflTransGen net.Inside p s ∧ ¬ ReflTransGen net.StepsTo s p := by
  have hl := linkFaults_eq_nil_iff.mp h
  have hapart := hl.apart
  rw [inSameChain, Bool.or_eq_false_iff, ← Bool.not_eq_true, ← Bool.not_eq_true,
    isAncestor_iff_reflTransGen, isAncestor_iff_reflTransGen] at hapart
  exact ⟨fun hps => hapart.2 ⟨hl.ne.symm, hps⟩, hl.unreached⟩

/-! ## The network with the link -/

theorem inside_addLink : (net.addLink l).Inside x y ↔ net.Inside x y :=
  inside_congr parent?_addLink contains_addLink

theorem follows_addLink : (net.addLink l).Follows x y ↔
    net.Follows x y ∨ ReflTransGen net.Inside x l.successor ∧ y = l.predecessor := by
  have hchain : ∀ z, ReflTransGen (net.addLink l).Inside x z ↔ ReflTransGen net.Inside x z :=
    fun z => reflTransGen_congr fun _ _ _ => inside_addLink
  simp only [Follows, mem_bindingLinks, mem_links_addLink, hchain]
  constructor
  · rintro ⟨k, ⟨hk | rfl, hin⟩, rfl⟩
    · exact Or.inl ⟨k, ⟨hk, hin⟩, rfl⟩
    · exact Or.inr ⟨hin, rfl⟩
  · rintro (⟨k, ⟨hk, hin⟩, rfl⟩ | ⟨hin, rfl⟩)
    · exact ⟨k, ⟨Or.inl hk, hin⟩, rfl⟩
    · exact ⟨l, ⟨Or.inr rfl, hin⟩, rfl⟩

theorem waitsFor_addLink : (net.addLink l).WaitsFor x y ↔ net.WaitsFor x y ∨
    (ReflTransGen net.Inside x l.successor ∧ y = l.predecessor) ∧ y ≠ x := by
  rw [waitsFor_iff, waitsFor_iff, follows_addLink, parent?_addLink, ← or_and_right, or_right_comm]

/-- Whether `p` waits for `s`, or for an item inside `s`, by way of a parent that waits for one of its
children. -/
def WaitsThroughParent (net : Network) (p s : ItemId) : Prop :=
  ∃ parent child x, ReflTransGen net.WaitsFor p parent ∧ net.WaitsFor parent child ∧
    net.parent? child = some parent ∧ ReflTransGen net.WaitsFor child x ∧ ReflTransGen net.Inside x s

theorem orderable_addLink_iff (hnet : net.Orderable)
    (hl : net.linkFaults l.predecessor l.successor = []) :
    (net.addLink l).Orderable ↔ ¬ net.WaitsThroughParent l.predecessor l.successor := by
  obtain ⟨hinside, hsteps⟩ := linkFaults_eq_nil hl
  constructor
  · rintro h ⟨parent, child, x, hparent, hchild, _, hx, hin⟩
    -- the way back from the item inside the successor is the new link
    have hpx : TransGen net.WaitsFor l.predecessor x := (TransGen.tail' hparent hchild).trans_left hx
    have hback : (net.addLink l).WaitsFor x l.predecessor :=
      waitsFor_addLink.mpr (Or.inr ⟨⟨hin, rfl⟩, fun he => hinside (he ▸ hin)⟩)
    exact h _ ((TransGen.mono (fun _ _ hab => waitsFor_addLink.mpr (Or.inl hab)) _ _ hpx).tail hback)
  · intro h x hx
    rcases transGen_or_return (r := net.WaitsFor)
      (q := (ReflTransGen net.Inside · l.successor)) (p := l.predecessor)
      (fun a b hab => (waitsFor_addLink.mp hab).imp_right (·.1)) hx with hold | ⟨a, hin, hback⟩
    · exact hnet x hold
    · rcases reflTransGen_or_other_step (s := net.Follows) hback with
        hf | ⟨parent, child, hparent, hchild, hother, hx⟩
      · exact hsteps ((reachable_of_inside hin).trans (reachable_of_follows hf))
      · exact h ⟨parent, child, a, hparent, hchild,
          (waitsFor_iff.mp hchild).1.resolve_left hother, hx, hin⟩

/-- **A link that passes the check leaves no change with anything stuck**, if nothing waits in a
circle before and the predecessor does not wait for the successor through a parent. -/
theorem cyclic_addLink_eq_nil (hnet : net.Orderable)
    (hl : net.linkFaults l.predecessor l.successor = [])
    (hp : ¬ net.WaitsThroughParent l.predecessor l.successor) :
    (net.addLink l).Orderable ∧
      ∀ root, (Agenda.ofChange (net.addLink l) root none).cyclic = [] := by
  have horderable := (orderable_addLink_iff hnet hl).mpr hp
  exact ⟨horderable, fun _ => Agenda.cyclic_eq_nil horderable⟩

end Network

/-! ## Links that pass the check -/

/-- Framing, which is all there is to the shell, waits for an inspection, and that for a permit. -/
def inspectionPlan : Network := .ofLists
  [{ id := ⟨"frame"⟩, parent := some ⟨"shell"⟩ }, { id := ⟨"inspection"⟩ }, { id := ⟨"permit"⟩ },
    { id := ⟨"roof"⟩ }, { id := ⟨"shell"⟩ }]
  [{ predecessor := ⟨"permit"⟩, successor := ⟨"inspection"⟩ },
    { predecessor := ⟨"inspection"⟩, successor := ⟨"frame"⟩ }]

def shellBeforeRoof : Link := { predecessor := ⟨"shell"⟩, successor := ⟨"roof"⟩ }

def shellBeforeInspection : Link := { predecessor := ⟨"shell"⟩, successor := ⟨"inspection"⟩ }

/-- The place of each item of the plan in an order that follows the links and puts the shell behind
framing. -/
def inspectionRank (id : ItemId) : Nat :=
  ([⟨"permit"⟩, ⟨"inspection"⟩, ⟨"frame"⟩, ⟨"shell"⟩, ⟨"roof"⟩] : List ItemId).idxOf id

theorem orderable_inspectionPlan : inspectionPlan.Orderable :=
  (Network.acyclic_of_rank inspectionRank (by decide +kernel)).orderable

theorem cyclic_inspectionPlan_addLink :
    inspectionPlan.Orderable ∧ inspectionPlan.linkFaults ⟨"shell"⟩ ⟨"roof"⟩ = [] ∧
      ¬ inspectionPlan.WaitsThroughParent ⟨"shell"⟩ ⟨"roof"⟩ ∧
      (inspectionPlan.addLink shellBeforeRoof).Orderable ∧
      ∀ root, (Agenda.ofChange (inspectionPlan.addLink shellBeforeRoof) root none).cyclic = [] := by
  have hcheck : inspectionPlan.linkFaults ⟨"shell"⟩ ⟨"roof"⟩ = [] := by decide +kernel
  have hafter : (inspectionPlan.addLink shellBeforeRoof).Orderable :=
    (Network.acyclic_of_rank inspectionRank (by decide +kernel)).orderable
  have hparent : ¬ inspectionPlan.WaitsThroughParent ⟨"shell"⟩ ⟨"roof"⟩ :=
    (Network.orderable_addLink_iff (l := shellBeforeRoof) orderable_inspectionPlan hcheck).mp hafter
  exact ⟨orderable_inspectionPlan, hcheck, hparent,
    Network.cyclic_addLink_eq_nil (l := shellBeforeRoof) orderable_inspectionPlan hcheck hparent⟩

/-- A draft and its review wait for each other, and nothing waits for the brief. -/
def reviewPlan : Network := .ofLists [{ id := ⟨"brief"⟩ }, { id := ⟨"draft"⟩ }, { id := ⟨"review"⟩ }]
  [{ predecessor := ⟨"draft"⟩, successor := ⟨"review"⟩ },
    { predecessor := ⟨"review"⟩, successor := ⟨"draft"⟩ }]

def briefBeforeDraft : Link := { predecessor := ⟨"brief"⟩, successor := ⟨"draft"⟩ }

/-- That no change leaves anything stuck may be lost with a link that passes the check: the shell waits
for the inspection through framing, and draft and review wait for each other unseen as long as every
change that concerns them is a change of one of them. -/
theorem stuck_after_addLink :
    ((∀ x ∈ inspectionPlan.itemList, (Agenda.ofChange inspectionPlan x.id none).cyclic = []) ∧
      inspectionPlan.linkFaults ⟨"shell"⟩ ⟨"inspection"⟩ = [] ∧
      ∃ x ∈ (inspectionPlan.addLink shellBeforeInspection).itemList,
        (Agenda.ofChange (inspectionPlan.addLink shellBeforeInspection) x.id none).cyclic ≠ []) ∧
    ((∀ x ∈ reviewPlan.itemList, (Agenda.ofChange reviewPlan x.id none).cyclic = []) ∧
      reviewPlan.linkFaults ⟨"brief"⟩ ⟨"draft"⟩ = [] ∧
      ∃ x ∈ (reviewPlan.addLink briefBeforeDraft).itemList,
        (Agenda.ofChange (reviewPlan.addLink briefBeforeDraft) x.id none).cyclic ≠ []) := by
  decide +kernel

end WorkPlan
