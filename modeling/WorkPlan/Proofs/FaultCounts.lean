import WorkPlan.Proofs.Descent
import WorkPlan.Proofs.Validity

/-! # How often an audit reports a fault

An audit reports each fault as often as it is there (`count_faults`). What is wrong with an item is reported
once, because an item is listed once; what is wrong with a link is reported for each link, so links that
differ in their lag alone repeat it. Of the cycles of links the audit reports at most one, by the first item
that leads to any, and this is the one that a descent along the links finds. -/

namespace WorkPlan
open Relation

namespace Network
variable {net : Network} {item : Item} {l : Link} {f : Fault} {k : FaultKind}
  {x y p s m : ItemId}

/-! ## The faults that there are -/

def linkCount (net : Network) (p s : ItemId) : Nat :=
  net.links.countP fun l => l.predecessor = p ∧ l.successor = s

/-- Whether one of two items is inside the other, directly or through others. -/
def SameChain (net : Network) (x y : ItemId) : Prop :=
  TransGen net.Inside x y ∨ TransGen net.Inside y x

open Classical in
/-- How often there is a fault: once for an item that has it, for each missing end of a link, and for each
link along a parent chain or from an item to itself. Cycles of links count once, for the smallest item that
leads to one, and a loop of parents counts once, for its smallest item. -/
noncomputable def occurrences (net : Network) : Fault → Nat
  | .invertedDates x start due =>
    if ∃ item, net.item? x = some item ∧ item.start = some start ∧ item.due = some due ∧ due < start
    then 1 else 0
  | .unknownParent x parent =>
    if net.parent? x = some parent ∧ net.contains parent = false then 1 else 0
  | .unknownEnd p s missing =>
    if net.contains missing = false then net.linkCount p s * [p, s].count missing else 0
  | .selfLink x => net.linkCount x x
  | .ancestorLink p s => if p ≠ s ∧ net.SameChain p s then net.linkCount p s else 0
  | .cyclicDependency x =>
    if (net.contains x = true ∧ net.LeadsToCycle x) ∧
      ∀ y, net.contains y = true → net.LeadsToCycle y → x ≤ y
    then 1 else 0
  | .hierarchyCycle x =>
    if TransGen net.Inside x x ∧ ∀ y, ReflTransGen net.Inside x y → x ≤ y then 1 else 0

/-! ## Faults of items -/

theorem mem_itemFaults : f ∈ net.itemFaults item ↔
    (∃ start due, f = .invertedDates item.id start due ∧ item.start = some start ∧
      item.due = some due ∧ due < start) ∨
    ∃ parent, f = .unknownParent item.id parent ∧ item.parent = some parent ∧
      net.contains parent = false := by
  rw [itemFaults, List.mem_append, List.mem_map]
  refine or_congr ?_ ?_
  · cases item.start with
    | none => simp
    | some start =>
      cases item.due with
      | none => simp
      | some due =>
        rw [List.mem_ite_nil_right, List.mem_singleton]
        constructor
        · rintro ⟨hlt, rfl⟩
          exact ⟨start, due, rfl, rfl, rfl, hlt⟩
        · rintro ⟨_, _, rfl, hstart, hdue, hlt⟩
          cases hstart
          cases hdue
          exact ⟨hlt, rfl⟩
  · simp only [Option.mem_toList, Option.filter_eq_some_iff, Bool.not_eq_true']
    constructor
    · rintro ⟨parent, ⟨hparent, hmissing⟩, rfl⟩
      exact ⟨parent, rfl, hparent, hmissing⟩
    · rintro ⟨parent, rfl, hparent, hmissing⟩
      exact ⟨parent, ⟨hparent, hmissing⟩, rfl⟩

theorem mem_itemFaults_unknownParent : .unknownParent x p ∈ net.itemFaults item ↔
    item.id = x ∧ item.parent = some p ∧ net.contains p = false := by
  rw [mem_itemFaults]
  constructor
  · rintro (⟨_, _, he, _⟩ | ⟨_, he, hparent, hmissing⟩)
    · cases he
    · cases he
      exact ⟨rfl, hparent, hmissing⟩
  · rintro ⟨rfl, hparent, hmissing⟩
    exact Or.inr ⟨p, rfl, hparent, hmissing⟩

theorem nodup_itemFaults : (net.itemFaults item).Nodup := by
  have hmissing : ((item.parent.filter fun parent => !net.contains parent).toList.map
      (Fault.unknownParent item.id)).Nodup := by
    cases (item.parent.filter fun parent => !net.contains parent) with
    | none => exact List.nodup_nil
    | some parent => exact List.nodup_singleton _
  rw [itemFaults]
  cases item.start with
  | none => exact hmissing
  | some start =>
    cases item.due with
    | none => exact hmissing
    | some due =>
      by_cases hlt : due < start
      · simpa [hlt] using hmissing
      · simpa [hlt] using hmissing

/-- No item is listed twice, so no fault of an item is. -/
theorem count_itemFaults : (net.itemList.flatMap net.itemFaults).count f =
    if ∃ item ∈ net.itemList, f ∈ net.itemFaults item then 1 else 0 := by
  have hids : net.itemList.Pairwise fun a b => a.id ≠ b.id :=
    List.pairwise_map.mp (ItemId.nodup_of_ordered ordered_itemList)
  have hnodup : (net.itemList.flatMap net.itemFaults).Nodup := by
    refine List.nodup_flatMap.mpr ⟨fun _ _ => nodup_itemFaults, hids.imp fun {a b} hne f ha hb => ?_⟩
    rcases mem_itemFaults.mp ha with ⟨_, _, rfl, _⟩ | ⟨_, rfl, _⟩
    · rcases mem_itemFaults.mp hb with ⟨_, _, he, _⟩ | ⟨_, he, _⟩
      · exact hne (Fault.invertedDates.inj he).1
      · cases he
    · rcases mem_itemFaults.mp hb with ⟨_, _, he, _⟩ | ⟨_, he, _⟩
      · cases he
      · exact hne (Fault.unknownParent.inj he).1
  rw [hnodup.count]
  simp only [List.mem_flatMap]

theorem kind_of_mem_itemFaults (h : f ∈ net.itemFaults item) :
    f.kind = .invertedDates ∨ f.kind = .danglingParent := by
  rcases mem_itemFaults.mp h with ⟨_, _, rfl, _⟩ | ⟨_, rfl, _⟩
  · exact Or.inl rfl
  · exact Or.inr rfl

/-! ## Faults of links -/

theorem inSameChain_iff_sameChain (hne : p ≠ s) :
    net.inSameChain p s = true ↔ net.SameChain p s := by
  rw [inSameChain, Bool.or_eq_true, isAncestor_iff, isAncestor_iff, SameChain, or_comm]
  exact or_congr (and_iff_right hne.symm) (and_iff_right hne)

theorem kind_of_mem_faultsOfLink (h : f ∈ net.faultsOfLink l) :
    f.kind = .danglingLink ∨ f.kind = .selfLink ∨ f.kind = .ancestorLink := by
  rw [faultsOfLink, List.mem_append, List.mem_map] at h
  rcases h with ⟨_, _, rfl⟩ | h
  · exact Or.inl rfl
  · split at h
    · rw [List.mem_singleton.mp h]
      exact Or.inr (Or.inl rfl)
    · split at h
      · rw [List.mem_singleton.mp h]
        exact Or.inr (Or.inr rfl)
      · cases h

theorem count_unknownEnd : (net.faultsOfLink l).count (.unknownEnd p s m) =
    if l.predecessor = p ∧ l.successor = s then
      if net.contains m = false then [p, s].count m else 0
    else 0 := by
  have hlater : (if l.isLoop then [Fault.selfLink l.predecessor]
      else if net.inSameChain l.predecessor l.successor then
        [.ancestorLink l.predecessor l.successor]
      else []).count (.unknownEnd p s m) = 0 := by
    split
    · simp
    · split <;> simp
  rw [faultsOfLink, List.count_append, hlater, Nat.add_zero]
  split
  · rename_i hends
    obtain ⟨rfl, rfl⟩ := hends
    rw [List.count_map_of_injective _ _ fun _ _ he => (Fault.unknownEnd.inj he).2.2]
    split
    · rename_i hmissing
      exact List.count_filter (by simp [hmissing])
    · rename_i hfound
      exact List.count_eq_zero.mpr fun hm => hfound (by simpa using (List.mem_filter.mp hm).2)
  · rename_i hends
    refine List.count_eq_zero.mpr fun hm => hends ?_
    obtain ⟨_, _, he⟩ := List.mem_map.mp hm
    obtain ⟨hp, hs, _⟩ := Fault.unknownEnd.inj he
    exact ⟨hp, hs⟩

/-- The missing ends aside, a link is at fault by leading from an item to itself or along a parent chain. -/
theorem count_faultsOfLink (hkind : f.kind ≠ .danglingLink) : (net.faultsOfLink l).count f =
    (if l.predecessor = l.successor then [.selfLink l.predecessor]
      else if net.inSameChain l.predecessor l.successor then
        [.ancestorLink l.predecessor l.successor]
      else []).count f := by
  have hends : (([l.predecessor, l.successor].filter fun id => !net.contains id).map
      (Fault.unknownEnd l.predecessor l.successor)).count f = 0 := by
    refine List.count_eq_zero.mpr fun hm => hkind ?_
    obtain ⟨_, _, rfl⟩ := List.mem_map.mp hm
    rfl
  simp only [faultsOfLink, List.count_append, hends, Nat.zero_add, Link.isLoop, decide_eq_true_eq]

theorem count_selfLink : (net.faultsOfLink l).count (.selfLink x) =
    if l.predecessor = x ∧ l.successor = x then 1 else 0 := by
  rw [count_faultsOfLink (by simp [Fault.kind])]
  by_cases hself : l.predecessor = l.successor
  · simp [hself, List.count_singleton]
  · have hends : ¬ (l.predecessor = x ∧ l.successor = x) := fun h => hself (h.1.trans h.2.symm)
    rw [if_neg hself, if_neg hends]
    split
    · simp
    · rfl

open Classical in
theorem count_ancestorLink : (net.faultsOfLink l).count (.ancestorLink p s) =
    if l.predecessor = p ∧ l.successor = s then
      if p ≠ s ∧ net.SameChain p s then 1 else 0
    else 0 := by
  rw [count_faultsOfLink (by simp [Fault.kind])]
  by_cases hself : l.predecessor = l.successor
  · have hnone : ([.selfLink l.predecessor] : List Fault).count (.ancestorLink p s) = 0 := by simp
    rw [if_pos hself, hnone]
    split
    · rename_i hends
      have heq : ¬ (p ≠ s ∧ net.SameChain p s) := fun h => h.1 (hends.1 ▸ hends.2 ▸ hself)
      rw [if_neg heq]
    · rfl
  · have hchain : net.inSameChain l.predecessor l.successor = true ↔
        net.SameChain l.predecessor l.successor := inSameChain_iff_sameChain hself
    rw [if_neg hself]
    split
    · rename_i hin
      by_cases hends : l.predecessor = p ∧ l.successor = s
      · obtain ⟨rfl, rfl⟩ := hends
        simp [hself, hchain.mp hin]
      · have hne : Fault.ancestorLink l.predecessor l.successor ≠ .ancestorLink p s := fun he =>
          hends (Fault.ancestorLink.inj he)
        rw [if_neg hends, List.count_singleton, beq_false_of_ne hne]
        rfl
    · rename_i hout
      by_cases hends : l.predecessor = p ∧ l.successor = s
      · obtain ⟨rfl, rfl⟩ := hends
        simp [hchain.not.mp hout]
      · rw [if_neg hends]
        rfl

/-- A fault that each link from `p` to `s` has equally often. -/
theorem count_flatMap_faultsOfLink {n : Nat} (h : ∀ l, (net.faultsOfLink l).count f =
    if l.predecessor = p ∧ l.successor = s then n else 0) :
    (net.links.flatMap net.faultsOfLink).count f = net.linkCount p s * n := by
  rw [linkCount]
  induction net.links with
  | nil => simp
  | cons l rest ih =>
    rw [List.flatMap_cons, List.count_append, ih, h, List.countP_cons]
    by_cases hends : l.predecessor = p ∧ l.successor = s
    · simp [hends, Nat.add_mul, Nat.add_comm]
    · simp [hends]

/-! ## Cycles -/

theorem cyclicItem?_eq_some_iff : net.cyclicItem? = some x ↔
    (net.contains x = true ∧ net.LeadsToCycle x) ∧
      ∀ y, net.contains y = true → net.LeadsToCycle y → x ≤ y := by
  rw [cyclicItem?, ItemId.find?_eq_some_iff ordered_itemList]
  simp only [mem_ids, decide_eq_true_eq, mem_endless]

theorem mem_hierarchyCycles : x ∈ net.hierarchyCycles ↔
    TransGen net.Inside x x ∧ ∀ y, ReflTransGen net.Inside x y → x ≤ y := by
  simp only [hierarchyCycles, List.mem_filter, mem_ids, Bool.and_eq_true, containsItself_iff,
    List.all_eq_true, decide_eq_true_eq, ← mem_cons_ancestors]
  constructor
  · rintro ⟨_, hloop, hleast⟩
    exact ⟨hloop, List.forall_mem_cons.mpr ⟨ItemId.le_refl x, hleast⟩⟩
  · rintro ⟨hloop, hleast⟩
    obtain ⟨_, hinside, _⟩ := TransGen.head'_iff.mp hloop
    exact ⟨hinside.contains_left, hloop, (List.forall_mem_cons.mp hleast).2⟩

theorem nodup_hierarchyCycles : net.hierarchyCycles.Nodup :=
  (ItemId.nodup_of_ordered ordered_itemList).filter _

/-! ## The whole audit -/

theorem filter_itemFaults_eq_nil (hdates : k ≠ .invertedDates) (hparent : k ≠ .danglingParent) :
    (net.itemList.flatMap net.itemFaults).filter (·.kind = k) = [] := by
  refine List.filter_eq_nil_iff.mpr fun f hf hk => ?_
  obtain ⟨_, _, hf⟩ := List.mem_flatMap.mp hf
  rw [← of_decide_eq_true hk] at hdates hparent
  exact (kind_of_mem_itemFaults hf).elim hdates hparent

theorem filter_faultsOfLink_eq_nil (hend : k ≠ .danglingLink) (hself : k ≠ .selfLink)
    (hancestor : k ≠ .ancestorLink) :
    (net.links.flatMap net.faultsOfLink).filter (·.kind = k) = [] := by
  refine List.filter_eq_nil_iff.mpr fun f hf hk => ?_
  obtain ⟨_, _, hf⟩ := List.mem_flatMap.mp hf
  rw [← of_decide_eq_true hk] at hend hself hancestor
  exact (kind_of_mem_faultsOfLink hf).elim hend (·.elim hself hancestor)

theorem filter_map_fault {ids : List ItemId} (fault : ItemId → Fault) {k' : FaultKind}
    (h : ∀ x, (fault x).kind = k') :
    (ids.map fault).filter (·.kind = k) = if k' = k then ids.map fault else [] := by
  rw [List.filter_map, Function.comp_def]
  split <;> simp [*]

theorem filter_faults : net.faults.filter (·.kind = k) =
    (net.itemList.flatMap net.itemFaults).filter (·.kind = k) ++
      (net.links.flatMap net.faultsOfLink).filter (·.kind = k) ++
      (if .cyclicDependency = k then net.cyclicItem?.toList.map .cyclicDependency else []) ++
      if .hierarchyCycle = k then net.hierarchyCycles.map .hierarchyCycle else [] := by
  rw [faults, List.filter_append, List.filter_append, List.filter_append,
    filter_map_fault .cyclicDependency fun _ => rfl, filter_map_fault .hierarchyCycle fun _ => rfl]

theorem filter_faults_cyclicDependency : net.faults.filter (·.kind = .cyclicDependency) =
    net.cyclicItem?.toList.map .cyclicDependency := by
  simp [filter_faults, filter_itemFaults_eq_nil, filter_faultsOfLink_eq_nil]

theorem filter_faults_hierarchyCycle : net.faults.filter (·.kind = .hierarchyCycle) =
    net.hierarchyCycles.map .hierarchyCycle := by
  simp [filter_faults, filter_itemFaults_eq_nil, filter_faultsOfLink_eq_nil]

theorem count_filter_kind (l : List Fault) : (l.filter (·.kind = f.kind)).count f = l.count f :=
  List.count_filter (decide_eq_true rfl)

/-- A fault of an item is one of those that are looked for in items. -/
theorem count_faults_item (h : f.kind = .invertedDates ∨ f.kind = .danglingParent) :
    net.faults.count f = (net.itemList.flatMap net.itemFaults).count f := by
  have hparts : net.faults.filter (·.kind = f.kind) =
      (net.itemList.flatMap net.itemFaults).filter (·.kind = f.kind) := by
    rcases h with h | h <;> simp [filter_faults, h, filter_faultsOfLink_eq_nil]
  rw [← count_filter_kind, hparts, count_filter_kind]

/-- A fault of a link is one of those that are looked for in links. -/
theorem count_faults_link (h : f.kind = .danglingLink ∨ f.kind = .selfLink ∨ f.kind = .ancestorLink) :
    net.faults.count f = (net.links.flatMap net.faultsOfLink).count f := by
  have hparts : net.faults.filter (·.kind = f.kind) =
      (net.links.flatMap net.faultsOfLink).filter (·.kind = f.kind) := by
    rcases h with h | h | h <;> simp [filter_faults, h, filter_itemFaults_eq_nil]
  rw [← count_filter_kind, hparts, count_filter_kind]

/-- An audit reports each fault as often as it is there. -/
theorem count_faults (f : Fault) : net.faults.count f = net.occurrences f := by
  cases f with
  | invertedDates x start due =>
    refine (count_faults_item (Or.inl rfl)).trans (count_itemFaults.trans (if_congr ?_ rfl rfl))
    simp only [mem_itemFaults_invertedDates]
    exact exists_mem_itemList_iff
  | unknownParent x parent =>
    refine (count_faults_item (Or.inr rfl)).trans (count_itemFaults.trans (if_congr ?_ rfl rfl))
    simp only [mem_itemFaults_unknownParent]
    rw [exists_mem_itemList_iff, parent?, Option.bind_eq_some_iff]
    simp only [← and_assoc, exists_and_right]
  | unknownEnd p s missing =>
    rw [count_faults_link (Or.inl rfl), count_flatMap_faultsOfLink fun _ => count_unknownEnd,
      occurrences]
    split <;> simp
  | selfLink x =>
    rw [count_faults_link (Or.inr (Or.inl rfl)), count_flatMap_faultsOfLink fun _ => count_selfLink,
      occurrences, Nat.mul_one]
  | ancestorLink p s =>
    rw [count_faults_link (Or.inr (Or.inr rfl)),
      count_flatMap_faultsOfLink fun _ => count_ancestorLink, occurrences]
    split <;> simp
  | cyclicDependency x =>
    have hpart : net.faults.count (.cyclicDependency x) = net.cyclicItem?.toList.count x := by
      rw [← count_filter_kind, Fault.kind, filter_faults_cyclicDependency,
        List.count_map_of_injective _ _ fun _ _ => Fault.cyclicDependency.inj]
    simp only [hpart, occurrences, ← cyclicItem?_eq_some_iff]
    cases net.cyclicItem? with
    | none => simp
    | some y => simp [List.count_singleton]
  | hierarchyCycle x =>
    have hpart : net.faults.count (.hierarchyCycle x) = net.hierarchyCycles.count x := by
      rw [← count_filter_kind, Fault.kind, filter_faults_hierarchyCycle,
        List.count_map_of_injective _ _ fun _ _ => Fault.hierarchyCycle.inj]
    simp only [hpart, occurrences, ← mem_hierarchyCycles, nodup_hierarchyCycles.count]

theorem faults_eq_nil_iff_sound : net.faults = [] ↔ net.Intact ∧
    (∀ x s, net.span? x = some s → s.InOrder) ∧
    (∀ l ∈ net.links, l.predecessor ≠ l.successor ∧ ¬ net.SameChain l.predecessor l.successor) ∧
    net.LoopFree := by
  have hapart : ∀ l : Link, (l.predecessor ≠ l.successor ∧
      net.inSameChain l.predecessor l.successor = false) ↔
        l.predecessor ≠ l.successor ∧ ¬ net.SameChain l.predecessor l.successor := fun l =>
    and_congr_right fun hne => by rw [← Bool.not_eq_true, inSameChain_iff_sameChain hne]
  rw [faults_eq_nil_iff]
  constructor
  · exact fun h => ⟨h.intact, h.inOrder, fun l hl => (hapart l).mp (h.apart l hl), h.loopFree⟩
  · exact fun ⟨hintact, horder, hlinks, hloops⟩ =>
      ⟨hintact, horder, fun l hl => (hapart l).mpr (hlinks l hl), hloops⟩

open Classical in
theorem countP_cyclicDependency : net.faults.countP (·.kind = .cyclicDependency) =
    if ∃ x, net.contains x = true ∧ net.LeadsToCycle x then 1 else 0 := by
  have hsome : net.cyclicItem?.isSome = true ↔
      ∃ x, net.contains x = true ∧ net.LeadsToCycle x := by
    rw [cyclicItem?, List.find?_isSome]
    simp only [mem_ids, decide_eq_true_eq, mem_endless]
  rw [List.countP_eq_length_filter, filter_faults_cyclicDependency, List.length_map]
  simp only [← hsome]
  cases net.cyclicItem? <;> rfl

open Classical in
/-- **An audit finds what is wrong, all of it, and nothing else.** It finds nothing exactly if parents and
ends of links are items, links run in no circle, no item is due before it starts, no link leads from an item
to itself or along a parent chain, and no parent chain comes back to where it starts. Each fault is listed
as often as it is there, and at most one cycle of links is: the one that descents along the links from the
items one after the other find, which always end. -/
theorem faults_exact (net : Network) :
    (net.faults = [] ↔ net.Intact ∧ (∀ x s, net.span? x = some s → s.InOrder) ∧
      (∀ l ∈ net.links, l.predecessor ≠ l.successor ∧ ¬ net.SameChain l.predecessor l.successor) ∧
      net.LoopFree) ∧
    (∀ f, net.faults.count f = net.occurrences f) ∧
    (net.faults.countP (·.kind = .cyclicDependency) =
      if ∃ x, net.contains x = true ∧ net.LeadsToCycle x then 1 else 0) ∧
    ∃ found, net.descend = some found ∧
      net.faults.filter (·.kind = .cyclicDependency) = found.toList.map .cyclicDependency :=
  ⟨faults_eq_nil_iff_sound, count_faults, countP_cyclicDependency, net.cyclicItem?, descend_eq,
    filter_faults_cyclicDependency⟩

end Network

end WorkPlan
