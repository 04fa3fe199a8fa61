import WorkPlan.Countdown
import WorkPlan.Proofs.Dependence

/-! # Arranging by counting

The counts of a tally are the numbers of needs (`says_ofNeeds`). While items are taken, each count stays
the number of needs that are still to be taken, and ready is what has none of them left (`Open`). So an item
that loses a need has one to lose, and no count falls below zero (`Open.exists_count`). A count comes down
to zero with the last need, and only then (`length_filter_eq_one_iff`), so that what is ready stays right
(`Open.take`). Counting therefore never fails, and takes the same items as looking through the list each
time (`arrange_eq`). -/

namespace WorkPlan
open Relation

/-! ## Tallies -/

namespace Tally
variable {t : Tally} {ids : List ItemId} {entries : List (ItemId × ItemId)} {x need : ItemId}

/-- Whether a tally holds the needs of some items: each entry names an item and one that it needs. -/
structure Says (t : Tally) (ids : List ItemId) (entries : List (ItemId × ItemId)) : Prop where
  counts : ∀ x, t.counts[x]? = if x ∈ ids then some (entries.countP (·.1 = x)) else none
  dependents : ∀ need x, x ∈ t.dependents.getD need ∅ ↔ (x, need) ∈ entries

theorem says_zero (h : ids.Nodup) : (zero ids).Says ids [] where
  counts x := by
    split
    · rename_i hx
      refine Std.ExtTreeMap.getElem?_ofList_of_mem Std.ReflCmp.compare_self ?_
        (List.mem_map.mpr ⟨x, hx, rfl⟩)
      rw [List.pairwise_map]
      exact h.imp fun hne he => hne (Std.LawfulEqCmp.eq_of_compare he)
    · rename_i hx
      refine Std.ExtTreeMap.getElem?_ofList_of_contains_eq_false ?_
      simpa using hx
  dependents need x := by simp [zero]

theorem Says.note (h : t.Says ids entries) (hnew : (x, need) ∉ entries) (hx : x ∈ ids) :
    (t.note x need).Says ids (entries ++ [(x, need)]) := by
  rw [Tally.note, if_neg ((h.dependents need x).not.mpr hnew)]
  constructor
  case counts =>
    intro y
    rw [Std.ExtTreeMap.getElem?_alter, List.countP_append]
    simp only [Std.compare_eq_iff_eq]
    split
    · rename_i hxy
      rw [← hxy, h.counts, if_pos hx]
      simp [hx]
    · rename_i hxy
      rw [h.counts]
      simp [hxy]
  case dependents =>
    intro other y
    rw [Std.ExtTreeMap.getD_insert, List.mem_append, List.mem_singleton, Prod.mk.injEq]
    simp only [Std.compare_eq_iff_eq]
    split
    · rename_i hother
      rw [Std.ExtTreeSet.mem_insert, Std.compare_eq_iff_eq, ← hother, h.dependents]
      simp [eq_comm, or_comm]
    · rename_i hother
      rw [h.dependents]
      simp [Ne.symm hother]

theorem says_foldl (hids : ids.Nodup) (hn : entries.Nodup) (h : ∀ entry ∈ entries, entry.1 ∈ ids) :
    (entries.foldl (fun t entry => t.note entry.1 entry.2) (zero ids)).Says ids entries := by
  induction entries using List.reverseRecOn with
  | nil => exact says_zero hids
  | append_singleton entries entry ih =>
    obtain ⟨hn, _, hnew⟩ := List.nodup_append.mp hn
    rw [List.foldl_append]
    refine (ih hn fun e he => h e (List.mem_append_left _ he)).note ?_ (h entry (by simp))
    exact fun hmem => hnew entry hmem entry (List.mem_singleton_self entry) rfl

variable {needs : ItemId → List ItemId}

theorem nodup_entries (hids : ids.Nodup) (hneeds : ∀ x ∈ ids, (needs x).Nodup) :
    (ids.flatMap fun x => (needs x).map fun need => (x, need)).Nodup := by
  refine List.nodup_flatMap.mpr ⟨fun x hx => (hneeds x hx).map fun _ _ => by simp, ?_⟩
  refine hids.imp fun {a b} hab entry ha hb => ?_
  obtain ⟨_, _, rfl⟩ := List.mem_map.mp ha
  obtain ⟨_, _, he⟩ := List.mem_map.mp hb
  exact hab (congrArg Prod.fst he).symm

theorem countP_entries (hids : ids.Nodup) (hx : x ∈ ids) :
    (ids.flatMap fun x => (needs x).map fun need => (x, need)).countP (·.1 = x) =
      (needs x).length := by
  induction ids with
  | nil => cases hx
  | cons first rest ih =>
    obtain ⟨hfirst, hrest⟩ := List.nodup_cons.mp hids
    rw [List.flatMap_cons, List.countP_append, List.countP_map]
    rcases List.mem_cons.mp hx with rfl | hx
    · have hnone : (rest.flatMap fun x => (needs x).map fun need => (x, need)).countP (·.1 = x) = 0 := by
        rw [List.countP_eq_zero]
        intro entry hentry
        obtain ⟨y, hy, hentry⟩ := List.mem_flatMap.mp hentry
        obtain ⟨_, _, rfl⟩ := List.mem_map.mp hentry
        simp only [decide_eq_true_eq]
        rintro rfl
        exact hfirst hy
      rw [hnone]
      simp [Function.comp_def]
    · have hne : first ≠ x := fun he => hfirst (he ▸ hx)
      rw [ih hrest hx]
      simp [Function.comp_def, hne]

/-- A tally of needs counts the needs of each item, and lists for each item those that need it. -/
theorem ofNeeds_spec (hids : ids.Nodup) (hneeds : ∀ x ∈ ids, (needs x).Nodup) :
    (∀ x, (ofNeeds needs ids).counts[x]? = if x ∈ ids then some (needs x).length else none) ∧
      ∀ need x, x ∈ (ofNeeds needs ids).dependents.getD need ∅ ↔ x ∈ ids ∧ need ∈ needs x := by
  have hmem : ∀ x need, (x, need) ∈ (ids.flatMap fun x => (needs x).map fun need => (x, need)) ↔
      x ∈ ids ∧ need ∈ needs x := by
    intro x need
    simp only [List.mem_flatMap, List.mem_map, Prod.mk.injEq]
    constructor
    · rintro ⟨_, hx, _, hneed, rfl, rfl⟩
      exact ⟨hx, hneed⟩
    · rintro ⟨hx, hneed⟩
      exact ⟨x, hx, need, hneed, rfl, rfl⟩
  have hsays := says_foldl hids (nodup_entries hids hneeds)
    fun entry hentry => ((hmem entry.1 entry.2).mp hentry).1
  constructor
  · intro x
    rw [ofNeeds, hsays.counts]
    split
    · rename_i hx
      rw [countP_entries hids hx]
    · rfl
  · intro need x
    rw [ofNeeds, hsays.dependents, hmem]

end Tally

/-! ## Taking an item -/

namespace Countdown
variable {c : Countdown} {needs : ItemId → List ItemId} {ids rest : List ItemId} {x id : ItemId}

/-- Lowering counts that are not zero succeeds, and makes ready what had one open need left. -/
theorem foldlM_lower {items : List ItemId} (hn : items.Nodup)
    (h : ∀ x ∈ items, ∃ count, c.counts[x]? = some (count + 1)) :
    ∃ c', items.foldlM lower c = some c' ∧
      (∀ x, c'.counts[x]? = if x ∈ items then c.counts[x]?.map (· - 1) else c.counts[x]?) ∧
      ∀ x, x ∈ c'.ready ↔ x ∈ c.ready ∨ x ∈ items ∧ c.counts[x]? = some 1 := by
  induction items generalizing c with
  | nil => exact ⟨c, rfl, by simp, by simp⟩
  | cons first items ih =>
    obtain ⟨hfirst, hn⟩ := List.nodup_cons.mp hn
    obtain ⟨count, hcount⟩ := h first List.mem_cons_self
    have hlower : c.lower first =
        some ⟨c.counts.insert first count, if count = 0 then c.ready.insert first else c.ready⟩ := by
      rw [lower, hcount]
    have hcounts : ∀ x, (c.counts.insert first count)[x]? =
        if first = x then some count else c.counts[x]? := fun x => by
      simp only [Std.ExtTreeMap.getElem?_insert, Std.compare_eq_iff_eq]
    obtain ⟨c', hc', hc'counts, hc'ready⟩ := ih (c := ⟨c.counts.insert first count,
      if count = 0 then c.ready.insert first else c.ready⟩) hn fun x hx => by
        have hne : first ≠ x := fun he => hfirst (he ▸ hx)
        rw [hcounts, if_neg hne]
        exact h x (List.mem_cons_of_mem _ hx)
    refine ⟨c', by rw [List.foldlM_cons, hlower]; exact hc', fun x => ?_, fun x => ?_⟩
    · rw [hc'counts, hcounts]
      by_cases hx : first = x
      · subst hx
        simp [hfirst, hcount]
      · simp [hx, Ne.symm hx]
    · rw [hc'ready, hcounts]
      by_cases hx : first = x
      · subst hx
        rw [hcount]
        split <;> simp_all
      · split <;> simp [hx, Ne.symm hx]

/-- Whether a countdown is right about what is left: each count is the number of needs that are left, and
ready is what is left and has none. Needs of what was taken are not left. -/
structure Open (needs : ItemId → List ItemId) (ids rest : List ItemId) (c : Countdown) : Prop where
  counts : ∀ x, c.counts[x]? = if x ∈ ids then some ((needs x).filter (· ∈ rest)).length else none
  ready : ∀ x, x ∈ c.ready ↔ x ∈ rest ∧ ∀ y ∈ needs x, y ∉ rest
  taken : ∀ x ∈ ids, x ∉ rest → ∀ y ∈ needs x, y ∉ rest
  subset : rest ⊆ ids

/-- An item that needs the one that is taken has one open need fewer. -/
theorem length_filter_erase {items : List ItemId} (hn : items.Nodup) (hrest : rest.Nodup)
    (hid : id ∈ rest) : (items.filter (· ∈ rest.erase id)).length =
      (items.filter (· ∈ rest)).length - if id ∈ items then 1 else 0 := by
  have herase : items.filter (· ∈ rest.erase id) = (items.filter (· ∈ rest)).erase id := by
    rw [(hn.filter _).erase_eq_filter, List.filter_filter]
    refine List.filter_congr fun y _ => ?_
    simp only [hrest.mem_erase_iff, Bool.decide_and, decide_not, bne, beq_eq_decide]
  rw [herase, List.length_erase]
  simp only [List.mem_filter, decide_eq_true_eq, hid, and_true]
  split <;> rfl

theorem length_filter_pos {items : List ItemId} (hid : id ∈ rest) (hneed : id ∈ items) :
    0 < (items.filter (· ∈ rest)).length :=
  List.length_pos_of_mem (List.mem_filter.mpr ⟨hneed, by simpa using hid⟩)

/-- A count comes down to zero with the need that is taken exactly if no other need is left. -/
theorem length_filter_eq_one_iff {items : List ItemId} (hn : items.Nodup) (hrest : rest.Nodup)
    (hid : id ∈ rest) (hneed : id ∈ items) :
    (items.filter (· ∈ rest)).length = 1 ↔ ∀ y ∈ items, y ∉ rest.erase id := by
  have hpos := length_filter_pos hid hneed
  have hcount := length_filter_erase hn hrest hid
  rw [if_pos hneed] at hcount
  have hnone : (items.filter (· ∈ rest.erase id)).length = 0 ↔ ∀ y ∈ items, y ∉ rest.erase id := by
    simp
  rw [← hnone]
  omega

namespace Open
variable (h : c.Open needs ids rest)
include h

theorem exists_count (hid : id ∈ rest) (hx : x ∈ ids) (hneed : id ∈ needs x) :
    ∃ count, c.counts[x]? = some (count + 1) := by
  obtain ⟨count, hcount⟩ := Nat.exists_eq_add_one_of_ne_zero (length_filter_pos hid hneed).ne'
  exact ⟨count, by rw [h.counts, if_pos hx, hcount]⟩

theorem counts_erase (hneeds : ∀ x ∈ ids, (needs x).Nodup) (hrest : rest.Nodup) (hid : id ∈ rest) :
    (if x ∈ ids ∧ id ∈ needs x then c.counts[x]?.map (· - 1) else c.counts[x]?) =
      if x ∈ ids then some ((needs x).filter (· ∈ rest.erase id)).length else none := by
  rw [h.counts]
  by_cases hx : x ∈ ids
  · rw [if_pos hx, if_pos hx, length_filter_erase (hneeds x hx) hrest hid]
    by_cases hneed : id ∈ needs x <;> simp [hx, hneed]
  · simp [hx]

/-- Once an item is taken, ready is what was ready before, and what had this one need left. -/
theorem ready_erase (hneeds : ∀ x ∈ ids, (needs x).Nodup) (hrest : rest.Nodup) (hid : id ∈ c.ready) :
    x ∈ c.ready.erase id ∨ (x ∈ ids ∧ id ∈ needs x) ∧ c.counts[x]? = some 1 ↔
      x ∈ rest.erase id ∧ ∀ y ∈ needs x, y ∉ rest.erase id := by
  obtain ⟨hleft, hfree⟩ := (h.ready id).mp hid
  have hone : x ∈ ids → id ∈ needs x →
      (c.counts[x]? = some 1 ↔ ∀ y ∈ needs x, y ∉ rest.erase id) := by
    intro hx hneed
    rw [h.counts, if_pos hx, Option.some.injEq]
    exact length_filter_eq_one_iff (hneeds x hx) hrest hleft hneed
  rw [Std.ExtTreeSet.mem_erase, ne_eq, Std.compare_eq_iff_eq, h.ready, hrest.mem_erase_iff]
  constructor
  · rintro (⟨hne, hx, hfree⟩ | ⟨⟨hx, hneed⟩, hcount⟩)
    · exact ⟨⟨Ne.symm hne, hx⟩, fun y hy hmem => hfree y hy (List.mem_of_mem_erase hmem)⟩
    · refine ⟨⟨fun he => hfree id (he ▸ hneed) hleft, ?_⟩, (hone hx hneed).mp hcount⟩
      by_contra hgone
      exact h.taken x hx hgone id hneed hleft
  · rintro ⟨⟨hne, hx⟩, hfree⟩
    by_cases hneed : id ∈ needs x
    · exact Or.inr ⟨⟨h.subset hx, hneed⟩, (hone (h.subset hx) hneed).mpr hfree⟩
    · refine Or.inl ⟨Ne.symm hne, hx, fun y hy hmem => hfree y hy ?_⟩
      exact hrest.mem_erase_iff.mpr ⟨fun he => hneed (he ▸ hy), hmem⟩

theorem taken_erase (hid : id ∈ c.ready) (hx : x ∈ ids) (hgone : x ∉ rest.erase id) :
    ∀ y ∈ needs x, y ∉ rest.erase id := by
  obtain ⟨_, hfree⟩ := (h.ready id).mp hid
  intro y hy hmem
  refine (?_ : y ∉ rest) (List.mem_of_mem_erase hmem)
  by_cases hxid : x = id
  · exact hfree y (hxid ▸ hy)
  · exact h.taken x hx (fun hmem => hgone ((List.mem_erase_of_ne hxid).mpr hmem)) y hy

end Open

theorem Open.take {dependents : IdMap (Std.ExtTreeSet ItemId)} (h : c.Open needs ids rest)
    (hneeds : ∀ x ∈ ids, (needs x).Nodup) (hrest : rest.Nodup)
    (hdep : ∀ need x, x ∈ dependents.getD need ∅ ↔ x ∈ ids ∧ need ∈ needs x) (hid : id ∈ c.ready) :
    ∃ c', (dependents.getD id ∅).toList.foldlM lower { c with ready := c.ready.erase id } = some c' ∧
      c'.Open needs ids (rest.erase id) := by
  obtain ⟨hleft, _⟩ := (h.ready id).mp hid
  have hmem : ∀ x, x ∈ (dependents.getD id ∅).toList ↔ x ∈ ids ∧ id ∈ needs x := fun x => by
    rw [Std.ExtTreeSet.mem_toList, hdep]
  have hpositive : ∀ x ∈ (dependents.getD id ∅).toList, ∃ count, c.counts[x]? = some (count + 1) := by
    intro x hx
    obtain ⟨hx, hneed⟩ := (hmem x).mp hx
    exact h.exists_count hleft hx hneed
  have hnodup : (dependents.getD id ∅).toList.Nodup :=
    ItemId.nodup_of_ordered Std.ExtTreeSet.ordered_toList
  obtain ⟨c', hc', hcounts, hready⟩ :=
    foldlM_lower (c := { c with ready := c.ready.erase id }) hnodup hpositive
  refine ⟨c', hc', ?_⟩
  constructor
  case counts =>
    intro x
    rw [hcounts, ← h.counts_erase hneeds hrest hleft]
    simp only [hmem]
  case ready =>
    intro x
    rw [hready, hmem]
    exact h.ready_erase hneeds hrest hid
  case taken => exact fun x hx hgone => h.taken_erase hid hx hgone
  case subset => exact fun x hx => h.subset (List.mem_of_mem_erase hx)

/-- Counting takes what is found by looking through what is left. -/
theorem Open.run {dependents : IdMap (Std.ExtTreeSet ItemId)} (h : c.Open needs ids rest)
    (hneeds : ∀ x ∈ ids, (needs x).Nodup) (hrest : rest.Pairwise (compare · · = .lt))
    (hdep : ∀ need x, x ∈ dependents.getD need ∅ ↔ x ∈ ids ∧ need ∈ needs x) :
    Countdown.run dependents (rest.length + 1) c =
      some (Arrangement.take needs rest.length rest).order := by
  induction hn : rest.length generalizing rest c with
  | zero =>
    have hnone : c.ready.min? = none := by
      rw [Std.ExtTreeSet.min?_eq_none_iff]
      refine Std.ExtTreeSet.ext_mem fun x => ?_
      simp [h.ready, List.length_eq_zero_iff.mp hn]
    rw [Countdown.run, hnone]
    rfl
  | succ n ih =>
    rw [Countdown.run, Arrangement.take]
    have hready : ∀ x, x ∈ c.ready ↔ x ∈ rest ∧ ((needs x).all (· ∉ rest)) = true := fun x => by
      rw [h.ready, List.all_eq_true]
      simp only [decide_eq_true_eq]
    cases hmin : c.ready.min? with
    | none =>
      have hfind : (rest.find? fun id => (needs id).all (· ∉ rest)) = none := by
        refine List.find?_eq_none.mpr fun x hx hfree => ?_
        have hmem : x ∈ c.ready := (hready x).mpr ⟨hx, hfree⟩
        rw [Std.ExtTreeSet.min?_eq_none_iff.mp hmin] at hmem
        exact Std.ExtTreeSet.not_mem_empty hmem
      rw [hfind]
    | some id =>
      obtain ⟨hid, hle⟩ := Std.ExtTreeSet.min?_eq_some_iff_mem_and_forall.mp hmin
      obtain ⟨hleft, hfree⟩ := (hready id).mp hid
      have hfind := (ItemId.find?_eq_some_iff hrest).mpr ⟨⟨hleft, hfree⟩, fun y hy hy' =>
        ItemId.le_of_isLE (hle y ((hready y).mpr ⟨hy, hy'⟩))⟩
      obtain ⟨c', hc', hopen⟩ := h.take hneeds (ItemId.nodup_of_ordered hrest) hdep hid
      have hlater := ih hopen (hrest.sublist List.erase_sublist)
        (by rw [List.length_erase_of_mem hleft, hn, Nat.add_sub_cancel])
      simp only [hfind, hc', Option.bind_eq_bind, Option.bind_some, hlater, Option.pure_def]

theorem open_ofTally (hids : ids.Nodup) (hneeds : ∀ x ∈ ids, (needs x).Nodup)
    (hin : ∀ x ∈ ids, needs x ⊆ ids) : (ofTally (Tally.ofNeeds needs ids)).Open needs ids ids := by
  obtain ⟨hcounts, _⟩ := Tally.ofNeeds_spec hids hneeds
  have hall : ∀ x ∈ ids, (needs x).filter (· ∈ ids) = needs x := fun x hx =>
    List.filter_eq_self.mpr fun y hy => decide_eq_true (hin x hx hy)
  constructor
  case counts =>
    intro x
    rw [ofTally, hcounts]
    split
    · rename_i hx
      rw [hall x hx]
    · rfl
  case ready =>
    intro x
    rw [ofTally, Std.ExtTreeSet.mem_ofList, List.contains_iff_mem, List.mem_filter,
      Std.ExtTreeMap.mem_keys, Std.ExtTreeMap.mem_iff_isSome_getElem?, decide_eq_true_eq, hcounts]
    by_cases hx : x ∈ ids
    · simp only [hx, if_true, Option.isSome_some, true_and, Option.some.injEq]
      rw [List.length_eq_zero_iff, List.eq_nil_iff_forall_not_mem]
      exact forall_congr' fun y => ⟨fun h hy => absurd hy h, fun h hy => h hy (hin x hx hy)⟩
    · simp [hx]
  case taken => exact fun x hx hgone => absurd hx hgone
  case subset => exact fun _ hx => hx

/-- Counting never fails, and arranges items as looking through them does. -/
theorem arrange_eq (hids : ids.Pairwise (compare · · = .lt)) (hneeds : ∀ x ∈ ids, (needs x).Nodup)
    (hin : ∀ x ∈ ids, needs x ⊆ ids) :
    arrange needs ids = some (Arrangement.ofNeeds needs ids) := by
  have hnodup := ItemId.nodup_of_ordered hids
  have horder := (open_ofTally hnodup hneeds hin).run hneeds hids
    (Tally.ofNeeds_spec hnodup hneeds).2
  have hperm := Arrangement.perm_ofNeeds needs ids
  have hstuck : (if (Arrangement.ofNeeds needs ids).order.length < ids.length then
      ids.filter (· ∉ (Arrangement.ofNeeds needs ids).order) else []) =
      (Arrangement.ofNeeds needs ids).stuck := by
    split
    · refine ItemId.eq_of_ordered (hids.sublist List.filter_sublist)
        (hids.sublist Arrangement.stuck_sublist) fun x => ?_
      rw [List.mem_filter, decide_eq_true_eq, Arrangement.mem_stuck_iff_not_mem_order hnodup]
    · rename_i hlength
      have hsum := hperm.length_eq
      rw [List.length_append] at hsum
      exact (List.length_eq_zero_iff.mp (by omega)).symm
  rw [arrange, horder]
  exact congrArg some (congrArg (Arrangement.mk (Arrangement.ofNeeds needs ids).order) hstuck)

end Countdown

end WorkPlan
