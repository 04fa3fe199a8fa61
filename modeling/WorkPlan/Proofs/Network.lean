import Mathlib.Data.List.Perm.Subperm
import Mathlib.Data.String.Basic
import WorkPlan.Network.Ancestry

/-! # What the queries of a network say, and what an edit of it leaves alone

Every query comes down to three readings of a network: which items it holds, which parent each of
them names, and which links it lists. Children are told by parents (`mem_childrenOf`), and networks
whose items name the same parents list the same children in the same order (`childrenOf_congr`). -/

namespace WorkPlan

/-! ## The order of identifiers -/

namespace ItemId
variable {a b : ItemId} {l l' : List ItemId}

theorem le_refl (a : ItemId) : a ≤ a := le_rfl (α := String)

theorem le_of_lt (h : a < b) : a ≤ b := LT.lt.le (α := String) h

theorem le_antisymm (hab : a ≤ b) (hba : b ≤ a) : a = b :=
  ItemId.ext (LE.le.antisymm (α := String) hab hba)

theorem lt_of_compare (h : compare a b = .lt) : a < b := by
  have htext : compareOfLessAndEq a.text b.text = .lt := h
  exact (compareOfLessAndEq_eq_lt (x := a.text)).mp htext

theorem le_of_isLE (h : (compare a b).isLE = true) : a ≤ b := by
  rcases Ordering.isLE_iff_eq_lt_or_eq_eq.mp h with hlt | heq
  · exact le_of_lt (lt_of_compare hlt)
  · exact Std.LawfulEqCmp.eq_of_compare heq ▸ le_refl a

theorem nodup_of_ordered (h : l.Pairwise (compare · · = .lt)) : l.Nodup :=
  h.imp fun {a b} hab he => by
    rw [he, @Std.ReflCmp.compare_self ItemId compare _ b] at hab
    cases hab

/-- Lists in the order of identifiers are equal if they hold the same ones. -/
theorem eq_of_ordered (hl : l.Pairwise (compare · · = .lt)) (hl' : l'.Pairwise (compare · · = .lt))
    (h : ∀ id, id ∈ l ↔ id ∈ l') : l = l' := by
  refine ((List.perm_ext_iff_of_nodup (nodup_of_ordered hl) (nodup_of_ordered hl')).mpr
    h).eq_of_pairwise ?_ hl hl'
  intro a b _ _ hab hba
  rw [@Std.OrientedCmp.eq_swap ItemId compare _ a b, hba] at hab
  cases hab

/-- In a list in the order of identifiers, the first one of some kind is the smallest one. -/
theorem find?_eq_some_iff {p : ItemId → Bool} (hl : l.Pairwise (compare · · = .lt)) :
    l.find? p = some a ↔ (a ∈ l ∧ p a = true) ∧ ∀ b ∈ l, p b = true → a ≤ b := by
  have hfirst : ∀ c, l.find? p = some c → (c ∈ l ∧ p c = true) ∧ ∀ b ∈ l, p b = true → c ≤ b := by
    intro c hc
    obtain ⟨hpc, before, after, rfl, hbefore⟩ := List.find?_eq_some_iff_append.mp hc
    refine ⟨⟨by simp, hpc⟩, fun b hb hpb => ?_⟩
    rcases List.mem_append.mp hb with hb | hb
    · have hnot := hbefore b hb
      rw [hpb] at hnot
      cases hnot
    · rcases List.mem_cons.mp hb with rfl | hb
      · exact le_refl b
      · exact le_of_lt (lt_of_compare
          ((List.pairwise_cons.mp (List.pairwise_append.mp hl).2.1).1 b hb))
  refine ⟨hfirst a, fun ⟨⟨ha, hpa⟩, hleast⟩ => ?_⟩
  obtain ⟨c, hc⟩ := Option.ne_none_iff_exists'.mp fun hnone => List.find?_eq_none.mp hnone a ha hpa
  obtain ⟨⟨hmem, hpc⟩, hle⟩ := hfirst c hc
  rw [hc, le_antisymm (hle a ha hpa) (hleast c hmem hpc)]

end ItemId

namespace Network
variable {net net' : Network} {id : ItemId}

/-- The network of some items and links, put in one after the other. -/
def ofLists (items : List Item) (links : List Link) : Network :=
  links.foldl addLink (items.foldl insert empty)

/-! ## Items and parents -/

theorem contains_iff : net.contains id = true ↔ ∃ x, net.item? id = some x := by
  rw [contains_eq_isSome, Option.isSome_iff_exists]

theorem contains_eq_false_iff : net.contains id = false ↔ net.item? id = none := by
  rw [contains_eq_isSome, Option.isSome_eq_false_iff, Option.isNone_iff_eq_none]

theorem item?_empty : empty.item? id = none := Std.ExtTreeMap.getElem?_empty

theorem contains_eq_isSome_span? : net.contains id = (net.span? id).isSome := by
  rw [contains_eq_isSome, span?, Option.isSome_map]

theorem mem_keys : id ∈ net.items.keys ↔ net.contains id = true := by
  rw [Std.ExtTreeMap.mem_keys, contains, Std.ExtTreeMap.mem_iff_contains]

theorem span?_of_item? {x : Item} (h : net.item? id = some x) : net.span? id = some x.span := by
  rw [span?, h]; rfl

theorem parent?_of_item? {x : Item} (h : net.item? id = some x) : net.parent? id = x.parent := by
  rw [parent?, h]; rfl

theorem contains_of_parent? {p : ItemId} (h : net.parent? id = some p) :
    net.contains id = true := by
  obtain ⟨x, hx, _⟩ := Option.bind_eq_some_iff.mp h
  exact contains_iff.mpr ⟨x, hx⟩

theorem container?_eq_some_iff {p : ItemId} :
    net.container? id = some p ↔ net.parent? id = some p ∧ net.contains p = true := by
  rw [container?, Option.filter_eq_some_iff]

theorem mem_itemList {x : Item} : x ∈ net.itemList ↔ net.item? x.id = some x := by
  rw [itemList, List.mem_map]
  constructor
  · rintro ⟨⟨k, y⟩, hy, rfl⟩
    rw [Std.ExtTreeMap.mem_toList_iff_getElem?_eq_some] at hy
    rw [id_of_item? hy]
    exact hy
  · intro h
    exact ⟨(x.id, x), Std.ExtTreeMap.mem_toList_iff_getElem?_eq_some.mpr h, rfl⟩

theorem mem_itemList_of_item? {x : Item} (h : net.item? id = some x) :
    x ∈ net.itemList ∧ x.id = id := by
  have hid := id_of_item? h
  exact ⟨mem_itemList.mpr (hid ▸ h), hid⟩

theorem mem_ids : id ∈ net.itemList.map (·.id) ↔ net.contains id = true := by
  rw [List.mem_map, contains_iff]
  constructor
  · rintro ⟨x, hx, rfl⟩
    exact ⟨x, mem_itemList.mp hx⟩
  · rintro ⟨x, hx⟩
    exact ⟨x, mem_itemList_of_item? hx⟩

theorem exists_mem_itemList_iff {P : Item → Prop} :
    (∃ x ∈ net.itemList, x.id = id ∧ P x) ↔ ∃ x, net.item? id = some x ∧ P x := by
  constructor
  · rintro ⟨x, hx, rfl, h⟩
    exact ⟨x, mem_itemList.mp hx, h⟩
  · rintro ⟨x, hx, h⟩
    obtain ⟨hlisted, hid⟩ := mem_itemList_of_item? hx
    exact ⟨x, hlisted, hid, h⟩

theorem forall_contains_iff {P : ItemId → Prop} :
    (∀ x, net.contains x = true → P x) ↔ ∀ x ∈ net.itemList, P x.id := by
  constructor
  · exact fun h x hx => h x.id (contains_iff.mpr ⟨x, mem_itemList.mp hx⟩)
  · intro h x hx
    obtain ⟨item, hitem⟩ := contains_iff.mp hx
    obtain ⟨hmem, rfl⟩ := mem_itemList_of_item? hitem
    exact h item hmem

theorem forall_span?_iff {P : Span → Prop} :
    (∀ x s, net.span? x = some s → P s) ↔ ∀ x ∈ net.itemList, P x.span := by
  constructor
  · exact fun h x hx => h x.id x.span (span?_of_item? (mem_itemList.mp hx))
  · intro h x s hs
    obtain ⟨item, hitem, rfl⟩ := Option.map_eq_some_iff.mp hs
    exact h item (mem_itemList_of_item? hitem).1

theorem ordered_itemList : (net.itemList.map (·.id)).Pairwise (compare · · = .lt) := by
  have hkeys : net.itemList.map (·.id) = net.items.keys := by
    rw [itemList, List.map_map, ← Std.ExtTreeMap.map_fst_toList_eq_keys]
    apply List.map_congr_left
    rintro ⟨k, y⟩ hy
    exact id_of_item? (Std.ExtTreeMap.mem_toList_iff_getElem?_eq_some.mp hy)
  rw [hkeys]
  exact Std.ExtTreeMap.ordered_keys

/-! ## Children -/

theorem mem_childrenOf {c : ItemId} : c ∈ net.childrenOf id ↔ net.parent? c = some id := by
  simp only [childrenOf, List.mem_map, List.mem_filter, decide_eq_true_eq, mem_itemList]
  constructor
  · rintro ⟨x, ⟨hx, hp⟩, rfl⟩
    rw [parent?_of_item? hx, hp]
  · intro h
    obtain ⟨x, hx, hp⟩ := Option.bind_eq_some_iff.mp h
    have hid := id_of_item? hx
    exact ⟨x, ⟨hid ▸ hx, hp⟩, hid⟩

theorem ordered_childrenOf : (net.childrenOf id).Pairwise (compare · · = .lt) :=
  ordered_itemList.sublist (List.filter_sublist.map _)

theorem nodup_childrenOf : (net.childrenOf id).Nodup := ItemId.nodup_of_ordered ordered_childrenOf

theorem childrenOf_congr (h : ∀ c, net.parent? c = some id ↔ net'.parent? c = some id) :
    net.childrenOf id = net'.childrenOf id := by
  apply ItemId.eq_of_ordered ordered_childrenOf ordered_childrenOf
  intro c
  rw [mem_childrenOf, mem_childrenOf, h]

theorem hasChildren_iff : net.hasChildren id = true ↔ ∃ c, net.parent? c = some id := by
  simp only [hasChildren, Bool.not_eq_true', List.isEmpty_eq_false_iff_exists_mem, mem_childrenOf]

theorem hasChildren_eq_false_iff : net.hasChildren id = false ↔ ∀ c, net.parent? c ≠ some id := by
  rw [← Bool.not_eq_true, hasChildren_iff, not_exists]

/-! ## Links -/

theorem mem_linksFrom {l : Link} : l ∈ net.linksFrom id ↔ l ∈ net.links ∧ l.predecessor = id := by
  simp [linksFrom]

theorem mem_linksInto {l : Link} : l ∈ net.linksInto id ↔ l ∈ net.links ∧ l.successor = id := by
  simp [linksInto]

theorem mem_links_addLink {l m : Link} : l ∈ (net.addLink m).links ↔ l ∈ net.links ∨ l = m := by
  unfold addLink
  split
  · rename_i hm
    exact ⟨Or.inl, fun h => h.elim id fun he => he ▸ hm⟩
  · simp

theorem forall_mem_links_addLink {m : Link} {P : Link → Prop} :
    (∀ l ∈ (net.addLink m).links, P l) ↔ (∀ l ∈ net.links, P l) ∧ P m := by
  simp only [mem_links_addLink, or_imp, forall_and, forall_eq]

theorem item?_addLink {m : Link} : (net.addLink m).item? id = net.item? id := by
  unfold addLink
  split <;> rfl

theorem parent?_addLink {m : Link} : (net.addLink m).parent? id = net.parent? id := by
  rw [parent?, item?_addLink, parent?]

theorem contains_addLink {m : Link} : (net.addLink m).contains id = net.contains id := by
  rw [contains_eq_isSome, item?_addLink, contains_eq_isSome]

theorem mem_links_foldl_addLink {links : List Link} {l : Link} :
    l ∈ (links.foldl addLink net).links ↔ l ∈ net.links ∨ l ∈ links := by
  induction links generalizing net with
  | nil => simp
  | cons m rest ih => rw [List.foldl_cons, ih, mem_links_addLink, List.mem_cons, or_assoc]

theorem item?_foldl_addLink {links : List Link} :
    (links.foldl addLink net).item? id = net.item? id := by
  induction links generalizing net with
  | nil => rfl
  | cons m rest ih =>
    rw [List.foldl_cons, ih, item?_addLink]

/-! ## Inserting an item -/

theorem contains_insert {x : Item} (h : net.contains x.id = true) :
    (net.insert x).contains id = net.contains id := by
  rw [contains_eq_isSome, item?_insert, contains_eq_isSome]
  split
  · rename_i hid
    rw [← hid, ← contains_eq_isSome, h, Option.isSome_some]
  · rfl

theorem parent?_insert {x : Item} :
    (net.insert x).parent? id = if x.id = id then x.parent else net.parent? id := by
  rw [parent?, item?_insert]
  split <;> rfl

theorem span?_insert {x : Item} :
    (net.insert x).span? id = if x.id = id then some x.span else net.span? id := by
  rw [span?, item?_insert]
  split <;> rfl

theorem insert_of_item? {x : Item} (h : net.item? x.id = some x) : net.insert x = net := by
  refine Network.ext (Std.ExtTreeMap.ext_getElem? fun k => ?_) rfl
  refine (net.item?_insert x k).trans ?_
  split
  · rename_i hk
    exact hk ▸ h.symm
  · rfl

theorem links_insert {x : Item} : (net.insert x).links = net.links := rfl

theorem links_foldl_insert {items : List Item} :
    (items.foldl insert net).links = net.links := by
  induction items generalizing net with
  | nil => rfl
  | cons x rest ih => rw [List.foldl_cons, ih, links_insert]

/-- Of items with different identifiers, each stays where it was put. -/
theorem item?_foldl_insert {items : List Item} (hn : (items.map (·.id)).Nodup) :
    (items.foldl insert net).item? id = (items.find? (·.id = id)).or (net.item? id) := by
  induction items generalizing net with
  | nil => rfl
  | cons x rest ih =>
    obtain ⟨hx, hrest⟩ := List.nodup_cons.mp hn
    rw [List.foldl_cons, ih hrest, item?_insert, List.find?_cons]
    by_cases hid : x.id = id
    · have hnone : rest.find? (·.id = id) = none := by
        rw [List.find?_eq_none]
        intro y hy he
        exact hx (List.mem_map.mpr ⟨y, hy, (of_decide_eq_true he).trans hid.symm⟩)
      simp [hid, hnone]
    · simp [hid]

/-! ## Other days, other parents -/

theorem item?_edited (f : Item → Item) (hf : ∀ x, (f x).id = x.id) {k : ItemId} :
    ((net.item? id).elim net fun x => net.insert (f x)).item? k =
      if id = k then (net.item? k).map f else net.item? k := by
  cases hx : net.item? id with
  | none =>
    split
    · rename_i hk
      rw [Option.elim_none, ← hk, hx]; rfl
    · rfl
  | some x =>
    rw [Option.elim_some, item?_insert, hf, id_of_item? hx]
    split
    · rename_i hk
      rw [← hk, hx]; rfl
    · rfl

theorem item?_setSpan {s : Span} {k : ItemId} : (net.setSpan id s).item? k =
    if id = k then (net.item? k).map (·.withSpan s) else net.item? k := by
  have he : net.setSpan id s = (net.item? id).elim net fun x => net.insert (x.withSpan s) := by
    rw [setSpan]; cases net.item? id <;> rfl
  rw [he]
  exact item?_edited (·.withSpan s) fun _ => rfl

theorem item?_setParent {p : Option ItemId} {k : ItemId} : (net.setParent id p).item? k =
    if id = k then (net.item? k).map (·.withParent p) else net.item? k := by
  have he : net.setParent id p = (net.item? id).elim net fun x => net.insert (x.withParent p) := by
    rw [setParent]; cases net.item? id <;> rfl
  rw [he]
  exact item?_edited (·.withParent p) fun _ => rfl

theorem links_setSpan {s : Span} : (net.setSpan id s).links = net.links := by
  rw [setSpan]
  split <;> rfl

theorem links_setParent {p : Option ItemId} : (net.setParent id p).links = net.links := by
  rw [setParent]
  split <;> rfl

theorem span?_setSpan {s : Span} {k : ItemId} : (net.setSpan id s).span? k =
    if id = k then (net.span? k).map (fun _ => s) else net.span? k := by
  rw [span?, item?_setSpan]
  split
  · rw [span?, Option.map_map, Option.map_map]; rfl
  · rfl

theorem parent?_setSpan {s : Span} {k : ItemId} :
    (net.setSpan id s).parent? k = net.parent? k := by
  rw [parent?, item?_setSpan, parent?]
  split
  · rw [Option.bind_map]; rfl
  · rfl

end Network

end WorkPlan
