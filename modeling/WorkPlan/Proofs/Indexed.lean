import WorkPlan.Network.Indexed
import WorkPlan.Proofs.Reading
import WorkPlan.Proofs.Revision

/-! # Tables that keep in step

An indexed network is in step with a network if it holds the same items and links and its tables say
what a scan of them finds (`InStep`). Each step in the making of a network keeps the two in step
(`InStep.revise`), so after any history the tables give the answers of a scan, in the same order
(`InStep.linksFrom_eq`, `InStep.childrenOf_eq`). Of reparented items the history leaves empty sets in
the tables, and these answer as missing ones do. The network with the tables may then be forgotten: the
tables fit the items and links beside them (`tabled_ofRevisions`). Nor does an edit that is read through
the tables tell two histories apart that end with the same items and links
(`reflow_histories_toStore`). -/

namespace WorkPlan

/-! ## Places -/

/-- The places in a list of links at which a link of some kind stands. -/
def places (p : Link → Bool) (links : List Link) : List Nat :=
  (links.zipIdx.filter fun entry => p entry.1).map (·.2)

theorem places_append_singleton (p : Link → Bool) (links : List Link) (l : Link) :
    places p (links ++ [l]) = places p links ++ if p l then [links.length] else [] := by
  rw [places, List.zipIdx_append, List.filter_append, List.map_append]
  cases hl : p l <;> simp [places, hl]

theorem lt_length_of_mem_places {p : Link → Bool} {links : List Link} {place : Nat}
    (h : place ∈ places p links) : place < links.length := by
  obtain ⟨entry, hentry, rfl⟩ := List.mem_map.mp h
  have hplace := List.mem_zipIdx_iff_getElem?.mp (List.mem_filter.mp hentry).1
  exact (List.getElem?_eq_some_iff.mp hplace).1

theorem filterMap_places (p : Link → Bool) (links : List Link) :
    (places p links).filterMap (links[·]?) = links.filter p := by
  have hplace : ∀ entry ∈ links.zipIdx.filter fun entry => p entry.1,
      links[entry.2]? = some entry.1 := fun entry hentry =>
    List.mem_zipIdx_iff_getElem?.mp (List.mem_filter.mp hentry).1
  calc (places p links).filterMap (links[·]?)
      = (links.zipIdx.filter fun entry => p entry.1).filterMap fun entry => links[entry.2]? := by
        rw [places, List.filterMap_map]
        rfl
    _ = (links.zipIdx.filter fun entry => p entry.1).filterMap (some ∘ Prod.fst) :=
        List.filterMap_congr hplace
    _ = (links.zipIdx.map Prod.fst).filter p := by
        rw [List.filterMap_eq_map, List.filter_map]
        rfl
    _ = links.filter p := by rw [List.zipIdx_map_fst]

namespace IndexedNetwork

theorem getD_record {table : IdMap (List Nat)} {id k : ItemId} {place : Nat} :
    (record table id place).getD k [] =
      table.getD k [] ++ if id = k then [place] else [] := by
  rw [record, Std.ExtTreeMap.getD_alter]
  simp only [Std.compare_eq_iff_eq]
  split
  · rename_i hid
    rw [hid, Option.getD_some, Std.ExtTreeMap.getD_eq_getD_getElem?]
  · rw [List.append_nil]

theorem mem_getD_erase {inside : Option (Std.ExtTreeSet ItemId)} {id c : ItemId} :
    c ∈ (inside.map (·.erase id)).getD ∅ ↔ id ≠ c ∧ c ∈ inside.getD ∅ := by
  cases inside with
  | none => simp
  | some inside =>
    rw [Option.map_some, Option.getD_some, Option.getD_some, Std.ExtTreeSet.mem_erase, ne_eq,
      Std.compare_eq_iff_eq]

/-! ## One step -/

/-- Whether the tables of an indexed network say what a scan of the network finds. -/
structure InStep (ix : IndexedNetwork) (net : Network) : Prop where
  items : ix.items = net.items
  links : ix.links = net.links
  outgoing : ∀ id, ix.outgoing.getD id [] = places (·.predecessor = id) net.links
  incoming : ∀ id, ix.incoming.getD id [] = places (·.successor = id) net.links
  mem_children : ∀ parent c, c ∈ ix.children.getD parent ∅ ↔ net.parent? c = some parent

namespace InStep
variable {ix : IndexedNetwork} {net : Network} {id c parent : ItemId}

theorem empty : IndexedNetwork.empty.InStep .empty where
  items := rfl
  links := rfl
  outgoing _ := Std.ExtTreeMap.getD_empty
  incoming _ := Std.ExtTreeMap.getD_empty
  mem_children parent c := by
    rw [Network.parent?, Network.item?_empty, IndexedNetwork.empty, Std.ExtTreeMap.getD_empty]
    simp

variable (h : ix.InStep net)
include h

theorem item?_eq : ix.item? id = net.item? id := by
  rw [item?, h.items, Network.item?]

theorem mem_childrenWithout : c ∈ (ix.childrenWithout id).getD parent ∅ ↔
    id ≠ c ∧ net.parent? c = some parent := by
  have hparent : (ix.item? id).bind (·.parent) = net.parent? id := by
    rw [h.item?_eq, Network.parent?]
  rw [childrenWithout, hparent]
  cases hold : net.parent? id with
  | none =>
    rw [h.mem_children]
    refine ⟨fun hc => ⟨?_, hc⟩, And.right⟩
    rintro rfl
    rw [hold] at hc
    cases hc
  | some old =>
    rw [Std.ExtTreeMap.getD_modify]
    simp only [Std.compare_eq_iff_eq]
    split
    · rename_i he
      rw [he, mem_getD_erase, ← Std.ExtTreeMap.getD_eq_getD_getElem?, h.mem_children]
    · rename_i hne
      rw [h.mem_children]
      refine ⟨fun hc => ⟨?_, hc⟩, And.right⟩
      rintro rfl
      exact hne (Option.some.inj (hold.symm.trans hc))

theorem insert (x : Item) : (ix.insert x).InStep (net.insert x) where
  items := by
    rw [IndexedNetwork.insert, h.items]
    rfl
  links := h.links
  outgoing := h.outgoing
  incoming := h.incoming
  mem_children parent c := by
    have hafter : (net.insert x).parent? c = some parent ↔
        x.id = c ∧ x.parent = some parent ∨ x.id ≠ c ∧ net.parent? c = some parent := by
      rw [Network.parent?_insert]
      split <;> simp [*]
    rw [hafter, ← h.mem_childrenWithout, IndexedNetwork.insert]
    cases x.parent with
    | none => simp
    | some p =>
      rw [Std.ExtTreeMap.getD_alter]
      simp only [Std.compare_eq_iff_eq, Option.some.injEq]
      split
      · rename_i hp
        rw [Option.getD_some, Std.ExtTreeSet.mem_insert, Std.compare_eq_iff_eq,
          ← Std.ExtTreeMap.getD_eq_getD_getElem?, hp]
        simp
      · rename_i hp
        simp [hp]

theorem addLink (l : Link) : (ix.addLink l).InStep (net.addLink l) := by
  rw [IndexedNetwork.addLink, h.links]
  unfold Network.addLink
  by_cases hl : l ∈ net.links
  · rw [if_pos hl, dif_pos hl]
    exact h
  · rw [if_neg hl, dif_neg hl]
    constructor
    case items => exact h.items
    case links => rfl
    case outgoing =>
      intro id
      rw [getD_record, h.outgoing, places_append_singleton]
      simp only [decide_eq_true_eq]
    case incoming =>
      intro id
      rw [getD_record, h.incoming, places_append_singleton]
      simp only [decide_eq_true_eq]
    case mem_children => exact h.mem_children

theorem setParent (id : ItemId) (parent : Option ItemId) :
    (ix.setParent id parent).InStep (net.setParent id parent) := by
  rw [IndexedNetwork.setParent, Network.setParent, h.item?_eq]
  cases net.item? id with
  | none => exact h
  | some x => exact h.insert _

theorem setSpan (id : ItemId) (s : Span) : (ix.setSpan id s).InStep (net.setSpan id s) := by
  constructor
  case items =>
    refine Std.ExtTreeMap.ext_getElem? fun k => ?_
    have hitem : (net.setSpan id s).items[k]? =
        if id = k then (net.items[k]?).map (·.withSpan s) else net.items[k]? := Network.item?_setSpan
    rw [hitem, IndexedNetwork.setSpan, Std.ExtTreeMap.getElem?_modify, h.items]
    simp only [Std.compare_eq_iff_eq]
    split
    · rename_i hk
      rw [hk]
    · rfl
  case links => rw [Network.links_setSpan]; exact h.links
  case outgoing => rw [Network.links_setSpan]; exact h.outgoing
  case incoming => rw [Network.links_setSpan]; exact h.incoming
  case mem_children =>
    intro parent c
    rw [Network.parent?_setSpan]
    exact h.mem_children parent c

/-! ## The answers -/

theorem linksFrom_eq : ix.linksFrom id = net.linksFrom id := by
  rw [linksFrom, h.outgoing, h.links, filterMap_places, Network.linksFrom]

theorem linksInto_eq : ix.linksInto id = net.linksInto id := by
  rw [linksInto, h.incoming, h.links, filterMap_places, Network.linksInto]

theorem childrenOf_eq : ix.childrenOf id = net.childrenOf id := by
  refine ItemId.eq_of_ordered Std.ExtTreeSet.ordered_toList Network.ordered_childrenOf fun c => ?_
  rw [childrenOf, Std.ExtTreeSet.mem_toList, h.mem_children, Network.mem_childrenOf]

theorem hasChildren_eq : ix.hasChildren id = net.hasChildren id := by
  have hany : ix.hasChildren id = !(ix.childrenOf id).isEmpty := by
    rw [hasChildren, childrenOf, Std.ExtTreeMap.getD_eq_getD_getElem?]
    cases ix.children[id]? with
    | none => simp
    | some inside => simp [Std.ExtTreeSet.isEmpty_toList]
  rw [hany, h.childrenOf_eq, Network.hasChildren]

theorem contains_eq : ix.contains id = net.contains id := by
  rw [contains, h.items, Network.contains]

theorem itemList_eq : ix.itemList = net.itemList := by
  rw [itemList, h.items, Network.itemList]

theorem span?_eq : ix.span? id = net.span? id := by
  rw [span?, h.item?_eq, Network.span?]

theorem container?_eq : ix.container? id = net.container? id := by
  have hcontains : ix.contains = net.contains := funext fun _ => h.contains_eq
  rw [container?, h.item?_eq, hcontains, Network.container?, Network.parent?]

theorem climb_eq (steps : Nat) (seen : List ItemId) :
    ix.climb steps seen id = net.climb steps seen id := by
  induction steps generalizing seen id with
  | zero => rfl
  | succ steps ih =>
    rw [climb, Network.climb, h.container?_eq]
    cases net.container? id with
    | none => rfl
    | some parent => simp only [ih]

theorem ancestors_eq : ix.ancestors id = net.ancestors id := by
  rw [ancestors, h.climb_eq, h.items, Network.ancestors]

theorem isAncestor_eq {ancestor : ItemId} : ix.isAncestor ancestor id = net.isAncestor ancestor id := by
  rw [isAncestor, h.ancestors_eq, Network.isAncestor]

theorem bindingLinks_eq : ix.bindingLinks id = net.bindingLinks id := by
  have hinto : ix.linksInto = net.linksInto := funext fun _ => h.linksInto_eq
  rw [bindingLinks, h.ancestors_eq, hinto, Network.bindingLinks]

theorem soonestStartBy_eq {spanOf : ItemId → Option Span} :
    ix.soonestStartBy spanOf id = net.soonestStartBy spanOf id := by
  rw [soonestStartBy, h.bindingLinks_eq, Network.soonestStartBy]

theorem soonestStart_eq : ix.soonestStart id = net.soonestStart id := by
  have hspan : ix.span? = net.span? := funext fun _ => h.span?_eq
  rw [soonestStart, h.soonestStartBy_eq, hspan, Network.soonestStart]

end InStep

/-- Whether an indexed network holds the items and links of a network, and answers every query as a scan
of them does. -/
structure Answers (ix : IndexedNetwork) (net : Network) : Prop where
  items : ix.items = net.items
  links : ix.links = net.links
  item? : ∀ id, ix.item? id = net.item? id
  contains : ∀ id, ix.contains id = net.contains id
  itemList : ix.itemList = net.itemList
  span? : ∀ id, ix.span? id = net.span? id
  linksFrom : ∀ id, ix.linksFrom id = net.linksFrom id
  linksInto : ∀ id, ix.linksInto id = net.linksInto id
  childrenOf : ∀ id, ix.childrenOf id = net.childrenOf id
  hasChildren : ∀ id, ix.hasChildren id = net.hasChildren id
  ancestors : ∀ id, ix.ancestors id = net.ancestors id
  isAncestor : ∀ a id, ix.isAncestor a id = net.isAncestor a id
  bindingLinks : ∀ id, ix.bindingLinks id = net.bindingLinks id
  soonestStartBy : ∀ spanOf id, ix.soonestStartBy spanOf id = net.soonestStartBy spanOf id
  soonestStart : ∀ id, ix.soonestStart id = net.soonestStart id

theorem InStep.answers {ix : IndexedNetwork} {net : Network} (h : ix.InStep net) : ix.Answers net where
  items := h.items
  links := h.links
  item? _ := h.item?_eq
  contains _ := h.contains_eq
  itemList := h.itemList_eq
  span? _ := h.span?_eq
  linksFrom _ := h.linksFrom_eq
  linksInto _ := h.linksInto_eq
  childrenOf _ := h.childrenOf_eq
  hasChildren _ := h.hasChildren_eq
  ancestors _ := h.ancestors_eq
  isAncestor _ _ := h.isAncestor_eq
  bindingLinks _ := h.bindingLinks_eq
  soonestStartBy _ _ := h.soonestStartBy_eq
  soonestStart _ := h.soonestStart_eq

/-! ## What the tables are to the items and links beside them -/

/-- Whether the tables of an indexed network fit its own items and links: each item stands under its
identifier, no link is listed twice, the places are those of links, and what the tables answer about the
ends of links and about children is what a scan finds. -/
structure Tabled (ix : IndexedNetwork) : Prop where
  id_of_item? : ∀ id x, ix.item? id = some x → x.id = id
  nodup_links : ix.links.Nodup
  outgoing_lt : ∀ id, ∀ place ∈ ix.outgoing.getD id [], place < ix.links.length
  incoming_lt : ∀ id, ∀ place ∈ ix.incoming.getD id [], place < ix.links.length
  linksFrom : ∀ id, ix.linksFrom id = ix.links.filter (·.predecessor = id)
  linksInto : ∀ id, ix.linksInto id = ix.links.filter (·.successor = id)
  mem_childrenOf : ∀ p c, c ∈ ix.childrenOf p ↔ ∃ x, ix.item? c = some x ∧ x.parent = some p
  ordered_childrenOf : ∀ p, (ix.childrenOf p).Pairwise (compare · · = .lt)
  hasChildren : ∀ p, ix.hasChildren p = true ↔ ∃ c x, ix.item? c = some x ∧ x.parent = some p

theorem InStep.tabled {ix : IndexedNetwork} {net : Network} (h : ix.InStep net) : ix.Tabled := by
  have hparent : ∀ p c, net.parent? c = some p ↔ ∃ x, ix.item? c = some x ∧ x.parent = some p := by
    intro p c
    rw [Network.parent?, h.item?_eq, Option.bind_eq_some_iff]
  constructor
  case id_of_item? => exact fun _ _ hx => Network.id_of_item? (h.item?_eq.symm.trans hx)
  case nodup_links => exact h.links ▸ net.nodup_links
  case outgoing_lt =>
    intro id place hplace
    rw [h.outgoing] at hplace
    rw [h.links]
    exact lt_length_of_mem_places hplace
  case incoming_lt =>
    intro id place hplace
    rw [h.incoming] at hplace
    rw [h.links]
    exact lt_length_of_mem_places hplace
  case linksFrom =>
    intro id
    rw [h.linksFrom_eq, h.links, Network.linksFrom]
  case linksInto =>
    intro id
    rw [h.linksInto_eq, h.links, Network.linksInto]
  case mem_childrenOf =>
    intro p c
    rw [h.childrenOf_eq, Network.mem_childrenOf, hparent]
  case ordered_childrenOf =>
    intro p
    rw [h.childrenOf_eq]
    exact Network.ordered_childrenOf
  case hasChildren =>
    intro p
    rw [h.hasChildren_eq, Network.hasChildren_iff]
    exact exists_congr fun c => hparent p c

/-! ## Histories -/

def revise (ix : IndexedNetwork) : Revision → IndexedNetwork
  | .insert x => ix.insert x
  | .setParent id parent => ix.setParent id parent
  | .setSpan id s => ix.setSpan id s
  | .addLink l => ix.addLink l

def ofRevisions (history : List Revision) : IndexedNetwork := history.foldl revise empty

theorem InStep.revise {ix : IndexedNetwork} {net : Network} (h : ix.InStep net) (step : Revision) :
    (ix.revise step).InStep (net.revise step) := by
  cases step with
  | insert x => exact h.insert x
  | setParent id parent => exact h.setParent id parent
  | setSpan id s => exact h.setSpan id s
  | addLink l => exact h.addLink l

/-- **Tables that are kept along a history stay in step**, with all the reparenting and the repeats in
it. -/
theorem inStep_ofRevisions (history : List Revision) :
    (ofRevisions history).InStep (.ofRevisions history) := by
  have hrun : ∀ {ix : IndexedNetwork} {net : Network}, ix.InStep net →
      (history.foldl IndexedNetwork.revise ix).InStep (history.foldl Network.revise net) := by
    induction history with
    | nil => exact fun h => h
    | cons step rest ih => exact fun h => ih (h.revise step)
  exact hrun .empty

/-- **Whatever the history, the tables fit.** The indexed network that it leads to lists the links in the
order in which they were first offered, and answers every query as a scan of its items and links would. -/
theorem tabled_ofRevisions (history : List Revision) :
    (ofRevisions history).Tabled ∧
      (ofRevisions history).links = (history.filterMap Revision.link?).eraseDups ∧
      (ofRevisions history).Answers (.ofRevisions history) := by
  have h := inStep_ofRevisions history
  exact ⟨h.tabled, h.links.trans (Network.links_ofRevisions history), h.answers⟩

/-! ## Tables as a store -/

def toStore (ix : IndexedNetwork) {net : Network} (h : ix.InStep net) : Store where
  item? := ix.item?
  linksFrom := ix.linksFrom
  linksInto := ix.linksInto
  childrenOf := ix.childrenOf
  known := ix.items.keys
  id_of_item? _ _ hx := Network.id_of_item? (h.item?_eq.symm.trans hx)
  mem_known _ hid := Std.ExtTreeMap.mem_keys.mpr (Std.ExtTreeMap.mem_iff_isSome_getElem?.mpr hid)

theorem InStep.shows_toStore {ix : IndexedNetwork} {net : Network} (h : ix.InStep net) :
    (ix.toStore h).Shows net where
  item? _ := h.item?_eq
  linksFrom x l := by rw [← h.linksFrom_eq]; rfl
  linksInto x l := by rw [← h.linksInto_eq]; rfl
  childrenOf x c := by rw [← h.childrenOf_eq]; rfl

/-- An edit read through the tables comes to what it comes to over the network, whatever the history of
the tables. -/
theorem reflow_ofRevisions_toStore {history : List Revision} {settings : Settings} {e : Edit}
    (he : e.proposed.parent = true → e.touched.parent = true) :
    Outcome.Alike (((ofRevisions history).toStore (inStep_ofRevisions history)).reflow settings e)
      ((Network.ofRevisions history).reflow settings e) :=
  (inStep_ofRevisions history).shows_toStore.reflow he

/-- **What a history leaves in the tables makes no difference to an edit.** Histories that end with the
same items and the same links give the same error, or the same changes, the same move of the root and the
same issues, when the edit is read through the tables that each has left. -/
theorem reflow_histories_toStore {history history' : List Revision} {settings : Settings} {e : Edit}
    (hitems : (ofRevisions history).items = (ofRevisions history').items)
    (hlinks : ∀ l, l ∈ (ofRevisions history).links ↔ l ∈ (ofRevisions history').links) :
    Outcome.Alike (((ofRevisions history).toStore (inStep_ofRevisions history)).reflow settings e)
      (((ofRevisions history').toStore (inStep_ofRevisions history')).reflow settings e) := by
  have h := inStep_ofRevisions history
  have h' := inStep_ofRevisions history'
  rw [h.items, h'.items] at hitems
  rw [h.links, h'.links] at hlinks
  exact (h.shows_toStore.of_same hitems hlinks).reflow_alike h'.shows_toStore

-- framing was a part of the pour once, for which the table keeps an empty set
example : ⟨"pour"⟩ ∈ (ofRevisions [.insert { id := ⟨"frame"⟩, parent := some ⟨"pour"⟩ },
      .setParent ⟨"frame"⟩ none]).children ∧
    ⟨"pour"⟩ ∉ (ofRevisions [.insert { id := ⟨"frame"⟩ }]).children := by decide +kernel

end IndexedNetwork
end WorkPlan
