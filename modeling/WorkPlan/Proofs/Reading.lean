import WorkPlan.Store
import WorkPlan.Proofs.Revision

/-! # Reading a stored plan

What is read for an edit of a store that shows a network is an excerpt of this network: the reading
follows every step that the search of a pass could make (`Shows.excerpt`). So an edit comes to the
same whether it is carried out on the store or on the network (`Shows.reflow`). Of two stores that show
one network the same is read, but for the order of the links, and so no edit tells them apart, not even
one that leaves the root with a parent that was not read (`Shows.reflow_alike`). -/

namespace WorkPlan

namespace Store
variable {store store' : Store} {net net' : Network} {e : Edit} {x : ItemId} {l : Link}

/-- Whether a store answers as a network would, up to the order and the repeats of its answers. -/
structure Shows (store : Store) (net : Network) : Prop where
  item? : ∀ x, store.item? x = net.item? x
  linksFrom : ∀ x l, l ∈ store.linksFrom x ↔ l ∈ net.linksFrom x
  linksInto : ∀ x l, l ∈ store.linksInto x ↔ l ∈ net.linksInto x
  childrenOf : ∀ x c, c ∈ store.childrenOf x ↔ c ∈ net.childrenOf x

/-! ## Which items are met -/

def startVisits (store : Store) (e : Edit) : List Visit :=
  ((e.id :: if e.touches .parent then e.parent.toList else []).filter store.contains).map
    (Visit.mk · .ancestor)

/-- Whether the reading for an edit leads to a visit. -/
def Reads (store : Store) (e : Edit) : Visit → Prop :=
  Visit.Reached store.visitsAfter (store.startVisits e)

theorem mem_visitsAfter {v w : Visit} : w ∈ store.visitsAfter v ↔ store.contains w.id = true ∧
    ((∃ l ∈ store.linksFrom v.id, w = ⟨l.successor, .follower⟩) ∨
      (v.role = .follower ∧ ∃ c ∈ store.childrenOf v.id, w = ⟨c, .follower⟩) ∨
      ∃ p, (store.item? v.id).bind (·.parent) = some p ∧ w = ⟨p, .ancestor⟩) := by
  unfold visitsAfter
  simp only [List.mem_reverse, List.mem_filter, List.mem_append, List.mem_map, Option.mem_toList]
  rw [and_comm]
  refine and_congr_right fun _ => ?_
  constructor
  · rintro (⟨s, ⟨l, hl, rfl⟩ | hs, rfl⟩ | ⟨p, hp, rfl⟩)
    · exact Or.inl ⟨l, hl, rfl⟩
    · split at hs
      · rename_i hv
        exact Or.inr (Or.inl ⟨hv, s, hs, rfl⟩)
      · cases hs
    · exact Or.inr (Or.inr ⟨p, hp, rfl⟩)
  · rintro (⟨l, hl, rfl⟩ | ⟨hv, c, hc, rfl⟩ | ⟨p, hp, rfl⟩)
    · exact Or.inl ⟨_, Or.inl ⟨l, hl, rfl⟩, rfl⟩
    · refine Or.inl ⟨c, Or.inr ?_, rfl⟩
      rw [if_pos hv]
      exact hc
    · exact Or.inr ⟨p, hp, rfl⟩

theorem visitsAfter_mono {u v : Visit} (hcov : u.covers v = true) :
    store.visitsAfter v ⊆ store.visitsAfter u := by
  intro w hw
  obtain ⟨hid, hrole⟩ := Visit.covers_iff.mp hcov
  obtain ⟨hc, hw⟩ := mem_visitsAfter.mp hw
  refine mem_visitsAfter.mpr ⟨hc, ?_⟩
  rw [hid]
  refine hw.imp id (Or.imp ?_ id)
  rintro ⟨hv, hw⟩
  refine ⟨hrole.resolve_left fun ha => ?_, hw⟩
  rw [hv] at ha; cases ha

theorem mem_startVisits {v : Visit} (hv : v ∈ store.startVisits e) :
    v.role = .ancestor ∧ store.contains v.id = true := by
  unfold startVisits at hv
  obtain ⟨s, hs, rfl⟩ := List.mem_map.mp hv
  exact ⟨rfl, (List.mem_filter.mp hs).2⟩

theorem mem_allOf_known {v : Visit} (h : store.contains v.id = true) :
    v ∈ Visit.allOf store.known :=
  Visit.mem_allOf.mpr (store.mem_known v.id h)

theorem exists_mem_visitsFor :
    (∃ v ∈ store.visitsFor e, v.id = x) ↔ Visit.Met (store.Reads e) x := by
  have hstart : store.startVisits e ⊆ Visit.allOf store.known :=
    fun v hv => mem_allOf_known (mem_startVisits hv).2
  have hnext : ∀ v ∈ Visit.allOf store.known, store.visitsAfter v ⊆ Visit.allOf store.known :=
    fun v _ w hw => mem_allOf_known (mem_visitsAfter.mp hw).1
  exact Visit.exists_mem_trace_iff hstart hnext (Visit.length_allOf _).le fun _ _ => visitsAfter_mono

/-- The reading visits an item with a property exactly if it leads to a visit to one. -/
theorem exists_visitsFor_iff (P : ItemId → Prop) :
    (∃ v ∈ store.visitsFor e, P v.id) ↔ ∃ v, store.Reads e v ∧ P v.id := by
  constructor
  · rintro ⟨v, hv, h⟩
    obtain ⟨role, hrole⟩ := exists_mem_visitsFor.mp ⟨v, hv, rfl⟩
    exact ⟨⟨v.id, role⟩, hrole, h⟩
  · rintro ⟨v, hv, h⟩
    obtain ⟨u, hu, hid⟩ := exists_mem_visitsFor.mpr ⟨v.role, hv⟩
    exact ⟨u, hu, hid ▸ h⟩

theorem Reads.contains {v : Visit} (h : store.Reads e v) : store.contains v.id = true := by
  cases h with
  | start hv => exact (mem_startVisits hv).2
  | next _ hw => exact (mem_visitsAfter.mp hw).1

theorem reads_root (hroot : store.contains e.id = true) : store.Reads e ⟨e.id, .ancestor⟩ :=
  .start (List.mem_map.mpr ⟨e.id, List.mem_filter.mpr ⟨List.mem_cons_self, hroot⟩, rfl⟩)

theorem reads_carried {p : ItemId} (ht : e.touches .parent = true) (hp : e.parent = some p)
    (hc : store.contains p = true) : store.Reads e ⟨p, .ancestor⟩ := by
  have hmem : p ∈ e.id :: if e.touches .parent then e.parent.toList else [] := by
    rw [ht, hp]
    simp
  exact .start (List.mem_map.mpr ⟨p, List.mem_filter.mpr ⟨hmem, hc⟩, rfl⟩)

/-! ## What is read beside them -/

def readWith (store : Store) (id : ItemId) : List ItemId :=
  id :: (store.linksInto id).map (·.predecessor) ++ store.childrenOf id

/-- Whether an item is read where another one is visited: it is that item, or precedes it, or is listed
inside it. -/
theorem mem_readWith {y : ItemId} : x ∈ store.readWith y ↔
    x = y ∨ (∃ l ∈ store.linksInto y, l.predecessor = x) ∨ x ∈ store.childrenOf y := by
  simp [readWith]

/-- Whether a network holds stored items only. -/
def Holds (store : Store) (net : Network) : Prop :=
  ∀ x, net.item? x = none ∨ net.item? x = store.item? x

theorem holds_empty : store.Holds .empty := fun _ => Or.inl Network.item?_empty

theorem Holds.of_item? {ids : List ItemId} {after : Network} (h : store.Holds net)
    (ha : ∀ x, after.item? x = if x ∈ ids then store.item? x else net.item? x) :
    store.Holds after := by
  intro x
  rw [ha]
  split
  · exact Or.inr rfl
  · exact h x

theorem item?_loadInto (h : store.Holds net) {id : ItemId} :
    (store.loadInto net id).item? x = if x ∈ [id] then store.item? x else net.item? x := by
  simp only [List.mem_singleton]
  unfold loadInto
  split
  · rename_i item hitem
    rw [Network.item?_insert, store.id_of_item? id item hitem]
    by_cases hx : x = id
    · rw [if_pos hx.symm, if_pos hx, hx, hitem]
    · rw [if_neg (Ne.symm hx), if_neg hx]
  · rename_i hnone
    split
    · rename_i hx
      rcases h id with hid | hid
      · rw [hx, hid, hnone]
      · rw [hx, hid]
    · rfl

theorem holds_loadInto (h : store.Holds net) (id : ItemId) : store.Holds (store.loadInto net id) :=
  h.of_item? fun _ => item?_loadInto h

theorem item?_foldl_loadInto {ids : List ItemId} (h : store.Holds net) :
    (ids.foldl store.loadInto net).item? x =
      if x ∈ ids then store.item? x else net.item? x := by
  induction ids generalizing net with
  | nil => rfl
  | cons id rest ih =>
    rw [List.foldl_cons, ih (holds_loadInto h id), item?_loadInto h]
    by_cases hx : x ∈ rest <;> simp [hx]

theorem links_foldl_loadInto {ids : List ItemId} :
    (ids.foldl store.loadInto net).links = net.links := by
  induction ids generalizing net with
  | nil => rfl
  | cons id rest ih =>
    rw [List.foldl_cons, ih]
    unfold loadInto
    split <;> rfl

theorem item?_readInto (h : store.Holds net) {id : ItemId} : (store.readInto net id).item? x =
    if x ∈ store.readWith id then store.item? x else net.item? x := by
  unfold readInto
  rw [Network.item?_foldl_addLink]
  exact item?_foldl_loadInto h

theorem holds_readInto (h : store.Holds net) (id : ItemId) : store.Holds (store.readInto net id) :=
  h.of_item? fun _ => item?_readInto h

theorem item?_foldl_readInto {visits : List Visit} (h : store.Holds net) :
    (visits.foldl (fun net v => store.readInto net v.id) net).item? x =
      if x ∈ visits.flatMap (fun v => store.readWith v.id) then store.item? x
      else net.item? x := by
  induction visits generalizing net with
  | nil => rfl
  | cons v rest ih =>
    rw [List.foldl_cons, ih (holds_readInto h v.id), item?_readInto h,
      List.flatMap_cons]
    by_cases hx : x ∈ rest.flatMap (fun v => store.readWith v.id) <;> simp [hx]

theorem mem_links_foldl_readInto {visits : List Visit} :
    l ∈ (visits.foldl (fun net v => store.readInto net v.id) net).links ↔
      l ∈ net.links ∨ ∃ v ∈ visits, l ∈ store.linksInto v.id ∨ l ∈ store.linksFrom v.id := by
  induction visits generalizing net with
  | nil => simp
  | cons v rest ih =>
    rw [List.foldl_cons, ih]
    unfold readInto
    rw [Network.mem_links_foldl_addLink, links_foldl_loadInto, List.mem_append, or_assoc]
    simp

/-- All that is read for an edit. -/
def readFor (store : Store) (e : Edit) : Network :=
  (store.visitsFor e).foldl (fun net v => store.readInto net v.id) .empty

theorem excerpt_of_contains (hroot : store.contains e.id = true) :
    store.excerpt e = .ok (store.readFor e) := if_pos hroot

theorem item?_readFor {item : Item} : (store.readFor e).item? x = some item ↔
    store.item? x = some item ∧ ∃ v, store.Reads e v ∧ x ∈ store.readWith v.id := by
  have hread : x ∈ (store.visitsFor e).flatMap (fun v => store.readWith v.id) ↔
      ∃ v, store.Reads e v ∧ x ∈ store.readWith v.id := by
    rw [List.mem_flatMap]
    exact exists_visitsFor_iff (x ∈ store.readWith ·)
  rw [readFor, item?_foldl_readInto holds_empty, ← hread]
  split
  · rename_i hx
    rw [and_iff_left hx]
  · rename_i hx
    rw [Network.item?_empty]
    exact iff_of_false nofun fun h => hx h.2

theorem mem_links_readFor : l ∈ (store.readFor e).links ↔
    ∃ v, store.Reads e v ∧ (l ∈ store.linksInto v.id ∨ l ∈ store.linksFrom v.id) := by
  have hempty : l ∉ Network.empty.links := List.not_mem_nil
  rw [readFor, mem_links_foldl_readInto, or_iff_right hempty]
  exact exists_visitsFor_iff fun y => l ∈ store.linksInto y ∨ l ∈ store.linksFrom y

/-! ## The excerpt -/

namespace Shows
variable (hs : store.Shows net)
include hs

theorem contains : store.contains x = net.contains x := by
  rw [Store.contains, hs.item?, Network.contains_eq_isSome]

theorem parent? : (store.item? x).bind (·.parent) = net.parent? x := by
  rw [hs.item?, Network.parent?]

/-- The reading follows each step of the search. -/
theorem reads_of_leads {root : ItemId} {v w : Visit} (hv : store.Reads e v)
    (hl : net.Leads root v w) : store.Reads e w := by
  have hc : store.contains w.id = true := hs.contains.trans hl.contains
  refine Visit.Reached.next hv (mem_visitsAfter.mpr ⟨hc, ?_⟩)
  cases hl with
  | successor hl _ => exact Or.inl ⟨_, (hs.linksFrom _ _).mpr hl, rfl⟩
  | @child c hr hp _ =>
    exact Or.inr (Or.inl ⟨hr, c, (hs.childrenOf _ _).mpr (Network.mem_childrenOf.mpr hp), rfl⟩)
  | @parent p hp =>
    exact Or.inr (Or.inr ⟨p, hs.parent?.trans (Network.inside_iff.mp hp).1, rfl⟩)

theorem excerpt (hroot : store.contains e.id = true) :
    Excerpt (store.readFor e) net e.id (store.Reads e) := by
  have hread : ∀ v, store.Reads e v → ∀ x ∈ store.readWith v.id,
      (store.readFor e).item? x = net.item? x := by
    intro v hv x hx
    refine Option.ext fun item => ?_
    rw [item?_readFor, and_iff_left ⟨v, hv, hx⟩, hs.item?]
  constructor
  case read_root => exact reads_root hroot
  case closed => exact fun v w hv hl _ => hs.reads_of_leads hv hl
  case contains => exact fun v hv => hs.contains.symm.trans hv.contains
  case item?_of_part =>
    intro x item hx
    exact (hs.item? x).symm.trans (item?_readFor.mp hx).1
  case item?_read => exact fun v hv => hread v hv v.id (mem_readWith.mpr (Or.inl rfl))
  case item?_predecessor =>
    intro v hv l hl
    refine hread v hv l.predecessor ?_
    have hl := (hs.linksInto v.id l).mpr hl
    exact mem_readWith.mpr (Or.inr (Or.inl ⟨l, hl, rfl⟩))
  case item?_child =>
    intro v hv c hc
    refine hread v hv c ?_
    have hc := (hs.childrenOf v.id c).mpr (Network.mem_childrenOf.mpr hc)
    exact mem_readWith.mpr (Or.inr (Or.inr hc))
  case mem_links_of_part =>
    intro l hl
    obtain ⟨v, _, hl | hl⟩ := mem_links_readFor.mp hl
    · exact (Network.mem_linksInto.mp ((hs.linksInto _ _).mp hl)).1
    · exact (Network.mem_linksFrom.mp ((hs.linksFrom _ _).mp hl)).1
  case mem_links =>
    intro v hv l hend hl
    refine mem_links_readFor.mpr ⟨v, hv, ?_⟩
    rw [hs.linksInto, hs.linksFrom, Network.mem_linksInto, Network.mem_linksFrom]
    exact hend.elim (fun he => Or.inr ⟨hl, he⟩) fun he => Or.inl ⟨hl, he⟩

/-- **An edit of a stored plan comes to what it comes to in the network that the store shows.** -/
theorem reflow {settings : Settings} (he : e.proposed.parent = true → e.touched.parent = true) :
    Outcome.Alike (store.reflow settings e) (net.reflow settings e) := by
  unfold Store.reflow Store.excerpt
  cases hblank : e.id.isBlank with
  | true =>
    rw [Network.reflow_of_root?_error (Network.root?_of_isBlank hblank)]
    exact .error _
  | false =>
    cases hroot : store.contains e.id with
    | false =>
      have hnone := Network.contains_eq_false_iff.mp (hs.contains.symm.trans hroot)
      rw [Network.reflow_of_root?_error (Network.root?_of_unknown hblank hnone)]
      exact .error _
    | true =>
      exact (hs.excerpt hroot).reflow he fun ht p hp hc => reads_carried ht hp (hs.contains.trans hc)

/-! ## Two stores that show one network -/

theorem of_same (hitems : net.items = net'.items) (hlinks : ∀ l, l ∈ net.links ↔ l ∈ net'.links) :
    store.Shows net' := by
  have hitem : ∀ x, net.item? x = net'.item? x := fun x => by
    rw [Network.item?, hitems, Network.item?]
  constructor
  case item? => exact fun x => (hs.item? x).trans (hitem x)
  case linksFrom =>
    intro x l
    rw [hs.linksFrom, Network.mem_linksFrom, Network.mem_linksFrom, hlinks]
  case linksInto =>
    intro x l
    rw [hs.linksInto, Network.mem_linksInto, Network.mem_linksInto, hlinks]
  case childrenOf =>
    intro x c
    rw [hs.childrenOf, Network.mem_childrenOf, Network.mem_childrenOf, Network.parent?, hitem,
      Network.parent?]

variable (hs' : store'.Shows net)
include hs'

theorem mem_visitsAfter_iff {v w : Visit} : w ∈ store.visitsAfter v ↔ w ∈ store'.visitsAfter v := by
  simp only [mem_visitsAfter, hs.contains, hs'.contains, hs.linksFrom, hs'.linksFrom, hs.childrenOf,
    hs'.childrenOf, hs.parent?, hs'.parent?]

theorem reads_iff {v : Visit} : store.Reads e v ↔ store'.Reads e v := by
  have hcontains : store.contains = store'.contains := funext fun _ =>
    hs.contains.trans hs'.contains.symm
  refine Visit.Reached.congr (fun v => ?_) fun v _ w _ => hs.mem_visitsAfter_iff hs'
  rw [startVisits, hcontains, startVisits]

theorem mem_readWith_iff {y : ItemId} : x ∈ store.readWith y ↔ x ∈ store'.readWith y := by
  simp only [mem_readWith, hs.linksInto, hs'.linksInto, hs.childrenOf, hs'.childrenOf]

theorem items_readFor : (store.readFor e).items = (store'.readFor e).items := by
  refine Std.ExtTreeMap.ext_getElem? fun x => Option.ext fun item => ?_
  show (store.readFor e).item? x = some item ↔ (store'.readFor e).item? x = some item
  simp only [item?_readFor, hs.item?, hs'.item?, hs.reads_iff hs', hs.mem_readWith_iff hs']

theorem mem_links_readFor_iff : l ∈ (store.readFor e).links ↔ l ∈ (store'.readFor e).links := by
  simp only [mem_links_readFor, hs.reads_iff hs', hs.linksInto, hs'.linksInto, hs.linksFrom,
    hs'.linksFrom]

/-- **Stores that show one network give one answer to every edit.** -/
theorem reflow_alike {settings : Settings} :
    Outcome.Alike (store.reflow settings e) (store'.reflow settings e) := by
  have hroot : store.contains e.id = store'.contains e.id := hs.contains.trans hs'.contains.symm
  unfold Store.reflow Store.excerpt
  rw [hroot]
  cases e.id.isBlank with
  | true => exact .error _
  | false =>
    cases store'.contains e.id with
    | false => exact .error _
    | true =>
      exact Network.reflow_congr (hs.items_readFor hs') fun _ => hs.mem_links_readFor_iff hs'

end Shows

end Store

/-! ## Stores that show a network -/

theorem Network.shows_toStore (net : Network) : net.toStore.Shows net :=
  ⟨fun _ => rfl, fun _ _ => Iff.rfl, fun _ _ => Iff.rfl, fun _ _ => Iff.rfl⟩

theorem find?_id_eq_some_iff {items : List Item} (hn : (items.map (·.id)).Nodup) {x : ItemId}
    {item : Item} : items.find? (·.id = x) = some item ↔ item ∈ items ∧ item.id = x := by
  constructor
  · intro hf
    exact ⟨List.mem_of_find?_eq_some hf, by simpa using List.find?_some hf⟩
  · rintro ⟨hmem, hid⟩
    cases hf : items.find? (·.id = x) with
    | none =>
      have hne := List.find?_eq_none.mp hf item hmem
      exact absurd (decide_eq_true hid) hne
    | some other =>
      have hother : other.id = x := by simpa using List.find?_some hf
      rw [List.inj_on_of_nodup_map hn (List.mem_of_find?_eq_some hf) hmem (hother.trans hid.symm)]

theorem Listing.shows_toStore {items : List Item} {links : List Link}
    (hn : (items.map (·.id)).Nodup) :
    (Listing.toStore { items, links }).Shows (.ofLists items links) := by
  have hitem : ∀ x, (Network.ofLists items links).item? x = items.find? (·.id = x) := by
    intro x
    unfold Network.ofLists
    rw [Network.item?_foldl_addLink, Network.item?_foldl_insert hn]
    exact Option.or_none
  have hlinks : ∀ l, l ∈ (Network.ofLists items links).links ↔ l ∈ links := by
    intro l
    unfold Network.ofLists
    rw [Network.mem_links_foldl_addLink, Network.links_foldl_insert]
    simp [Network.empty]
  constructor
  case item? => exact fun x => (hitem x).symm
  case linksFrom =>
    intro x l
    rw [Network.mem_linksFrom, hlinks]
    simp [Listing.toStore]
  case linksInto =>
    intro x l
    rw [Network.mem_linksInto, hlinks]
    simp [Listing.toStore]
  case childrenOf =>
    intro x c
    have hchildren : c ∈ (Listing.toStore { items, links }).childrenOf x ↔
        ∃ item ∈ items, item.parent = some x ∧ item.id = c := by
      simp [Listing.toStore, and_assoc]
    rw [Network.mem_childrenOf, Network.parent?, hitem, hchildren, Option.bind_eq_some_iff]
    refine exists_congr fun item => ?_
    rw [find?_id_eq_some_iff hn, and_assoc, and_comm (a := item.id = c)]

/-- **Where a plan is kept makes no difference to an edit.** It comes to the same over lists of items
and links, over a network used as a store, and over the network itself. -/
theorem reflow_toStore {settings : Settings} {e : Edit}
    (he : e.proposed.parent = true → e.touched.parent = true) :
    (∀ (items : List Item) (links : List Link), (items.map (·.id)).Nodup →
      Outcome.Alike ((Listing.toStore { items, links }).reflow settings e)
        ((Network.ofLists items links).reflow settings e)) ∧
    ∀ net : Network, Outcome.Alike (net.toStore.reflow settings e) (net.reflow settings e) :=
  ⟨fun _ _ hn => (Listing.shows_toStore hn).reflow he, fun net => net.shows_toStore.reflow he⟩

def pourInside : Edit := pourLater.withParent (some ⟨"shell"⟩)

theorem reflow_storedShellPlan :
    Outcome.Alike ((Listing.toStore { items := shellItems, links := shellLinks }).reflow {} pourInside)
      (.ok shellLater) ∧
    Outcome.Alike (shellPlan.toStore.reflow {} pourInside) (.ok shellLater) := by
  have hnet : shellPlan.reflow {} pourInside = .ok shellLater := by decide +kernel
  have htouched : pourInside.proposed.parent = true → pourInside.touched.parent = true := fun _ => rfl
  obtain ⟨hlisting, hstore⟩ := @reflow_toStore {} pourInside htouched
  refine ⟨?_, hnet ▸ hstore shellPlan⟩
  exact hnet ▸ hlisting shellItems shellLinks (by decide)

end WorkPlan
