import WorkPlan.Proofs.Loading

/-! # What is read for an edit

From the root and from the parent that the edit carries, expansion passes on along links, down into followers
and up to parents (`Expands`). The reading expands these items and no others (`expands_iff`), whatever a
store answers: children lists, parents and links may contradict one another and lead in circles. Read are the
expanded items with all links that the store tells of them, the predecessors of the links into them and their
children (`excerpt_exact`). -/

namespace WorkPlan

namespace Store
variable {store : Store} {e : Edit} {x : ItemId} {role : Role} {l : Link} {item : Item}

/-- Whether an item is expanded for an edit, and in which roles: the least assignment of roles to stored items
that is closed under these rules. -/
inductive Expands (store : Store) (e : Edit) : ItemId → Role → Prop
  | root (hc : store.contains e.id = true) : Expands store e e.id .ancestor
  | carried {p : ItemId} (ht : e.touches .parent = true) (hp : e.parent = some p)
      (hc : store.contains p = true) : Expands store e p .ancestor
  | successor {x : ItemId} {role : Role} {l : Link} (hx : Expands store e x role)
      (hl : l ∈ store.linksFrom x) (hc : store.contains l.successor = true) :
      Expands store e l.successor .follower
  | child {x c : ItemId} (hx : Expands store e x .follower) (hchild : c ∈ store.childrenOf x)
      (hc : store.contains c = true) : Expands store e c .follower
  | parent {x p : ItemId} {role : Role} {item : Item} (hx : Expands store e x role)
      (hitem : store.item? x = some item) (hp : item.parent = some p)
      (hc : store.contains p = true) : Expands store e p .ancestor

theorem Expands.of_start {v : Visit} (hv : v ∈ store.startVisits e) :
    store.Expands e v.id v.role := by
  obtain ⟨x, hx, rfl⟩ := List.mem_map.mp hv
  obtain ⟨hx, hc⟩ := List.mem_filter.mp hx
  rcases List.mem_cons.mp hx with rfl | hx
  · exact .root hc
  · split at hx
    · rename_i ht
      exact .carried ht (Option.mem_toList.mp hx) hc
    · cases hx

theorem Expands.next {v w : Visit} (hv : store.Expands e v.id v.role)
    (hw : w ∈ store.visitsAfter v) : store.Expands e w.id w.role := by
  obtain ⟨hc, ⟨l, hl, rfl⟩ | ⟨hr, c, hchild, rfl⟩ | ⟨p, hp, rfl⟩⟩ := mem_visitsAfter.mp hw
  · exact .successor hv hl hc
  · exact .child (hr ▸ hv) hchild hc
  · obtain ⟨item, hitem, hp⟩ := Option.bind_eq_some_iff.mp hp
    exact .parent hv hitem hp hc

theorem Reads.expands {v : Visit} (h : store.Reads e v) : store.Expands e v.id v.role := by
  induction h with
  | start hv => exact .of_start hv
  | next _ hw ih => exact ih.next hw

theorem expands_iff : store.Expands e x role ↔ store.Reads e ⟨x, role⟩ := by
  constructor
  · intro h
    induction h with
    | root hc => exact reads_root hc
    | carried ht hp hc => exact reads_carried ht hp hc
    | successor _ hl hc ih => exact ih.next (mem_visitsAfter.mpr ⟨hc, Or.inl ⟨_, hl, rfl⟩⟩)
    | child _ hchild hc ih =>
      exact ih.next (mem_visitsAfter.mpr ⟨hc, Or.inr (Or.inl ⟨rfl, _, hchild, rfl⟩)⟩)
    | parent _ hitem hp hc ih =>
      exact ih.next (mem_visitsAfter.mpr ⟨hc, Or.inr (Or.inr ⟨_, by rw [hitem]; exact hp, rfl⟩)⟩)
  · exact Reads.expands

theorem exists_reads_iff (P : ItemId → Prop) :
    (∃ v, store.Reads e v ∧ P v.id) ↔ ∃ y role, store.Expands e y role ∧ P y := by
  constructor
  · rintro ⟨v, hv, h⟩
    exact ⟨v.id, v.role, hv.expands, h⟩
  · rintro ⟨y, role, hy, h⟩
    exact ⟨⟨y, role⟩, expands_iff.mp hy, h⟩

end Store

/-- **The reading of a stored plan for an edit ends, and what it reads is exact.** It takes up what waits
for the root and then what waits for the parent that the edit carries, and the excerpt is what it has read
when nothing waits any more. The excerpt holds every stored item that is expanded, precedes an expanded item
or is listed inside one, as the store tells it, and no other item; and each link that the store tells of an
expanded item, once, and no other link. -/
theorem Store.excerpt_exact {store : Store} {e : Edit} (hroot : store.contains e.id = true) :
    ∃ halfway final,
      Loading.Ends store (.start store e) halfway ∧ Loading.Ends store (halfway.resume e) final ∧
      store.excerpt e = .ok final.part ∧
      (∀ x item, final.part.item? x = some item ↔ store.item? x = some item ∧
        ∃ y role, store.Expands e y role ∧
          (x = y ∨ (∃ l ∈ store.linksInto y, l.predecessor = x) ∨ x ∈ store.childrenOf y)) ∧
      final.part.links.Nodup ∧
      ∀ l, l ∈ final.part.links ↔
        ∃ y role, store.Expands e y role ∧ (l ∈ store.linksInto y ∨ l ∈ store.linksFrom y) := by
  obtain ⟨halfway, final, hends, hends', hexcerpt⟩ := Loading.exists_ends hroot
  have hpart : store.readFor e = final.part :=
    Except.ok.inj ((excerpt_of_contains hroot).symm.trans hexcerpt)
  refine ⟨halfway, final, hends, hends', hexcerpt, fun x item => ?_, final.part.nodup_links,
    fun l => ?_⟩
  · rw [← hpart, item?_readFor, exists_reads_iff (x ∈ store.readWith ·)]
    simp only [mem_readWith]
  · rw [← hpart, mem_links_readFor]
    exact exists_reads_iff fun y => l ∈ store.linksInto y ∨ l ∈ store.linksFrom y

/-- The items of a plan that is known from hearsay, but for the barn. The frame and the shell are said to lie
in each other, the box in itself. -/
def hearsayItems : List Item :=
  [{ id := ⟨"box"⟩, parent := some ⟨"box"⟩ },
    { id := ⟨"frame"⟩, parent := some ⟨"shell"⟩ },
    { id := ⟨"nail"⟩, parent := some ⟨"box"⟩ },
    { id := ⟨"pour"⟩, due := Date.ofDay? 5 },
    { id := ⟨"shed"⟩ },
    { id := ⟨"shell"⟩, parent := some ⟨"frame"⟩ },
    { id := ⟨"site"⟩ },
    { id := ⟨"survey"⟩ },
    { id := ⟨"yard"⟩, parent := some ⟨"site"⟩ }]

/-- The links that are known from their predecessors: in a circle, and to an item that nobody knows. -/
def hearsayLinks : List Link :=
  [{ predecessor := ⟨"pour"⟩, successor := ⟨"frame"⟩ },
    { predecessor := ⟨"pour"⟩, successor := ⟨"ghost"⟩ },
    { predecessor := ⟨"frame"⟩, successor := ⟨"pour"⟩, lag := 2 }]

/-- Framing waits for the survey, of which the survey knows nothing. -/
def frameAfterSurvey : Link := { predecessor := ⟨"survey"⟩, successor := ⟨"frame"⟩ }

/-- A plan known from hearsay. The frame is said to hold the nail, the pour and an item that nobody knows,
none of which says so. -/
def hearsayPlan : Store :=
  let told := Listing.toStore
    { items := { id := ⟨"barn"⟩ } :: hearsayItems
      links := hearsayLinks
      children := .ofList [(ItemId.mk "frame", [ItemId.mk "nail", ItemId.mk "ghost", ItemId.mk "pour"]),
        (ItemId.mk "site", [ItemId.mk "shed"])] }
  { told with linksInto := fun id => if id = frameAfterSurvey.successor then [frameAfterSurvey] else [] }

def pourIntoYard : Edit := ({ id := ⟨"pour"⟩ } : Edit).withParent (some ⟨"yard"⟩)

/-- What is read for the pour: all but the barn. -/
def hearsayPart : Network := .ofLists hearsayItems
  (hearsayLinks.take 2 ++ frameAfterSurvey :: hearsayLinks.drop 2)

theorem excerpt_hearsayPlan :
    hearsayPlan.contains pourIntoYard.id = true ∧
    hearsayPlan.excerpt pourIntoYard = .ok hearsayPart ∧
    (∃ halfway final, Loading.Ends hearsayPlan (.start hearsayPlan pourIntoYard) halfway ∧
      Loading.Ends hearsayPlan (halfway.resume pourIntoYard) final ∧ final.part = hearsayPart) ∧
    (∀ x item, hearsayPart.item? x = some item ↔ hearsayPlan.item? x = some item ∧
      ∃ y role, hearsayPlan.Expands pourIntoYard y role ∧
        (x = y ∨ (∃ l ∈ hearsayPlan.linksInto y, l.predecessor = x) ∨ x ∈ hearsayPlan.childrenOf y)) ∧
    ∀ l, l ∈ hearsayPart.links ↔ ∃ y role, hearsayPlan.Expands pourIntoYard y role ∧
      (l ∈ hearsayPlan.linksInto y ∨ l ∈ hearsayPlan.linksFrom y) := by
  have hroot : hearsayPlan.contains pourIntoYard.id = true := by decide +kernel
  have hread : hearsayPlan.readFor pourIntoYard = hearsayPart := by decide +kernel
  have hexcerpt : hearsayPlan.excerpt pourIntoYard = .ok hearsayPart :=
    hread ▸ Store.excerpt_of_contains hroot
  obtain ⟨halfway, final, hends, hends', hfinal, hitems, _, hlinks⟩ := Store.excerpt_exact hroot
  have hpart : final.part = hearsayPart := Except.ok.inj (hfinal.symm.trans hexcerpt)
  rw [hpart] at hitems hlinks
  exact ⟨hroot, hexcerpt, ⟨halfway, final, hends, hends', hpart⟩, hitems, hlinks⟩

end WorkPlan
