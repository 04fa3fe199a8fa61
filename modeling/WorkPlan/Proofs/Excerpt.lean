import WorkPlan.Proofs.Pass

/-! # Excerpts of a network

An excerpt has the items that a reading of the network has met, the links at these items, and beside
them the predecessors of the links into them and their children. The reading is closed: what a change
of the root could lead to from an item that was met is met as well. It follows that the chain of an
item that was met is complete, so the same links bind it, and with them everything that a pass reads.
An excerpt may end in the middle of the network only behind items whose days nobody asks for. -/

namespace WorkPlan
open Relation

/-- Whether `part` has of `net` all that a change of the root can concern, when `reads` says which
visits the reading of it has made. -/
structure Excerpt (part net : Network) (root : ItemId) (reads : Visit → Prop) : Prop where
  read_root : reads ⟨root, .ancestor⟩
  closed : ∀ v w, reads v → net.Leads root v w → w.id ≠ root → reads w
  contains : ∀ v, reads v → net.contains v.id = true
  item?_of_part : ∀ x item, part.item? x = some item → net.item? x = some item
  item?_read : ∀ v, reads v → part.item? v.id = net.item? v.id
  item?_predecessor : ∀ v, reads v → ∀ l ∈ net.linksInto v.id,
    part.item? l.predecessor = net.item? l.predecessor
  item?_child : ∀ v, reads v → ∀ c, net.parent? c = some v.id → part.item? c = net.item? c
  mem_links_of_part : ∀ l, l ∈ part.links → l ∈ net.links
  mem_links : ∀ v, reads v → ∀ l, l.predecessor = v.id ∨ l.successor = v.id → l ∈ net.links →
    l ∈ part.links

/-- Whether a reading has met an item, in whichever role. -/
def Visit.Met (reads : Visit → Prop) (x : ItemId) : Prop := ∃ role, reads ⟨x, role⟩

namespace Network
variable {net net' : Network} {x : ItemId}

theorem contains_of_item?_eq (h : net.item? x = net'.item? x) : net.contains x = net'.contains x := by
  rw [contains_eq_isSome, contains_eq_isSome, h]

theorem parent?_of_item?_eq (h : net.item? x = net'.item? x) : net.parent? x = net'.parent? x := by
  rw [parent?, parent?, h]

theorem span?_of_item?_eq (h : net.item? x = net'.item? x) : net.span? x = net'.span? x := by
  rw [span?, span?, h]

end Network

namespace Excerpt
variable {part net : Network} {root x y : ItemId} {reads : Visit → Prop} {former : Option ItemId}
  {l : Link} (h : Excerpt part net root reads)
include h

/-! ## The items that were met -/

theorem item?_met (hx : Visit.Met reads x) : part.item? x = net.item? x := by
  obtain ⟨role, hx⟩ := hx
  exact h.item?_read _ hx

theorem contains_of_part (hx : part.contains x = true) : net.contains x = true := by
  obtain ⟨item, hitem⟩ := Network.contains_iff.mp hx
  exact Network.contains_iff.mpr ⟨item, h.item?_of_part x item hitem⟩

theorem met_of_leads {v w : Visit} (hv : reads v) (hl : net.Leads root v w) :
    Visit.Met reads w.id := by
  by_cases hw : w.id = root
  · exact ⟨.ancestor, hw ▸ h.read_root⟩
  · exact ⟨w.role, h.closed v w hv hl hw⟩

theorem met_of_inside (hx : Visit.Met reads x) (hxy : net.Inside x y) : Visit.Met reads y := by
  obtain ⟨role, hx⟩ := hx
  exact h.met_of_leads hx (.parent hxy)

theorem met_of_reflTransGen (hx : Visit.Met reads x) (hxy : ReflTransGen net.Inside x y) :
    Visit.Met reads y := by
  induction hxy with
  | refl => exact hx
  | tail _ hyz ih => exact h.met_of_inside ih hyz

theorem met_of_link (hx : Visit.Met reads x) (hl : l ∈ net.linksFrom x)
    (hc : net.contains l.successor = true) : Visit.Met reads l.successor := by
  obtain ⟨role, hx⟩ := hx
  exact h.met_of_leads hx (.successor hl hc)

/-- Whether there is an item is told by the excerpt, if an item that is there would have been met. -/
theorem contains_eq (hx : net.contains x = true → Visit.Met reads x) :
    part.contains x = net.contains x := by
  cases hc : net.contains x with
  | true =>
    rw [← hc]
    exact Network.contains_of_item?_eq (h.item?_met (hx hc))
  | false =>
    rw [← Bool.not_eq_true] at hc ⊢
    exact fun hp => hc (h.contains_of_part hp)

theorem contains_successor (hx : Visit.Met reads x) (hl : l ∈ net.linksFrom x) :
    part.contains l.successor = net.contains l.successor :=
  h.contains_eq (h.met_of_link hx hl)

theorem contains_parent (hx : Visit.Met reads x) (hp : net.parent? x = some y) :
    part.contains y = net.contains y :=
  h.contains_eq fun hc => h.met_of_inside hx (Network.inside_iff.mpr ⟨hp, hc⟩)

/-! ## Links and chains -/

theorem mem_linksFrom (hx : Visit.Met reads x) : l ∈ part.linksFrom x ↔ l ∈ net.linksFrom x := by
  obtain ⟨role, hx⟩ := hx
  rw [Network.mem_linksFrom, Network.mem_linksFrom]
  exact and_congr_left fun hl => ⟨h.mem_links_of_part l, h.mem_links _ hx l (Or.inl hl)⟩

theorem inside_iff (hx : Visit.Met reads x) : net.Inside x y ↔ part.Inside x y := by
  rw [Network.inside_iff, Network.inside_iff, Network.parent?_of_item?_eq (h.item?_met hx)]
  exact and_congr_right fun hp => by rw [h.contains_parent hx hp]

theorem reflTransGen_iff (hx : Visit.Met reads x) :
    ReflTransGen net.Inside x y ↔ ReflTransGen part.Inside x y :=
  Network.reflTransGen_congr fun _ hz _ => h.inside_iff (h.met_of_reflTransGen hx hz)

theorem isAncestor_eq (hx : Visit.Met reads x) : part.isAncestor y x = net.isAncestor y x := by
  rw [Bool.eq_iff_iff, Network.isAncestor_iff_reflTransGen, Network.isAncestor_iff_reflTransGen,
    h.reflTransGen_iff hx]

theorem mem_bindingLinks (hx : Visit.Met reads x) :
    l ∈ net.bindingLinks x ↔ l ∈ part.bindingLinks x := by
  rw [Network.mem_bindingLinks, Network.mem_bindingLinks, h.reflTransGen_iff hx]
  refine and_congr_left fun hchain => ?_
  obtain ⟨role, hs⟩ := h.met_of_reflTransGen hx ((h.reflTransGen_iff hx).mpr hchain)
  exact ⟨h.mem_links _ hs l (Or.inr rfl), h.mem_links_of_part l⟩

theorem item?_binding (hx : Visit.Met reads x) (hl : l ∈ net.bindingLinks x) :
    part.item? l.predecessor = net.item? l.predecessor := by
  obtain ⟨hl, hchain⟩ := Network.mem_bindingLinks.mp hl
  obtain ⟨role, hs⟩ := h.met_of_reflTransGen hx hchain
  exact h.item?_predecessor _ hs l (Network.mem_linksInto.mpr ⟨hl, rfl⟩)

theorem parent?_eq_some_iff (hx : Visit.Met reads x) :
    part.parent? y = some x ↔ net.parent? y = some x := by
  obtain ⟨role, hx⟩ := hx
  constructor
  · intro hp
    obtain ⟨item, hitem, hp⟩ := Option.bind_eq_some_iff.mp hp
    exact (Network.parent?_of_item? (h.item?_of_part y item hitem)).trans hp
  · intro hp
    rw [Network.parent?_of_item?_eq (h.item?_child _ hx y hp), hp]

theorem childrenOf_eq (hx : Visit.Met reads x) : part.childrenOf x = net.childrenOf x :=
  Network.childrenOf_congr fun _ => h.parent?_eq_some_iff hx

theorem mem_dependencies (hx : Visit.Met reads x) :
    y ∈ part.dependencies x ↔ y ∈ net.dependencies x := by
  rw [Network.mem_dependencies, Network.mem_dependencies, h.parent?_eq_some_iff hx]
  simp only [h.mem_bindingLinks hx]

theorem soonestStart_eq (hx : Visit.Met reads x) : part.soonestStart x = net.soonestStart x := by
  symm
  refine Network.soonestStartBy_congr (fun l => h.mem_bindingLinks hx) fun l hl => ?_
  rw [Network.span?_of_item?_eq (h.item?_binding hx hl)]

/-! ## What a change leads to -/

theorem leads_iff {v w : Visit} (hv : reads v) : net.Leads root v w ↔ part.Leads root v w := by
  have hx : Visit.Met reads v.id := ⟨v.role, hv⟩
  constructor
  · intro hl
    cases hl with
    | successor hl hc => exact .successor ((h.mem_linksFrom hx).mpr hl) (h.contains_successor hx hl ▸ hc)
    | child hr hp hc => exact .child hr ((h.parent?_eq_some_iff hx).mpr hp) hc
    | parent hp => exact .parent ((h.inside_iff hx).mp hp)
  · intro hl
    cases hl with
    | successor hl hc => exact .successor ((h.mem_linksFrom hx).mp hl) (h.contains_of_part hc)
    | child hr hp hc => exact .child hr ((h.parent?_eq_some_iff hx).mp hp) hc
    | parent hp => exact .parent ((h.inside_iff hx).mpr hp)

variable (hformer : ∀ p, former = some p → net.contains p = true → reads ⟨p, .ancestor⟩)
include hformer

theorem reads_of_meets {v : Visit} (hv : net.Meets root former v) : reads v :=
  hv.induct h.read_root hformer fun v w _ hv hl hw => h.closed v w hv hl hw

theorem meets_iff {v : Visit} : net.Meets root former v ↔ part.Meets root former v := by
  refine Visit.Reached.congr (fun v => ?_) fun v hv w _ => ?_
  · rw [Network.mem_startVisits, Network.mem_startVisits]
    refine and_congr_right fun _ => or_congr_right (and_congr_right fun hf => ?_)
    rw [h.contains_eq fun hc => ⟨.ancestor, hformer _ hf hc⟩]
  · rw [Network.mem_visitsAfter, Network.mem_visitsAfter]
    exact exists_congr fun u => and_congr_left fun _ => h.leads_iff (h.reads_of_meets hformer hv)

/-! ## The agenda -/

omit hformer in
theorem contains_root : net.contains root = true ∧ part.contains root = true := by
  have hroot := h.contains _ h.read_root
  exact ⟨hroot, (Network.contains_of_item?_eq (h.item?_read _ h.read_root)).trans hroot⟩

theorem roles_eq :
    (Agenda.ofChange part root former).roles = (Agenda.ofChange net root former).roles :=
  (Agenda.roles_congr h.contains_root.1 h.contains_root.2 fun _ => h.meets_iff hformer).symm

theorem met_of_mem_roles (hx : x ∈ (Agenda.ofChange net root former).roles) :
    Visit.Met reads x := by
  obtain ⟨_, role, hm⟩ := (Agenda.mem_roles h.contains_root.1).mp hx
  exact ⟨role, h.reads_of_meets hformer hm⟩

theorem arranged_eq :
    (Agenda.ofChange part root former).order = (Agenda.ofChange net root former).order ∧
      (Agenda.ofChange part root former).cyclic = (Agenda.ofChange net root former).cyclic := by
  have hroles := h.roles_eq hformer
  exact Agenda.arranged_congr hroles fun x hx _ =>
    h.mem_dependencies (h.met_of_mem_roles hformer (hroles ▸ hx))

omit hformer in
theorem mem_issuesAt {i : Issue} (hx : Visit.Met reads x) :
    i ∈ part.issuesAt x ↔ i ∈ net.issuesAt x := by
  have hlinks : ∀ l, (l ∈ part.linksFrom x ∧ part.contains l.successor = false ↔
      l ∈ net.linksFrom x ∧ net.contains l.successor = false) := by
    intro l
    rw [h.mem_linksFrom hx]
    exact and_congr_right fun hl => by rw [h.contains_successor hx hl]
  have hparent : ∀ y, (net.parent? x = some y ∧ part.contains y = false ↔
      net.parent? x = some y ∧ net.contains y = false) :=
    fun y => and_congr_right fun hp => by rw [h.contains_parent hx hp]
  simp only [Network.issuesAt, List.mem_append, List.mem_map, List.mem_filter, Option.mem_toList,
    Option.filter_eq_some_iff, Bool.not_eq_true', hlinks,
    Network.parent?_of_item?_eq (h.item?_met hx), hparent]

theorem mem_agenda_issues {i : Issue} : i ∈ (Agenda.ofChange part root former).issues ↔
    i ∈ (Agenda.ofChange net root former).issues := by
  rw [Agenda.mem_issues h.contains_root.1, Agenda.mem_issues h.contains_root.2]
  refine exists_congr fun x => ?_
  simp only [← h.meets_iff hformer]
  refine and_congr_right fun hm => ?_
  obtain ⟨role, hm⟩ := hm
  exact h.mem_issuesAt ⟨role, h.reads_of_meets hformer hm⟩

/-! ## Another root -/

omit hformer in
/-- The root may be replaced in both networks, if its parent was met. -/
theorem insert {item : Item} (hid : item.id = root)
    (hparent : ∀ p, item.parent = some p → net.contains p = true → reads ⟨p, .ancestor⟩) :
    Excerpt (part.insert item) (net.insert item) root reads := by
  obtain ⟨hnet, hpart⟩ := h.contains_root
  have hitem : ∀ y, part.item? y = net.item? y →
      (part.insert item).item? y = (net.insert item).item? y := by
    intro y hy
    rw [Network.item?_insert, Network.item?_insert, hy]
  have hcontains : ∀ y, (net.insert item).contains y = net.contains y :=
    fun y => Network.contains_insert (hid ▸ hnet)
  constructor
  case read_root => exact h.read_root
  case contains => exact fun v hv => (hcontains v.id).trans (h.contains v hv)
  case closed =>
    intro v w hv hl hw
    cases hl with
    | successor hl hc => exact h.closed v _ hv (.successor hl (hcontains _ ▸ hc)) hw
    | child hr hp hc =>
      rw [Network.parent?_insert, hid, if_neg (Ne.symm hc)] at hp
      exact h.closed v _ hv (.child hr hp hc) hw
    | @parent p hp =>
      obtain ⟨hp, hc⟩ := Network.inside_iff.mp hp
      rw [hcontains] at hc
      rw [Network.parent?_insert] at hp
      split at hp
      · exact hparent p hp hc
      · exact h.closed v _ hv (.parent (Network.inside_iff.mpr ⟨hp, hc⟩)) hw
  case item?_of_part =>
    intro y z hy
    rw [Network.item?_insert] at hy ⊢
    split at hy
    · rename_i he
      rw [if_pos he]
      exact hy
    · rename_i he
      rw [if_neg he]
      exact h.item?_of_part y z hy
  case item?_read => exact fun v hv => hitem _ (h.item?_read v hv)
  case item?_predecessor => exact fun v hv l hl => hitem _ (h.item?_predecessor v hv l hl)
  case item?_child =>
    intro v hv c hc
    rw [Network.parent?_insert] at hc
    split at hc
    · rename_i hcid
      rw [Network.item?_insert, Network.item?_insert, if_pos hcid, if_pos hcid]
    · exact hitem c (h.item?_child v hv c hc)
  case mem_links_of_part => exact h.mem_links_of_part
  case mem_links => exact h.mem_links

end Excerpt

end WorkPlan
