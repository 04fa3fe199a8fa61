import WorkPlan.Proofs.Shape

/-! # What depends on what

An item depends on the predecessors of the links that bind it and on its children, and waits for
those of them that are other items. With fewer parents it depends on no more (`Loosens.dependsOn`). If
items never wait for one another in a circle, a change leaves nothing stuck (`Agenda.cyclic_eq_nil`).
All that a change of the root leads to depends on the root (`Meets.dependsOn_root`), so what the root
itself depends on stays as it is. -/

namespace WorkPlan
open Relation

namespace Network
variable {net net' : Network} {x y root : ItemId}

/-- Whether the dates of `x` depend directly on those of `y`. -/
def DependsOn (net : Network) (x y : ItemId) : Prop := y ∈ net.dependencies x

/-- Whether no chain of dependencies closes. -/
def Acyclic (net : Network) : Prop := ∀ x, ¬ TransGen net.DependsOn x x

theorem dependsOn_iff : net.DependsOn x y ↔
    (∃ l ∈ net.bindingLinks x, l.predecessor = y) ∨ net.parent? y = some x :=
  mem_dependencies

/-- Whether no item depends directly on itself: none is bound by a link from itself, and none names
itself as its parent. -/
def SelfFree (net : Network) : Prop := ∀ x ∈ net.itemList, ¬ net.DependsOn x.id x.id

instance (net : Network) : Decidable net.SelfFree :=
  inferInstanceAs (Decidable (∀ x ∈ net.itemList, ¬ x.id ∈ net.dependencies x.id))

theorem selfFree_iff :
    net.SelfFree ↔ ∀ x, net.contains x = true → ¬ net.DependsOn x x := by
  constructor
  · intro h x hx
    obtain ⟨item, hitem⟩ := contains_iff.mp hx
    obtain rfl := id_of_item? hitem
    exact h item (mem_itemList.mpr hitem)
  · intro h x hx
    exact h x.id (contains_iff.mpr ⟨x, mem_itemList.mp hx⟩)

theorem SelfFree.sameShape (h : net.SelfFree) (hshape : SameShape net' net) : net'.SelfFree :=
  selfFree_iff.mpr fun x hx hd => selfFree_iff.mp h x ((hshape.contains x).symm.trans hx)
    (hshape.mem_dependencies.mp hd)

theorem dependsOn_predecessor {l : Link} (h : l ∈ net.bindingLinks x) :
    net.DependsOn x l.predecessor :=
  dependsOn_iff.mpr (Or.inl ⟨l, h, rfl⟩)

theorem dependsOn_child (h : net.parent? y = some x) : net.DependsOn x y :=
  dependsOn_iff.mpr (Or.inr h)

theorem Acyclic.predecessor_ne (h : net.Acyclic) {l : Link} (hl : l ∈ net.bindingLinks x) :
    l.predecessor ≠ x := by
  rintro rfl
  exact h _ (.single (dependsOn_predecessor hl))

/-! ## Waiting -/

def Linked (net : Network) (x y : ItemId) : Prop :=
  ∃ l ∈ net.links, l.predecessor = x ∧ l.successor = y

theorem linked_iff : net.Linked x y ↔ y ∈ (net.linksFrom x).map (·.successor) := by
  simp only [Linked, List.mem_map, mem_linksFrom, and_assoc]

/-- Whether `x` is held back by `y`: a link that binds `x` has `y` as its predecessor. -/
def Follows (net : Network) (x y : ItemId) : Prop := ∃ l ∈ net.bindingLinks x, l.predecessor = y

/-- Whether the turn of `x` comes after that of `y`. An item that depends on itself does not wait for
itself. -/
def WaitsFor (net : Network) (x y : ItemId) : Prop := net.DependsOn x y ∧ y ≠ x

/-- Whether items never wait for one another in a circle. -/
def Orderable (net : Network) : Prop := ∀ x, ¬ TransGen net.WaitsFor x x

theorem waitsFor_iff : net.WaitsFor x y ↔ (net.Follows x y ∨ net.parent? y = some x) ∧ y ≠ x :=
  and_congr_left' dependsOn_iff

theorem Acyclic.orderable (h : net.Acyclic) : net.Orderable := fun x hx =>
  h x (TransGen.mono (fun _ _ hab => hab.1) x x hx)

/-! ## Fewer parents -/

/-- Whether a network differs from another one at most in names, in days, and in parents that its items
no longer name. -/
structure Loosens (net' net : Network) : Prop where
  links : net'.links = net.links
  contains : ∀ x, net'.contains x = net.contains x
  parent : ∀ x p, net'.parent? x = some p → net.parent? x = some p

namespace Loosens

theorem of_sameShape (h : SameShape net' net) : net'.Loosens net :=
  ⟨h.links, h.contains, fun x _ hp => (h.parent? x).symm.trans hp⟩

variable (h : net'.Loosens net)
include h

theorem inside (hin : net'.Inside x y) : net.Inside x y := by
  obtain ⟨hp, hc⟩ := inside_iff.mp hin
  exact inside_iff.mpr ⟨h.parent x y hp, (h.contains y).symm.trans hc⟩

theorem bindingLinks_subset : net'.bindingLinks x ⊆ net.bindingLinks x := by
  intro l hl
  obtain ⟨hl, hin⟩ := mem_bindingLinks.mp hl
  exact mem_bindingLinks.mpr ⟨h.links ▸ hl, ReflTransGen.mono (fun _ _ => h.inside) _ _ hin⟩

theorem dependsOn (hd : net'.DependsOn x y) : net.DependsOn x y := by
  refine dependsOn_iff.mpr ((dependsOn_iff.mp hd).imp ?_ (h.parent y x))
  exact fun ⟨l, hl, hp⟩ => ⟨l, h.bindingLinks_subset hl, hp⟩

theorem waitsFor (hw : net'.WaitsFor x y) : net.WaitsFor x y := ⟨h.dependsOn hw.1, hw.2⟩

end Loosens

theorem Acyclic.loosens (hnet : net.Acyclic) (h : net'.Loosens net) : net'.Acyclic := fun x hx =>
  hnet x (TransGen.mono (fun _ _ => h.dependsOn) x x hx)

theorem Orderable.loosens (hnet : net.Orderable) (h : net'.Loosens net) : net'.Orderable :=
  fun x hx => hnet x (TransGen.mono (fun _ _ => h.waitsFor) x x hx)

/-! ## Ranks -/

/-- Identifiers among which all are that depend on anything: items, successors and named parents. -/
def dependents (net : Network) : List ItemId :=
  net.items.keys ++ net.links.map (·.successor) ++ net.itemList.filterMap (·.parent)

theorem mem_dependents (h : net.DependsOn x y) : x ∈ net.dependents := by
  rw [dependents, List.mem_append, List.mem_append]
  rcases dependsOn_iff.mp h with ⟨l, hl, _⟩ | hp
  · obtain ⟨hl, hchain⟩ := mem_bindingLinks.mp hl
    rcases ReflTransGen.cases_head hchain with he | ⟨_, hin, _⟩
    · exact Or.inl (Or.inr (List.mem_map.mpr ⟨l, hl, he.symm⟩))
    · exact Or.inl (Or.inl (mem_keys.mpr hin.contains_left))
  · obtain ⟨item, hitem, hp⟩ := Option.bind_eq_some_iff.mp hp
    have hmem : item ∈ net.itemList := mem_itemList.mpr (by rw [id_of_item? hitem]; exact hitem)
    exact Or.inr (List.mem_filterMap.mpr ⟨item, hmem, hp⟩)

/-- No chain closes if every dependency ranks below what depends on it. -/
theorem acyclic_of_rank (rank : ItemId → Nat)
    (h : ∀ x ∈ net.dependents, ∀ y ∈ net.dependencies x, rank y < rank x) : net.Acyclic :=
  not_transGen_self_of_rank rank fun x y hxy => h x (mem_dependents hxy) y hxy

/-! ## What a change leads to -/

/-- All that a change leads to depends on the root. A follower even has a binding link that does,
which is what the items inside it inherit. -/
theorem Meets.dependsOn_root (hroot : net.contains root = true) {v : Visit}
    (h : net.Meets root none v) : ReflTransGen net.DependsOn v.id root ∧
      (v.role = .follower →
        ∃ l ∈ net.bindingLinks v.id, ReflTransGen net.DependsOn l.predecessor root) := by
  refine h.induct (P := fun v => ReflTransGen net.DependsOn v.id root ∧ (v.role = .follower →
    ∃ l ∈ net.bindingLinks v.id, ReflTransGen net.DependsOn l.predecessor root)) ?_ ?_ ?_
  · exact ⟨.refl, fun h => by cases h⟩
  · intro _ h
    cases h
  · rintro v w hv ⟨hdep, hfollower⟩ hstep _
    cases hstep with
    | @successor l hl _ =>
      obtain ⟨hl, he⟩ := mem_linksFrom.mp hl
      have hbinding : l ∈ net.bindingLinks l.successor := mem_bindingLinks.mpr ⟨hl, .refl⟩
      rw [← he] at hdep
      exact ⟨hdep.head (dependsOn_predecessor hbinding), fun _ => ⟨l, hbinding, hdep⟩⟩
    | child hrole hp _ =>
      obtain ⟨l, hl, hr⟩ := hfollower hrole
      have hbinding := bindingLinks_subset_of_inside (inside_iff.mpr ⟨hp, hv.contains hroot⟩) hl
      exact ⟨hr.head (dependsOn_predecessor hbinding), fun _ => ⟨l, hbinding, hr⟩⟩
    | parent hin =>
      exact ⟨hdep.head (dependsOn_child (inside_iff.mp hin).1), fun h => by cases h⟩

end Network

theorem Agenda.cyclic_eq_nil {net : Network} {root : ItemId} {former : Option ItemId}
    (h : net.Orderable) : (Agenda.ofChange net root former).cyclic = [] :=
  Arrangement.stuck_eq_nil h fun _ _ hy => by
    rw [List.mem_filter, decide_eq_true_eq] at hy
    exact hy

end WorkPlan
