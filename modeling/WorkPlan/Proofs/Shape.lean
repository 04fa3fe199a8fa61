import WorkPlan.Proofs.Agenda
import WorkPlan.Proofs.Bounds

/-! # Networks of one shape

Networks have one shape if they have the same items, parents and links, so that only names and days
may differ. What a change leads to is a matter of the shape (`SameShape.meets_iff`), and so is the
order in which it is worked off (`SameShape.order_eq`). -/

namespace WorkPlan
open Relation

/-- Whether two networks differ at most in the names and the days of their items. -/
structure SameShape (net net' : Network) : Prop where
  links : net.links = net'.links
  parent? : ∀ x, net.parent? x = net'.parent? x
  contains : ∀ x, net.contains x = net'.contains x

namespace SameShape
variable {net net' : Network} {root x y : ItemId} {former : Option ItemId} {l : Link}
  (h : SameShape net net')
include h

theorem symm : SameShape net' net :=
  ⟨h.links.symm, fun x => (h.parent? x).symm, fun x => (h.contains x).symm⟩

theorem trans {net'' : Network} (h' : SameShape net' net'') : SameShape net net'' :=
  ⟨h.links.trans h'.links, fun x => (h.parent? x).trans (h'.parent? x),
    fun x => (h.contains x).trans (h'.contains x)⟩

theorem linksFrom_eq : net.linksFrom x = net'.linksFrom x := by
  rw [Network.linksFrom, h.links, Network.linksFrom]

theorem childrenOf_eq : net.childrenOf x = net'.childrenOf x :=
  Network.childrenOf_congr fun c => by rw [h.parent?]

theorem hasChildren_eq : net.hasChildren x = net'.hasChildren x := by
  rw [Network.hasChildren, h.childrenOf_eq, Network.hasChildren]

theorem inside_iff : net.Inside x y ↔ net'.Inside x y :=
  Network.inside_congr (h.parent? x) (h.contains y)

theorem reflTransGen_iff : ReflTransGen net.Inside x y ↔ ReflTransGen net'.Inside x y :=
  Network.reflTransGen_congr fun _ _ _ => h.inside_iff

theorem mem_bindingLinks : l ∈ net.bindingLinks x ↔ l ∈ net'.bindingLinks x :=
  Network.mem_bindingLinks_congr (fun _ => by rw [h.links]) fun _ _ _ => h.inside_iff

theorem soonestStartBy_eq (spanOf : ItemId → Option Span) :
    net.soonestStartBy spanOf x = net'.soonestStartBy spanOf x :=
  Network.soonestStartBy_congr (fun _ => h.mem_bindingLinks) fun _ _ => rfl

theorem mem_dependencies : y ∈ net.dependencies x ↔ y ∈ net'.dependencies x := by
  rw [Network.mem_dependencies, Network.mem_dependencies, h.parent?]
  simp only [h.mem_bindingLinks]

/-! ## The agenda -/

theorem visitsAfter_eq (v : Visit) : net.visitsAfter root v = net'.visitsAfter root v := by
  have hcontains : net.contains = net'.contains := funext h.contains
  simp only [Network.visitsAfter, Network.container?, h.linksFrom_eq, h.childrenOf_eq, h.parent?,
    hcontains]

theorem meets_iff {v : Visit} : net.Meets root former v ↔ net'.Meets root former v := by
  refine Visit.Reached.congr (fun v => ?_) fun v _ w _ => by rw [h.visitsAfter_eq]
  rw [Network.mem_startVisits, Network.mem_startVisits, h.contains]

variable (hroot : net.contains root = true)
include hroot

theorem roles_eq :
    (Agenda.ofChange net root former).roles = (Agenda.ofChange net' root former).roles :=
  Agenda.roles_congr hroot (h.contains root ▸ hroot) fun _ => h.meets_iff

theorem order_eq :
    (Agenda.ofChange net root former).order = (Agenda.ofChange net' root former).order :=
  (Agenda.arranged_congr (h.roles_eq hroot) fun _ _ _ => h.mem_dependencies).1

end SameShape

end WorkPlan
