import WorkPlan.Descent
import WorkPlan.Proofs.Audit

/-! # Looking for cycles by descending

What a descent has seen and left again leads to no cycle, and from what is on the way links lead to where the
descent is (`Descent.Ready`). So what is met again on the way is on a cycle, and when all that comes next
has been left, the identifier itself leads to no cycle (`Descent.right_visit`). Each step down uses up one
of the identifiers that have not been seen, so the depth that is allowed is enough. A descent from the items
one after the other therefore finds the first one that leads to a cycle (`Network.descend_eq`). -/

namespace WorkPlan
open Relation

namespace Descent
variable {next : ItemId → List ItemId} {nodes items rest : List ItemId} {depth : Nat} {d d' : Descent}
  {x y : ItemId}

/-! ## Cycles -/

def Safe (next : ItemId → List ItemId) (x : ItemId) : Prop :=
  ∀ y, ReflTransGen (fun a b => b ∈ next a) x y → ¬ TransGen (fun a b => b ∈ next a) y y

theorem Safe.of_next (h : Safe next x) (hy : y ∈ next x) : Safe next y :=
  fun z hyz => h z (hyz.head hy)

/-- A cycle to which `x` leads is one to which something next to `x` leads. -/
theorem safe_of_forall_next (h : ∀ y ∈ next x, Safe next y) : Safe next x := by
  intro z hxz hz
  rcases ReflTransGen.cases_head hxz with rfl | ⟨y, hxy, hyz⟩
  · obtain ⟨y, hxy, hyx⟩ := TransGen.head'_iff.mp hz
    exact h y hxy x hyx hz
  · exact h y hxy z hyz hz

/-! ## One descent -/

/-- What holds when some identifiers are descended to: what has been left is safe, the way leads to the
identifiers, and there is room for all that has not been seen. -/
structure Ready (next : ItemId → List ItemId) (nodes : List ItemId) (depth : Nat)
    (items : List ItemId) (d : Descent) : Prop where
  seen : ∀ a ∈ d.way, a ∈ d.seen
  safe : ∀ a ∈ d.seen, a ∉ d.way → Safe next a
  leads : ∀ a ∈ d.way, ∀ x ∈ items, TransGen (fun a b => b ∈ next a) a x
  room : ∃ unseen : List ItemId, unseen.length ≤ depth ∧ ∀ a ∈ nodes, a ∉ d.seen → a ∈ unseen
  known : items ⊆ nodes

/-- What the end of a descent says about the identifiers that were descended to, and what it leaves. -/
def End.Right (next : ItemId → List ItemId) (items : List ItemId) (d : Descent) : End → Prop
  | .cycle => ∃ x ∈ items, ¬ Safe next x
  | .clear d' => (∀ x ∈ items, Safe next x) ∧ (∀ a ∈ d'.seen, a ∉ d'.way → Safe next a) ∧
      (∀ a ∈ d.seen, a ∈ d'.seen) ∧ ∀ a, a ∈ d'.way ↔ a ∈ d.way
  | .tooDeep => False

theorem Ready.subset (h : d.Ready next nodes depth items) (hsub : rest ⊆ items) :
    d.Ready next nodes depth rest :=
  { h with
    leads := fun a ha x hx => h.leads a ha x (hsub hx)
    known := fun _ hx => h.known (hsub hx) }

/-- A descent to further identifiers is ready where an earlier one left off. -/
theorem Ready.after (h : d.Ready next nodes depth items)
    (hsafe : ∀ a ∈ d'.seen, a ∉ d'.way → Safe next a) (hseen : ∀ a ∈ d.seen, a ∈ d'.seen)
    (hway : ∀ a, a ∈ d'.way ↔ a ∈ d.way) : d'.Ready next nodes depth items where
  seen a ha := hseen a (h.seen a ((hway a).mp ha))
  safe := hsafe
  leads a ha := h.leads a ((hway a).mp ha)
  room := by
    obtain ⟨unseen, hlength, hmem⟩ := h.room
    exact ⟨unseen, hlength, fun a ha hnew => hmem a ha fun hold => hnew (hseen a hold)⟩
  known := h.known

/-- One step down takes up one of the identifiers that have not been seen. -/
theorem Ready.enter (h : d.Ready next nodes (depth + 1) [x]) (hnodes : ∀ a ∈ nodes, next a ⊆ nodes)
    (hx : x ∉ d.seen) :
    (Descent.mk (d.seen.insert x) (d.way.insert x)).Ready next nodes depth (next x) := by
  have hmem : ∀ {s : Std.ExtTreeSet ItemId} {a}, a ∈ s.insert x ↔ x = a ∨ a ∈ s := by
    intro s a
    rw [Std.ExtTreeSet.mem_insert, Std.compare_eq_iff_eq]
  constructor
  case seen => exact fun a ha => hmem.mpr ((hmem.mp ha).imp_right (h.seen a))
  case safe =>
    intro a ha hway
    obtain ⟨hne, hway⟩ := not_or.mp (hmem.not.mp hway)
    exact h.safe a ((hmem.mp ha).resolve_left hne) hway
  case leads =>
    intro a ha y hy
    rcases hmem.mp ha with rfl | ha
    · exact .single hy
    · exact (h.leads a ha x (List.mem_singleton_self x)).tail hy
  case room =>
    obtain ⟨unseen, hlength, hunseen⟩ := h.room
    have hleft : x ∈ unseen := hunseen x (h.known (List.mem_singleton_self x)) hx
    refine ⟨unseen.erase x, ?_, fun a ha hnew => ?_⟩
    · rw [List.length_erase_of_mem hleft]
      omega
    · obtain ⟨hne, hnew⟩ := not_or.mp (hmem.not.mp hnew)
      exact (List.mem_erase_of_ne (Ne.symm hne)).mpr (hunseen a ha hnew)
  case known => exact hnodes x (h.known (List.mem_singleton_self x))

/-- What comes of the descents to further identifiers after a safe one counts for all of them. -/
theorem End.Right.cons {e : End} (h : e.Right next rest d') (hx : Safe next x)
    (hseen : ∀ a ∈ d.seen, a ∈ d'.seen) (hway : ∀ a, a ∈ d'.way ↔ a ∈ d.way) :
    e.Right next (x :: rest) d := by
  cases e with
  | cycle =>
    obtain ⟨y, hy, hbad⟩ := h
    exact ⟨y, List.mem_cons_of_mem x hy, hbad⟩
  | clear d'' =>
    obtain ⟨hall, hsafe, hseen', hway'⟩ := h
    exact ⟨List.forall_mem_cons.mpr ⟨hx, hall⟩, hsafe, fun a ha => hseen' a (hseen a ha),
      fun a => (hway' a).trans (hway a)⟩
  | tooDeep => exact h

theorem right_each {visit : ItemId → Descent → End}
    (hvisit : ∀ x d, d.Ready next nodes depth [x] → x ∉ d.seen → (visit x d).Right next [x] d)
    (h : d.Ready next nodes depth items) : (each visit items d).Right next items d := by
  induction items generalizing d with
  | nil => exact ⟨nofun, h.safe, fun _ ha => ha, fun _ => .rfl⟩
  | cons x rest ih =>
    have hrest := h.subset (List.subset_cons_self x rest)
    rw [each]
    split
    · -- the way leads from `x` to what comes next, which is `x` again
      rename_i hway
      exact ⟨x, List.mem_cons_self, fun hsafe => hsafe x .refl (h.leads x hway x List.mem_cons_self)⟩
    · rename_i hway
      split
      · rename_i hseen
        exact (ih hrest).cons (h.safe x hseen hway) (fun _ ha => ha) fun _ => .rfl
      · rename_i hnew
        have hright := hvisit x d (h.subset (List.cons_subset_cons x (List.nil_subset rest))) hnew
        generalize visit x d = e at hright ⊢
        cases e with
        | cycle =>
          obtain ⟨y, hy, hbad⟩ := hright
          exact ⟨x, List.mem_cons_self, List.mem_singleton.mp hy ▸ hbad⟩
        | clear d' =>
          obtain ⟨hx, hsafe, hseen, hleft⟩ := hright
          exact (ih (hrest.after hsafe hseen hleft)).cons (hx x (List.mem_singleton_self x)) hseen hleft
        | tooDeep => exact hright

/-- A descent to an identifier that has not been seen ends as it should. -/
theorem right_visit (hnodes : ∀ a ∈ nodes, next a ⊆ nodes) (h : d.Ready next nodes depth [x])
    (hx : x ∉ d.seen) : (visit next depth x d).Right next [x] d := by
  induction depth generalizing d x with
  | zero =>
    obtain ⟨unseen, hlength, hunseen⟩ := h.room
    have hmem := hunseen x (h.known (List.mem_singleton_self x)) hx
    rw [List.length_eq_zero_iff.mp (Nat.le_zero.mp hlength)] at hmem
    cases hmem
  | succ depth ih =>
    have hright := right_each (fun _ _ => ih) (h.enter hnodes hx)
    rw [visit]
    generalize each (visit next depth) (next x) ⟨d.seen.insert x, d.way.insert x⟩ = e at hright ⊢
    cases e with
    | cycle =>
      obtain ⟨y, hy, hbad⟩ := hright
      exact ⟨x, List.mem_singleton_self x, fun hsafe => hbad (hsafe.of_next hy)⟩
    | clear d' =>
      obtain ⟨hall, hsafe, hseen, hway⟩ := hright
      have hxsafe : Safe next x := safe_of_forall_next hall
      have herase : ∀ a, a ∈ d'.way.erase x ↔ a ≠ x ∧ a ∈ d'.way := fun a => by
        rw [Std.ExtTreeSet.mem_erase, ne_eq, Std.compare_eq_iff_eq, eq_comm]
      refine ⟨?_, ?_, ?_, ?_⟩
      · exact fun y hy => List.mem_singleton.mp hy ▸ hxsafe
      · intro a ha hleft
        by_cases hax : a = x
        · exact hax ▸ hxsafe
        · exact hsafe a ha fun hway => hleft ((herase a).mpr ⟨hax, hway⟩)
      · exact fun a ha => hseen a (Std.ExtTreeSet.mem_insert.mpr (Or.inr ha))
      · intro a
        rw [herase, hway, Std.ExtTreeSet.mem_insert, Std.compare_eq_iff_eq]
        constructor
        · exact fun ⟨hne, ha⟩ => ha.resolve_left (Ne.symm hne)
        · exact fun ha => ⟨fun he => hx (he ▸ h.seen a ha), Or.inr ha⟩
    | tooDeep => exact hright

/-! ## Descents from one identifier after the other -/

/-- The answer is there, and it is the first identifier that leads to a cycle. -/
theorem first_eq {p : ItemId → Bool} (hnodes : ∀ a ∈ nodes, next a ⊆ nodes)
    (hp : ∀ x ∈ items, p x = true ↔ ¬ Safe next x) (h : d.Ready next nodes depth items)
    (hway : ∀ a, a ∉ d.way) : first next depth items d = some (items.find? p) := by
  induction items generalizing d with
  | nil => rfl
  | cons x rest ih =>
    obtain ⟨hpx, hprest⟩ := List.forall_mem_cons.mp hp
    have hrest := h.subset (List.subset_cons_self x rest)
    rw [first, List.find?_cons]
    split
    · rename_i hseen
      rw [Bool.eq_false_iff.mpr (hpx.not.mpr (not_not.mpr (h.safe x hseen (hway x))))]
      exact ih hprest hrest hway
    · rename_i hnew
      have hright := right_visit hnodes
        (h.subset (List.cons_subset_cons x (List.nil_subset rest))) hnew
      generalize visit next depth x d = e at hright ⊢
      cases e with
      | cycle =>
        obtain ⟨y, hy, hbad⟩ := hright
        rw [hpx.mpr (List.mem_singleton.mp hy ▸ hbad)]
      | clear d' =>
        obtain ⟨hx, hsafe, hseen, hleft⟩ := hright
        rw [Bool.eq_false_iff.mpr (hpx.not.mpr (not_not.mpr (hx x (List.mem_singleton_self x))))]
        exact ih hprest (hrest.after hsafe hseen hleft) fun a => (hleft a).not.mpr (hway a)
      | tooDeep => exact hright.elim

end Descent

/-! ## Descents along links -/

namespace Network
variable {net : Network} {x y : ItemId}

theorem not_safe_iff :
    ¬ Descent.Safe (fun id => (net.linksFrom id).map (·.successor)) x ↔ net.LeadsToCycle x := by
  simp only [Descent.Safe, ← linked_iff, not_forall, not_not, exists_prop, LeadsToCycle]

def descentEnds (net : Network) : List ItemId := net.items.keys ++ net.links.map (·.successor)

theorem ready_descend : Descent.Ready (fun id => (net.linksFrom id).map (·.successor))
    net.descentEnds (net.items.size + net.links.length) (net.itemList.map (·.id)) {} where
  seen _ ha := absurd ha Std.ExtTreeSet.not_mem_empty
  safe _ ha := absurd ha Std.ExtTreeSet.not_mem_empty
  leads _ ha := absurd ha Std.ExtTreeSet.not_mem_empty
  room := by
    refine ⟨net.descentEnds, ?_, fun _ ha _ => ha⟩
    rw [descentEnds, List.length_append, List.length_map, Std.ExtTreeMap.length_keys]
  known _ hx := List.mem_append_left _ (mem_keys.mpr (mem_ids.mp hx))

/-- The descents end, and they find the first item that leads to a cycle of links. -/
theorem descend_eq : net.descend = some net.cyclicItem? := by
  refine Descent.first_eq ?_ ?_ ready_descend fun _ => Std.ExtTreeSet.not_mem_empty
  · intro a _ y hy
    obtain ⟨l, hl, _, rfl⟩ := linked_iff.mpr hy
    exact List.mem_append_right _ (List.mem_map.mpr ⟨l, hl, rfl⟩)
  · intro x _
    rw [decide_eq_true_eq, mem_endless, not_safe_iff]

/-- The descent from the brief comes to nothing, and the one from the draft comes back to it. -/
example : reviewPlan.descend = some (some ⟨"draft"⟩) := by decide +kernel

end Network

end WorkPlan
