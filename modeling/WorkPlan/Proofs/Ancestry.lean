import Mathlib.Logic.Relation
import WorkPlan.Proofs.Network

/-! # The parent chain as a relation

`Inside` is one step of the chain. The ancestors of an item are what the chain leads to, the item
itself left out (`mem_ancestors`): the climb has as many steps as there are items, and each one meets
another item. A link binds an item exactly if it leads into the chain, the item included
(`mem_bindingLinks`). Both hold in every network, also where chains run into loops. -/

namespace WorkPlan.Network
open Relation

variable {net net' : Network} {x y a : ItemId}

/-- Whether an item stands directly inside another one that exists. -/
def Inside (net : Network) (x y : ItemId) : Prop := net.container? x = some y

theorem inside_iff : net.Inside x y ↔ net.parent? x = some y ∧ net.contains y = true :=
  container?_eq_some_iff

theorem Inside.contains_right (h : net.Inside x y) : net.contains y = true := (inside_iff.mp h).2

theorem Inside.contains_left (h : net.Inside x y) : net.contains x = true :=
  contains_of_parent? (inside_iff.mp h).1

theorem contains_of_reflTransGen (h : ReflTransGen net.Inside x a) (hx : net.contains x = true) :
    net.contains a = true := by
  cases h with
  | refl => exact hx
  | tail _ h => exact h.contains_right

/-- Two relations lead from `x` to the same ends if they agree on all that the first one leads to. -/
theorem reflTransGen_congr {α : Type} {r s : α → α → Prop} {x z : α}
    (h : ∀ y, ReflTransGen r x y → ∀ z, r y z ↔ s y z) :
    ReflTransGen r x z ↔ ReflTransGen s x z := by
  constructor
  · intro hr
    induction hr with
    | refl => exact .refl
    | tail hxy hyz ih => exact ih.tail ((h _ hxy _).mp hyz)
  · intro hs
    induction hs with
    | refl => exact .refl
    | tail _ hyz ih => exact ih.tail ((h _ ih _).mpr hyz)

/-- A relation whose steps go down in rank has no closed chain. -/
theorem not_transGen_self_of_rank {α : Type} {r : α → α → Prop} (rank : α → Nat)
    (h : ∀ a b, r a b → rank b < rank a) (x : α) : ¬ TransGen r x x := by
  intro hx
  have hfall : TransGen (· > ·) (rank x) (rank x) := hx.lift rank h
  rw [transGen_eq_self] at hfall
  exact Nat.lt_irrefl _ hfall

/-- A chain of `r` is one of `s`, or it has a step that is none of `s`. -/
theorem reflTransGen_or_other_step {α : Type} {r s : α → α → Prop} {x y : α}
    (h : ReflTransGen r x y) : ReflTransGen s x y ∨
      ∃ a b, ReflTransGen r x a ∧ r a b ∧ ¬ s a b ∧ ReflTransGen r b y := by
  induction h with
  | refl => exact Or.inl .refl
  | @tail b c hxb hbc ih =>
    rcases ih with hs | ⟨a, a', hxa, haa, hother, hb⟩
    · by_cases hbc' : s b c
      · exact Or.inl (hs.tail hbc')
      · exact Or.inr ⟨b, c, hxb, hbc, hbc', .refl⟩
    · exact Or.inr ⟨a, a', hxa, haa, hother, hb.tail hbc⟩

/-- A closed chain of `r` is one of `s`, or it has a step that is none of `s`. -/
theorem transGen_or_other_step {α : Type} {r s : α → α → Prop} {x : α} (h : TransGen r x x) :
    TransGen s x x ∨ ∃ a b, r a b ∧ ¬ s a b ∧ ReflTransGen r b a := by
  obtain ⟨z, hxz, hzx⟩ := TransGen.head'_iff.mp h
  by_cases hs : s x z
  · rcases reflTransGen_or_other_step hzx with hback | ⟨a, b, hza, hab, hother, hbx⟩
    · exact Or.inl (.head' hs hback)
    · exact Or.inr ⟨a, b, hab, hother, (hbx.tail hxz).trans hza⟩
  · exact Or.inr ⟨x, z, hxz, hs, hzx⟩

/-- A closed chain of `s`, whose steps are those of `r` and steps to `p` from where `q` holds, is one of
`r` already, or `r` alone leads from `p` back to where such a step starts. -/
theorem transGen_or_return {α : Type} {r s : α → α → Prop} {q : α → Prop} {p x : α}
    (h : ∀ a b, s a b → r a b ∨ q a ∧ b = p) (hx : TransGen s x x) :
    TransGen r x x ∨ ∃ a, q a ∧ ReflTransGen r p a := by
  have hchain : ∀ y, TransGen s x y →
      TransGen r x y ∨ (∃ a, q a ∧ ReflTransGen r x a) ∧ ReflTransGen r p y := by
    intro y hy
    induction hy with
    | single hy =>
      rcases h _ _ hy with hr | ⟨hs, rfl⟩
      · exact Or.inl (.single hr)
      · exact Or.inr ⟨⟨x, hs, .refl⟩, .refl⟩
    | @tail b _ _ hbc ih =>
      rcases ih, h _ _ hbc with ⟨ht | ⟨ha, hp⟩, hr | ⟨hs, rfl⟩⟩
      · exact Or.inl (ht.tail hr)
      · exact Or.inr ⟨⟨b, hs, ht.to_reflTransGen⟩, .refl⟩
      · exact Or.inr ⟨ha, hp.tail hr⟩
      · exact Or.inr ⟨ha, .refl⟩
  rcases hchain x hx with ht | ⟨⟨a, ha, hxa⟩, hp⟩
  · exact Or.inl ht
  · exact Or.inr ⟨a, ha, hp.trans hxa⟩

/-! ## The climb -/

theorem transGen_of_mem_climb {steps : Nat} {seen : List ItemId} (h : a ∈ net.climb steps seen x) :
    TransGen net.Inside x a ∧ a ∉ seen := by
  induction steps generalizing seen x with
  | zero => simp [climb] at h
  | succ steps ih =>
    rw [climb] at h
    split at h
    · cases h
    · rename_i p hp
      split at h
      · cases h
      · rename_i hseen
        rcases List.mem_cons.mp h with rfl | h
        · exact ⟨.single hp, hseen⟩
        · obtain ⟨ht, ha⟩ := ih h
          exact ⟨.head hp ht, fun hs => ha (List.mem_cons_of_mem _ hs)⟩

/-- What was seen and what the climb adds to it is closed under steps of the chain, if the seen items
are closed but for the one where the climb starts. When no steps are left, all items were seen. -/
theorem climb_closed (steps : Nat) (seen : List ItemId) (x : ItemId) (hx : x ∈ seen)
    (hn : seen.Nodup) (hs : seen ⊆ net.items.keys)
    (hlen : net.items.keys.length ≤ seen.length + steps)
    (hc : ∀ y ∈ seen, y ≠ x → ∀ z, net.Inside y z → z ∈ seen) :
    ∀ y ∈ seen ++ net.climb steps seen x, ∀ z, net.Inside y z →
      z ∈ seen ++ net.climb steps seen x := by
  induction steps generalizing seen x with
  | zero =>
    intro y _ z hyz
    have hperm := (hn.subperm hs).perm_of_length_le (by omega)
    exact List.mem_append_left _ (hperm.mem_iff.mpr (mem_keys.mpr hyz.contains_right))
  | succ steps ih =>
    -- where the climb stops, nothing is missing once the step from `x` is known
    have hend : (∀ z, net.Inside x z → z ∈ seen) → ∀ y ∈ seen ++ [], ∀ z, net.Inside y z →
        z ∈ seen ++ [] := by
      intro hx y hy z hyz
      rw [List.append_nil] at hy ⊢
      by_cases hyx : y = x
      · exact hx z (hyx ▸ hyz)
      · exact hc y hy hyx z hyz
    rw [climb]
    split
    · rename_i hnone
      refine hend fun z hz => ?_
      rw [Inside, hnone] at hz; cases hz
    · rename_i p hp
      split
      · rename_i hseen
        refine hend fun z hz => ?_
        rw [Inside, hp] at hz
        exact Option.some.inj hz ▸ hseen
      · rename_i hseen
        have hkey : p ∈ net.items.keys := mem_keys.mpr (Inside.contains_right (x := x) hp)
        have hclosed := ih (p :: seen) p List.mem_cons_self
          (List.nodup_cons.mpr ⟨hseen, hn⟩) (List.cons_subset.mpr ⟨hkey, hs⟩)
          (by simp only [List.length_cons]; omega)
          (by
            intro y hy hyp z hyz
            have hy : y ∈ seen := (List.mem_cons.mp hy).resolve_left hyp
            by_cases hyx : y = x
            · rw [hyx, Inside, hp] at hyz
              exact Option.some.inj hyz ▸ List.mem_cons_self
            · exact List.mem_cons_of_mem _ (hc y hy hyx z hyz))
        -- the same items, listed with `p` in another place
        have hsame : (seen ++ p :: net.climb steps (p :: seen) p).Perm
            (p :: seen ++ net.climb steps (p :: seen) p) := List.perm_middle
        intro y hy z hyz
        exact hsame.mem_iff.mpr (hclosed y (hsame.mem_iff.mp hy) z hyz)

theorem isChain_climb (steps : Nat) (seen : List ItemId) (x : ItemId) :
    (x :: net.climb steps seen x).IsChain net.Inside := by
  induction steps generalizing seen x with
  | zero => exact .singleton x
  | succ steps ih =>
    rw [climb]
    split
    · exact .singleton x
    · rename_i p hp
      split
      · exact .singleton x
      · exact (ih (p :: seen) p).cons_cons hp

theorem mem_ancestors : a ∈ net.ancestors x ↔ a ≠ x ∧ TransGen net.Inside x a := by
  constructor
  · intro h
    obtain ⟨ht, hne⟩ := transGen_of_mem_climb h
    exact ⟨fun he => hne (he ▸ List.mem_singleton_self x), ht⟩
  · rintro ⟨hne, ht⟩
    have hx : net.contains x = true := by
      obtain ⟨y, hy, _⟩ := TransGen.head'_iff.mp ht
      exact hy.contains_left
    have hclosed := climb_closed net.items.size [x] x (List.mem_singleton_self x)
      (List.pairwise_singleton _ x) (List.cons_subset.mpr ⟨mem_keys.mpr hx, List.nil_subset _⟩)
      (by rw [Std.ExtTreeMap.length_keys]; omega)
      (by intro y hy hyx; exact absurd (List.mem_singleton.mp hy) hyx)
    have hmem : ∀ b, TransGen net.Inside x b → b ∈ [x] ++ net.climb net.items.size [x] x := by
      intro b hb
      induction hb with
      | single h => exact hclosed x (by simp) _ h
      | tail _ h ih => exact hclosed _ ih _ h
    exact (List.mem_append.mp (hmem a ht)).resolve_left fun h => hne (List.mem_singleton.mp h)

/-- An item and its ancestors are what the chain leads to from it. -/
theorem mem_cons_ancestors : a ∈ x :: net.ancestors x ↔ ReflTransGen net.Inside x a := by
  rw [List.mem_cons, mem_ancestors, reflTransGen_iff_eq_or_transGen]
  by_cases he : a = x
  · simp [he]
  · simp [he]

theorem isAncestor_iff : net.isAncestor a x = true ↔ a ≠ x ∧ TransGen net.Inside x a := by
  rw [isAncestor, decide_eq_true_eq, mem_ancestors]

theorem isAncestor_iff_reflTransGen :
    net.isAncestor a x = true ↔ a ≠ x ∧ ReflTransGen net.Inside x a := by
  rw [isAncestor_iff, reflTransGen_iff_eq_or_transGen]
  exact and_congr_right fun hne => (or_iff_right hne).symm

/-- An item that is not `a` has `a` outside its chain exactly if `a` is none of its ancestors. -/
theorem not_mem_ancestors (h : x ≠ a) :
    a ∉ net.ancestors x ↔ ¬ ReflTransGen net.Inside x a := by
  rw [mem_ancestors, reflTransGen_iff_eq_or_transGen]
  constructor
  · rintro hn (he | ht)
    · exact h he.symm
    · exact hn ⟨h.symm, ht⟩
  · exact fun hn ht => hn (Or.inr ht.2)

/-! ## Binding links -/

theorem mem_bindingLinks {l : Link} :
    l ∈ net.bindingLinks x ↔ l ∈ net.links ∧ ReflTransGen net.Inside x l.successor := by
  simp only [bindingLinks, List.mem_append, List.mem_flatMap, mem_linksInto, mem_ancestors]
  constructor
  · rintro (⟨hl, he⟩ | ⟨a, ⟨_, ht⟩, hl, he⟩)
    · exact ⟨hl, he ▸ .refl⟩
    · exact ⟨hl, he ▸ ht.to_reflTransGen⟩
  · rintro ⟨hl, hr⟩
    rcases reflTransGen_iff_eq_or_transGen.mp hr with he | ht
    · exact Or.inl ⟨hl, he⟩
    · by_cases he : l.successor = x
      · exact Or.inl ⟨hl, he⟩
      · exact Or.inr ⟨l.successor, ⟨he, ht⟩, hl, rfl⟩

theorem bindingLinks_subset_of_inside (h : net.Inside x y) :
    net.bindingLinks y ⊆ net.bindingLinks x := by
  intro l hl
  obtain ⟨hl, hr⟩ := mem_bindingLinks.mp hl
  exact mem_bindingLinks.mpr ⟨hl, hr.head h⟩

/-- The links that bind an item are told by the links of the network and the chain of the item. -/
theorem mem_bindingLinks_congr (hl : ∀ l, l ∈ net.links ↔ l ∈ net'.links)
    (h : ∀ y, ReflTransGen net.Inside x y → ∀ z, net.Inside y z ↔ net'.Inside y z) {l : Link} :
    l ∈ net.bindingLinks x ↔ l ∈ net'.bindingLinks x := by
  rw [mem_bindingLinks, mem_bindingLinks, hl, reflTransGen_congr h]

theorem inside_congr (hp : net.parent? x = net'.parent? x)
    (hc : net.contains y = net'.contains y) : net.Inside x y ↔ net'.Inside x y := by
  rw [inside_iff, inside_iff, hp, hc]

end WorkPlan.Network
