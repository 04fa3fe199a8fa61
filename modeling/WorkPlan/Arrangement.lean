import WorkPlan.Item

/-!
Putting items into an order in which each stands behind what it needs. Of the items that need
nothing more, the first of the list is always taken; what is left when none can be taken is stuck.
No item is lost (`perm_ofNeeds`), and an item is stuck only because it needs another stuck one
(`exists_stuck_need`), so the needs of a stuck item can be followed for ever.
-/

namespace WorkPlan

/-- The items that could be put into order, and those that could not. -/
structure Arrangement where
  order : List ItemId
  stuck : List ItemId
deriving DecidableEq

namespace Arrangement

def take (needs : ItemId → List ItemId) : Nat → List ItemId → Arrangement
  | 0, rest => ⟨[], rest⟩
  | steps + 1, rest =>
    match rest.find? fun id => (needs id).all (· ∉ rest) with
    | none => ⟨[], rest⟩
    | some id =>
      let later := take needs steps (rest.erase id)
      ⟨id :: later.order, later.stuck⟩

/-- Arranges the items of a list; needs outside the list count as met. -/
def ofNeeds (needs : ItemId → List ItemId) (ids : List ItemId) : Arrangement :=
  take needs ids.length ids

theorem perm_take (needs : ItemId → List ItemId) (steps : Nat) (rest : List ItemId) :
    ((take needs steps rest).order ++ (take needs steps rest).stuck).Perm rest := by
  induction steps generalizing rest with
  | zero => exact .refl _
  | succ steps ih =>
    rw [take]
    split
    · exact .refl _
    · rename_i id h
      exact ((ih (rest.erase id)).cons id).trans
        (List.perm_cons_erase (List.mem_of_find?_eq_some h)).symm

theorem perm_ofNeeds (needs : ItemId → List ItemId) (ids : List ItemId) :
    ((ofNeeds needs ids).order ++ (ofNeeds needs ids).stuck).Perm ids :=
  perm_take ..

theorem exists_stuck_need_of_take (needs : ItemId → List ItemId) (steps : Nat) (rest : List ItemId)
    (hr : rest.length ≤ steps) {id : ItemId} (h : id ∈ (take needs steps rest).stuck) :
    ∃ other ∈ needs id, other ∈ (take needs steps rest).stuck := by
  induction steps generalizing rest with
  | zero => simp [List.length_eq_zero_iff.mp (Nat.le_zero.mp hr), take] at h
  | succ steps ih =>
    rw [take] at h ⊢
    split at h
    · rename_i hnone
      simpa using List.find?_eq_none.mp hnone id h
    · rename_i taken htaken
      have hmem := List.mem_of_find?_eq_some htaken
      exact ih (rest.erase taken) (by rw [List.length_erase_of_mem hmem]; omega) h

theorem exists_stuck_need (needs : ItemId → List ItemId) (ids : List ItemId) {id : ItemId}
    (h : id ∈ (ofNeeds needs ids).stuck) : ∃ other ∈ needs id, other ∈ (ofNeeds needs ids).stuck :=
  exists_stuck_need_of_take needs _ ids (Nat.le_refl _) h

end Arrangement

end WorkPlan
