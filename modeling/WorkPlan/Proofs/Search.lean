import Mathlib.Data.List.Perm.Subperm
import Mathlib.Data.List.TakeWhile
import WorkPlan.Search

/-! # What a search visits

A search makes only visits that it can reach (`reached_of_mem_trace`), never one that an earlier
visit covers (`pairwise_trace`), and with room for every visit it covers all that it can reach
(`coveredBy_trace`). So an item is visited as a follower exactly if it can be reached as one, whatever
the order in which the stack is worked off (`mem_trace_follower_iff`). -/

namespace WorkPlan.Visit

/-- The visits that a search can reach. -/
inductive Reached (next : Visit → List Visit) (start : List Visit) : Visit → Prop
  | start {v : Visit} (h : v ∈ start) : Reached next start v
  | next {v w : Visit} (hv : Reached next start v) (hw : w ∈ next v) : Reached next start w

/-- Whether one of the visits makes `w` needless. -/
def CoveredBy (visits : List Visit) (w : Visit) : Prop := ∃ v ∈ visits, v.covers w = true

theorem covers_iff {v w : Visit} :
    v.covers w = true ↔ v.id = w.id ∧ (w.role = .ancestor ∨ v.role = .follower) := by
  simp [covers]

theorem covers_refl (v : Visit) : v.covers v = true := by
  rw [covers_iff]
  cases hv : v.role <;> simp

theorem eq_of_covers_follower {v w : Visit} (h : v.covers w = true) (hw : w.role = .follower) :
    v = w := by
  obtain ⟨hid, hrole⟩ := covers_iff.mp h
  obtain ⟨_, r⟩ := v
  obtain ⟨_, s⟩ := w
  simp_all

theorem CoveredBy.mono {seen later : List Visit} {w : Visit} (h : CoveredBy seen w)
    (hs : seen ⊆ later) : CoveredBy later w := by
  obtain ⟨v, hv, hc⟩ := h
  exact ⟨v, hs hv, hc⟩

theorem any_covers_iff {seen : List Visit} {w : Visit} :
    (seen.any (·.covers w)) = true ↔ CoveredBy seen w := by
  simp [CoveredBy]

def allOf (ids : List ItemId) : List Visit :=
  ids.flatMap fun id => [⟨id, .ancestor⟩, ⟨id, .follower⟩]

theorem mem_allOf {ids : List ItemId} {v : Visit} : v ∈ allOf ids ↔ v.id ∈ ids := by
  obtain ⟨id, role⟩ := v
  cases role <;> simp [allOf]

theorem length_allOf (ids : List ItemId) : (allOf ids).length = 2 * ids.length := by
  simp [allOf, List.length_flatMap, Nat.mul_comm]

section
variable (next : Visit → List Visit)

/-- A step of a search: either nothing on the stack is left to visit, or the first such visit is
made and what it asks for goes on top of the rest. -/
theorem search_succ (limit : Nat) (seen stack : List Visit) :
    ((∀ w ∈ stack, CoveredBy seen w) ∧ search next (limit + 1) seen stack = seen) ∨
      ∃ skipped v rest, stack = skipped ++ v :: rest ∧ (∀ w ∈ skipped, CoveredBy seen w) ∧
        ¬ CoveredBy seen v ∧
        search next (limit + 1) seen stack = search next limit (v :: seen) (next v ++ rest) := by
  have hsplit := List.takeWhile_append_dropWhile (p := fun v => seen.any (·.covers v)) (l := stack)
  have hskip : ∀ w ∈ stack.takeWhile (fun v => seen.any (·.covers v)), CoveredBy seen w :=
    fun w hw => any_covers_iff.mp
      (List.mem_takeWhile_imp (p := fun v => seen.any (·.covers v)) hw)
  cases hd : stack.dropWhile (fun v => seen.any (·.covers v)) with
  | nil =>
    left
    rw [hd, List.append_nil] at hsplit
    exact ⟨hsplit ▸ hskip, by simp [search, hd]⟩
  | cons v rest =>
    right
    refine ⟨_, v, rest, (hd ▸ hsplit).symm, hskip, ?_, by simp [search, hd]⟩
    intro hv
    have hhead := List.head?_dropWhile_not (fun v => seen.any (·.covers v)) stack
    rw [hd] at hhead
    simp [any_covers_iff.mpr hv] at hhead

theorem subset_search (limit : Nat) (seen stack : List Visit) :
    seen ⊆ search next limit seen stack := by
  induction limit generalizing seen stack with
  | zero => exact List.Subset.refl _
  | succ limit ih =>
    rcases search_succ next limit seen stack with ⟨_, h⟩ | ⟨_, v, rest, _, _, _, h⟩
    · rw [h]; exact List.Subset.refl _
    · rw [h]
      exact List.Subset.trans (List.subset_cons_self v seen) (ih (v :: seen) (next v ++ rest))

/-- What holds of the visits made and waiting, and passes on to the visits asked for, holds of all
visits that a search makes. -/
theorem forall_mem_search {P : Visit → Prop} (hnext : ∀ v w, P v → w ∈ next v → P w)
    (limit : Nat) (seen stack : List Visit) (hseen : ∀ v ∈ seen, P v) (hstack : ∀ v ∈ stack, P v) :
    ∀ v ∈ search next limit seen stack, P v := by
  induction limit generalizing seen stack with
  | zero => exact hseen
  | succ limit ih =>
    rcases search_succ next limit seen stack with ⟨_, h⟩ | ⟨skipped, v, rest, hst, _, _, h⟩
    · rw [h]; exact hseen
    · have hv : P v := hstack v (by simp [hst])
      rw [h]
      apply ih
      · intro w hw
        rcases List.mem_cons.mp hw with rfl | hw
        · exact hv
        · exact hseen w hw
      · intro w hw
        rcases List.mem_append.mp hw with hw | hw
        · exact hnext v w hv hw
        · exact hstack w (by simp [hst, hw])

theorem pairwise_cons {seen : List Visit} {v : Visit} (hv : ¬ CoveredBy seen v)
    (h : seen.Pairwise fun later earlier => earlier.covers later = false) :
    (v :: seen).Pairwise fun later earlier => earlier.covers later = false := by
  refine List.pairwise_cons.mpr ⟨fun w hw => ?_, h⟩
  cases hc : w.covers v with
  | false => rfl
  | true => exact absurd ⟨w, hw, hc⟩ hv

theorem pairwise_search (limit : Nat) (seen stack : List Visit)
    (h : seen.Pairwise fun later earlier => earlier.covers later = false) :
    (search next limit seen stack).Pairwise fun later earlier => earlier.covers later = false := by
  induction limit generalizing seen stack with
  | zero => exact h
  | succ limit ih =>
    rcases search_succ next limit seen stack with ⟨_, he⟩ | ⟨_, v, rest, _, _, hv, he⟩
    · rw [he]; exact h
    · rw [he]
      exact ih _ _ (pairwise_cons hv h)

theorem nodup_of_pairwise_covers {seen : List Visit}
    (h : seen.Pairwise fun later earlier => earlier.covers later = false) : seen.Nodup :=
  h.imp fun {v w} hc he => by
    rw [he, covers_refl] at hc
    cases hc

/-- What the visits made ask for is covered or waiting; a step keeps it so. -/
theorem covered_or_waiting {seen skipped rest : List Visit} {v : Visit}
    (hskip : ∀ w ∈ skipped, CoveredBy seen w)
    (h : ∀ u ∈ seen, ∀ w ∈ next u, CoveredBy seen w ∨ w ∈ skipped ++ v :: rest) :
    ∀ u ∈ v :: seen, ∀ w ∈ next u, CoveredBy (v :: seen) w ∨ w ∈ next v ++ rest := by
  intro u hu w hw
  have hgrow : seen ⊆ v :: seen := List.subset_cons_self v seen
  rcases List.mem_cons.mp hu with rfl | hu
  · exact Or.inr (List.mem_append_left _ hw)
  · rcases h u hu w hw with hc | hs
    · exact Or.inl (hc.mono hgrow)
    · rcases List.mem_append.mp hs with hs | hs
      · exact Or.inl ((hskip w hs).mono hgrow)
      · rcases List.mem_cons.mp hs with rfl | hs
        · exact Or.inl ⟨w, List.mem_cons_self, covers_refl w⟩
        · exact Or.inr (List.mem_append_right _ hs)

/-- With room for all visits of `all`, a search ends closed: it covers its stack and whatever its
visits ask for. At the limit the visits made are as many as those of `all`, so nothing is left. -/
theorem coveredBy_search {all : List Visit} (hall : ∀ v ∈ all, next v ⊆ all)
    (limit : Nat) (seen stack : List Visit) (hseen : seen ⊆ all) (hstack : stack ⊆ all)
    (hp : seen.Pairwise fun later earlier => earlier.covers later = false)
    (hlimit : all.length ≤ seen.length + limit)
    (hclosed : ∀ v ∈ seen, ∀ w ∈ next v, CoveredBy seen w ∨ w ∈ stack) :
    (∀ w ∈ stack, CoveredBy (search next limit seen stack) w) ∧
      ∀ v ∈ search next limit seen stack, ∀ w ∈ next v,
        CoveredBy (search next limit seen stack) w := by
  induction limit generalizing seen stack with
  | zero =>
    have hperm := ((nodup_of_pairwise_covers hp).subperm hseen).perm_of_length_le (by omega)
    have hmade : ∀ w ∈ all, CoveredBy seen w := fun w hw =>
      ⟨w, hperm.mem_iff.mpr hw, covers_refl w⟩
    exact ⟨fun w hw => hmade w (hstack hw), fun v hv w hw => hmade w (hall v (hseen hv) hw)⟩
  | succ limit ih =>
    rcases search_succ next limit seen stack with ⟨hdone, he⟩ | ⟨skipped, v, rest, rfl, hskip, hv, he⟩
    · rw [he]
      refine ⟨hdone, fun v hv w hw => ?_⟩
      rcases hclosed v hv w hw with h | h
      · exact h
      · exact hdone w h
    · have hvall : v ∈ all := hstack (by simp)
      have hrest : rest ⊆ all := fun w hw => hstack (by simp [hw])
      have hgrow : v :: seen ⊆ search next limit (v :: seen) (next v ++ rest) :=
        subset_search next limit _ _
      obtain ⟨hs, hc⟩ := ih (v :: seen) (next v ++ rest)
        (List.cons_subset.mpr ⟨hvall, hseen⟩)
        (List.append_subset.mpr ⟨hall v hvall, hrest⟩) (pairwise_cons hv hp)
        (by simp only [List.length_cons]; omega) (covered_or_waiting next hskip hclosed)
      rw [he]
      refine ⟨fun w hw => ?_, hc⟩
      rcases List.mem_append.mp hw with hw | hw
      · exact (hskip w hw).mono (List.Subset.trans (List.subset_cons_self _ _) hgrow)
      · rcases List.mem_cons.mp hw with rfl | hw
        · exact ⟨w, hgrow List.mem_cons_self, covers_refl w⟩
        · exact hs w (List.mem_append_right _ hw)

end

/-! ## The trace of a whole search -/

section
variable {next : Visit → List Visit} {limit : Nat} {start : List Visit}

theorem reached_of_mem_trace {v : Visit} (h : v ∈ trace next limit start) :
    Reached next start v :=
  forall_mem_search next (P := Reached next start) (fun _ _ hv hw => hv.next hw) limit [] start
    (by simp) (fun _ hv => .start hv) v (by simpa [trace] using h)

theorem pairwise_trace : (trace next limit start).Pairwise fun earlier later =>
    earlier.covers later = false := by
  rw [trace, List.pairwise_reverse]
  exact pairwise_search next limit [] start .nil

variable {all : List Visit}

theorem coveredBy_trace (hstart : start ⊆ all) (hall : ∀ v ∈ all, next v ⊆ all)
    (hlimit : all.length ≤ limit)
    (hmono : ∀ v w, v.covers w = true → next w ⊆ next v) {v : Visit} (h : Reached next start v) :
    CoveredBy (trace next limit start) v := by
  obtain ⟨hs, hc⟩ := coveredBy_search next hall limit [] start (by simp) hstart .nil (by simpa)
    (by simp)
  have hmade : CoveredBy (search next limit [] start) v := by
    induction h with
    | start h => exact hs _ h
    | @next v w _ hw ih =>
      obtain ⟨u, hu, huv⟩ := ih
      exact hc u hu w (hmono u v huv hw)
  exact hmade.mono fun w hw => by simpa [trace] using hw

/-- A search in which every visit is one as a follower makes exactly the visits that it can reach. -/
theorem mem_trace_iff_of_follower (hstart : start ⊆ all) (hall : ∀ v ∈ all, next v ⊆ all)
    (hlimit : all.length ≤ limit) (hfollower : ∀ v ∈ all, v.role = .follower) {v : Visit} :
    v ∈ trace next limit start ↔ Reached next start v := by
  constructor
  · exact reached_of_mem_trace
  · intro h
    obtain ⟨hs, hc⟩ := coveredBy_search next hall limit [] start (by simp) hstart .nil (by simpa)
      (by simp)
    have hmade : v ∈ all ∧ v ∈ search next limit [] start := by
      induction h with
      | @start v h =>
        obtain ⟨u, hu, hcov⟩ := hs v h
        have hv := hstart h
        exact ⟨hv, eq_of_covers_follower hcov (hfollower v hv) ▸ hu⟩
      | @next v w _ hw ih =>
        obtain ⟨u, hu, hcov⟩ := hc v ih.2 w hw
        have hw := hall v ih.1 hw
        exact ⟨hw, eq_of_covers_follower hcov (hfollower w hw) ▸ hu⟩
    simpa [trace] using hmade.2

theorem mem_trace_follower_iff (hstart : start ⊆ all) (hall : ∀ v ∈ all, next v ⊆ all)
    (hlimit : all.length ≤ limit) (hmono : ∀ v w, v.covers w = true → next w ⊆ next v)
    {id : ItemId} :
    ⟨id, .follower⟩ ∈ trace next limit start ↔ Reached next start ⟨id, .follower⟩ := by
  constructor
  · exact reached_of_mem_trace
  · intro h
    obtain ⟨u, hu, hcov⟩ := coveredBy_trace hstart hall hlimit hmono h
    rwa [eq_of_covers_follower hcov rfl] at hu

theorem exists_mem_trace_iff (hstart : start ⊆ all) (hall : ∀ v ∈ all, next v ⊆ all)
    (hlimit : all.length ≤ limit) (hmono : ∀ v w, v.covers w = true → next w ⊆ next v)
    {id : ItemId} :
    (∃ v ∈ trace next limit start, v.id = id) ↔ ∃ role, Reached next start ⟨id, role⟩ := by
  constructor
  · rintro ⟨v, hv, rfl⟩
    exact ⟨v.role, reached_of_mem_trace hv⟩
  · rintro ⟨role, h⟩
    obtain ⟨u, hu, hcov⟩ := coveredBy_trace hstart hall hlimit hmono h
    exact ⟨u, hu, (covers_iff.mp hcov).1⟩

/-- Two searches reach the same visits if the first one's visits ask for the same in both; visits
that the second one starts with need not be asked for. -/
theorem Reached.congr {next' : Visit → List Visit} {start' : List Visit}
    (hs : ∀ v, v ∈ start ↔ v ∈ start')
    (h : ∀ v, Reached next start v → ∀ w, w ∉ start → (w ∈ next v ↔ w ∈ next' v)) {v : Visit} :
    Reached next start v ↔ Reached next' start' v := by
  constructor
  · intro hv
    induction hv with
    | start hv => exact .start ((hs _).mp hv)
    | @next v w hv hw ih =>
      by_cases hw' : w ∈ start
      · exact .start ((hs w).mp hw')
      · exact ih.next ((h v hv w hw').mp hw)
  · intro hv
    induction hv with
    | start hv => exact .start ((hs _).mpr hv)
    | @next v w _ hw ih =>
      by_cases hw' : w ∈ start
      · exact .start hw'
      · exact ih.next ((h v ih w hw').mpr hw)

end

end WorkPlan.Visit
