import Mathlib.Data.Prod.Lex
import WorkPlan.Loading
import WorkPlan.Proofs.Reading
import WorkPlan.Proofs.Revision

/-! # Loadings

A loading makes the visits of the search for what can be reached, in the same order, and reads as it
goes. Each step keeps it in step with the search (`InStep.exists_step`): it makes the next visit, or drops
a visit that adds nothing, or passes over one of an unknown item. A step leaves fewer visits to make or
fewer that wait, so a loading ends, whatever the store answers (`InStep.exists_end`), and what it has read
is the excerpt (`exists_ends`). -/

namespace WorkPlan
open Relation

namespace Network
variable {net net' : Network} {links : List Link} {l : Link}

theorem ext_item? (hitems : ∀ x, net.item? x = net'.item? x) (hlinks : net.links = net'.links) :
    net = net' :=
  Network.ext (Std.ExtTreeMap.ext_getElem? hitems) hlinks

theorem links_addLink_congr (h : net.links = net'.links) :
    (net.addLink l).links = (net'.addLink l).links := by
  rw [links_addLink, links_addLink, h]

theorem links_foldl_addLink_congr (h : net.links = net'.links) :
    (links.foldl addLink net).links = (links.foldl addLink net').links := by
  induction links generalizing net net' with
  | nil => exact h
  | cons l rest ih => exact ih (links_addLink_congr h)

end Network

namespace Visit
variable {next : Visit → List Visit} {limit : ℕ} {seen rest : List Visit} {v : Visit}

theorem search_nil : search next limit seen [] = seen := by
  cases limit <;> rfl

theorem search_cons_of_coveredBy (h : CoveredBy seen v) :
    search next limit seen (v :: rest) = search next limit seen rest := by
  cases limit with
  | zero => rfl
  | succ limit => simp only [search, List.dropWhile_cons, any_covers_iff.mpr h, if_true]

theorem search_cons_of_not_coveredBy (h : ¬ CoveredBy seen v) :
    search next (limit + 1) seen (v :: rest) = search next limit (v :: seen) (next v ++ rest) := by
  have hany : (seen.any (·.covers v)) = false := Bool.eq_false_iff.mpr (any_covers_iff.not.mpr h)
  simp only [search, List.dropWhile_cons, hany, Bool.false_eq_true, if_false]

end Visit

/-! ## What is read -/

namespace Store
variable {store : Store} {net net' : Network} {id x : ItemId} {visits : List Visit}

theorem holds_foldl_loadInto (h : store.Holds net) (ids : List ItemId) :
    store.Holds (ids.foldl store.loadInto net) :=
  h.of_item? fun _ => item?_foldl_loadInto h

theorem holds_foldl_addLink (h : store.Holds net) (links : List Link) :
    store.Holds (links.foldl Network.addLink net) :=
  fun x => Network.item?_foldl_addLink.symm ▸ h x

/-- Items and links may be read in any order. -/
theorem foldl_loadInto_foldl_addLink {ids : List ItemId} {links : List Link} (h : store.Holds net) :
    ids.foldl store.loadInto (links.foldl Network.addLink net) =
      links.foldl Network.addLink (ids.foldl store.loadInto net) := by
  refine Network.ext_item? (fun x => ?_) ?_
  · rw [item?_foldl_loadInto (holds_foldl_addLink h links), Network.item?_foldl_addLink,
      Network.item?_foldl_addLink, item?_foldl_loadInto h]
  · rw [links_foldl_loadInto]
    exact Network.links_foldl_addLink_congr links_foldl_loadInto.symm

theorem links_foldl_readInto_congr (h : net.links = net'.links) :
    (visits.foldl (fun net v => store.readInto net v.id) net).links =
      (visits.foldl (fun net v => store.readInto net v.id) net').links := by
  induction visits generalizing net net' with
  | nil => exact h
  | cons v rest ih =>
    refine ih ?_
    unfold readInto
    exact Network.links_foldl_addLink_congr (by rw [links_foldl_loadInto, links_foldl_loadInto, h])

/-- An item that is read anyway may be read before. -/
theorem foldl_readInto_loadInto (hid : id ∈ visits.flatMap fun v => store.readWith v.id) :
    visits.foldl (fun net v => store.readInto net v.id) (store.loadInto .empty id) =
      visits.foldl (fun net v => store.readInto net v.id) .empty := by
  have hlinks : (store.loadInto .empty id).links = Network.empty.links :=
    @links_foldl_loadInto store .empty [id]
  refine Network.ext_item? (fun x => ?_) (links_foldl_readInto_congr hlinks)
  rw [item?_foldl_readInto (holds_loadInto holds_empty id), item?_foldl_readInto holds_empty]
  split
  · rfl
  · rename_i hx
    have hne : x ∉ [id] := fun h => hx ((List.mem_singleton.mp h).symm ▸ hid)
    rw [item?_loadInto holds_empty, if_neg hne]

end Store

namespace Loading
variable {store : Store} {net : Network} {id x : ItemId}

theorem fetch_eq (h : store.Holds net) : fetch store net id = store.loadInto net id := by
  unfold fetch
  split
  · rename_i hc
    obtain ⟨item, hitem⟩ := Network.contains_iff.mp hc
    have hstored : store.item? id = some item := by
      rcases h id with hnone | hsame
      · cases hitem.symm.trans hnone
      · exact hsame.symm.trans hitem
    simp only [Store.loadInto, hstored]
    exact (Network.insert_of_item? (store.id_of_item? id item hstored ▸ hitem)).symm
  · rfl

theorem foldl_fetch_eq {ids : List ItemId} (h : store.Holds net) :
    ids.foldl (fetch store) net = ids.foldl store.loadInto net := by
  induction ids generalizing net with
  | nil => rfl
  | cons id rest ih =>
    rw [List.foldl_cons, List.foldl_cons, fetch_eq h]
    exact ih (Store.holds_loadInto h id)

/-- To read links one by one, each after its predecessor, is to read all predecessors and then all links. -/
theorem foldl_fetch_addLink_eq {links : List Link} (h : store.Holds net) :
    links.foldl (fun net l => (fetch store net l.predecessor).addLink l) net =
      links.foldl Network.addLink ((links.map (·.predecessor)).foldl store.loadInto net) := by
  induction links generalizing net with
  | nil => rfl
  | cons l rest ih =>
    have hload := Store.holds_loadInto h l.predecessor
    have hadd := Store.holds_foldl_addLink hload [l]
    rw [List.foldl_cons, fetch_eq h]
    exact (ih hadd).trans
      (congrArg (rest.foldl Network.addLink) (Store.foldl_loadInto_foldl_addLink hload))

theorem fetchBeside_fetch (h : store.Holds net) (id : ItemId) :
    fetchBeside store (fetch store net id) id = store.readInto net id := by
  have hload := Store.holds_loadInto h id
  have hbefore := Store.holds_foldl_loadInto hload ((store.linksInto id).map (·.predecessor))
  rw [fetch_eq h, fetchBeside, foldl_fetch_addLink_eq hload, ← List.foldl_append,
    foldl_fetch_eq (Store.holds_foldl_addLink hbefore _), Store.foldl_loadInto_foldl_addLink hbefore,
    Store.readInto, ← List.foldl_append]
  rfl

/-! ## Steps -/

variable {s t : Loading} {v w : Visit} {rest seen : List Visit} {first : Network} {limit : ℕ}

theorem covers_iff : s.covers v = true ↔
    ∃ role, s.taken[v.id]? = some role ∧ (Visit.mk v.id role).covers v = true := by
  rw [covers, Option.any_eq_true]

def stored (store : Store) (visits : List Visit) : List Visit :=
  visits.filter fun v => store.contains v.id

/-- Whether a loading is where a search is that has made the visits of `seen` and may make as many as
`limit` more, when the items of those visits were read into `first`. -/
structure InStep (store : Store) (first : Network) (limit : ℕ) (seen : List Visit) (s : Loading) :
    Prop where
  part : s.part = seen.foldr (fun v net => store.readInto net v.id) first
  holds : store.Holds s.part
  covers : ∀ v, store.contains v.id = true → (s.covers v = true ↔ Visit.CoveredBy seen v)
  subset : seen ⊆ Visit.allOf store.known
  pairwise : seen.Pairwise fun later earlier => earlier.covers later = false
  room : (Visit.allOf store.known).length ≤ seen.length + limit

theorem step_of_covers (hw : s.waiting = v :: rest) (hcov : s.covers v = true) :
    s.step store = some { s with waiting := rest } := by
  simp only [step, hw, hcov, if_true]

theorem step_of_missing (hw : s.waiting = v :: rest) (hcov : s.covers v = false)
    (hs : store.Holds s.part) (hv : store.contains v.id = false) :
    s.step store = some ⟨s.part, s.taken.insert v.id v.role, rest⟩ := by
  have hnone : store.item? v.id = none := by simpa [Store.contains] using hv
  have hload : store.loadInto s.part v.id = s.part := by simp only [Store.loadInto, hnone]
  have hpart : s.part.contains v.id = false := by
    rw [Network.contains_eq_false_iff]
    exact (hs v.id).elim id fun h => h.trans hnone
  simp only [step, hw, hcov, fetch_eq hs, hload, hpart]
  rfl

theorem step_of_stored (hw : s.waiting = v :: rest) (hcov : s.covers v = false)
    (hs : store.Holds s.part) (hv : store.contains v.id = true) :
    s.step store = some ⟨store.readInto s.part v.id, s.taken.insert v.id v.role,
      asks store (store.readInto s.part v.id) v ++ rest⟩ := by
  have hpart : (fetch store s.part v.id).contains v.id = true := by
    rw [fetch_eq hs, Network.contains_eq_isSome, Store.item?_loadInto hs,
      if_pos (List.mem_singleton_self _)]
    exact hv
  simp only [step, hw, hcov, hpart, fetchBeside_fetch hs]
  rfl

/-- What an item asks for, once it was read, are the visits of the search and visits of unknown items. -/
theorem stored_asks (hs : store.Holds net) (v : Visit) :
    stored store (asks store (store.readInto net v.id) v) = store.visitsAfter v := by
  have hparent : (store.readInto net v.id).parent? v.id = (store.item? v.id).bind (·.parent) := by
    rw [Network.parent?, Store.item?_readInto hs, if_pos (by simp [Store.readWith])]
  rw [stored, asks, List.filter_reverse, hparent]
  rfl

theorem stored_cons_of_true (hv : store.contains v.id = true) :
    stored store (v :: rest) = v :: stored store rest := List.filter_cons_of_pos hv

theorem stored_cons_of_false (hv : store.contains v.id = false) :
    stored store (v :: rest) = stored store rest := List.filter_cons_of_neg (by rw [hv]; decide)

theorem stored_append (visits more : List Visit) :
    stored store (visits ++ more) = stored store visits ++ stored store more := List.filter_append ..

/-- How much a loading may still do: visits to make, and then visits to take up. -/
def left (limit : ℕ) (s : Loading) : ℕ ×ₗ ℕ := toLex (limit, s.waiting.length)

/-- What waits has no part in it. -/
theorem InStep.waiting (h : InStep store first limit seen s) (waiting : List Visit) :
    InStep store first limit seen { s with waiting } :=
  ⟨h.part, h.holds, h.covers, h.subset, h.pairwise, h.room⟩

theorem InStep.not_coveredBy (h : InStep store first limit seen s) (hcov : s.covers v = false)
    (hv : store.contains v.id = true) : ¬ Visit.CoveredBy seen v := by
  rw [← h.covers v hv, hcov]
  exact Bool.noConfusion

/-- To take up a visit covers what it makes needless, and uncovers nothing. -/
theorem covers_insert (h : InStep store first limit seen s) (hcov : s.covers v = false)
    (hw : store.contains w.id = true) (part : Network) (waiting : List Visit) :
    (Loading.mk part (s.taken.insert v.id v.role) waiting).covers w = true ↔
      Visit.CoveredBy (v :: seen) w := by
  have hsplit : Visit.CoveredBy (v :: seen) w ↔ v.covers w = true ∨ Visit.CoveredBy seen w := by
    simp [Visit.CoveredBy]
  rw [hsplit, covers_iff]
  simp only [Std.ExtTreeMap.getElem?_insert, Std.compare_eq_iff_eq]
  by_cases hid : v.id = w.id
  · have hself : (⟨w.id, v.role⟩ : Visit) = v := by rw [← hid]
    simp only [if_pos hid, Option.some.injEq, exists_eq_left', hself, iff_self_or]
    -- The role of an earlier visit `u` is overwritten. Nothing is uncovered, because `u` was an ancestor:
    -- a follower would have covered `v`.
    rintro ⟨u, hu, huw⟩
    have hv := h.not_coveredBy hcov (hid ▸ hw)
    obtain ⟨huid, hrole⟩ := Visit.covers_iff.mp huw
    refine Visit.covers_iff.mpr ⟨hid, Or.inl (hrole.resolve_right fun hfollower => hv ⟨u, hu, ?_⟩)⟩
    exact Visit.covers_iff.mpr ⟨huid.trans hid.symm, Or.inr hfollower⟩
  · have hnot : ¬ v.covers w = true := fun hvw => hid (Visit.covers_iff.mp hvw).1
    rw [or_iff_right hnot, ← h.covers w hw, covers_iff]
    simp only [if_neg hid]

theorem InStep.limit_pos (h : InStep store first limit seen s) (hcov : s.covers v = false)
    (hv : store.contains v.id = true) : 0 < limit := by
  have hnew : v ∉ seen := fun hmem => h.not_coveredBy hcov hv ⟨v, hmem, Visit.covers_refl v⟩
  have hnodup := List.nodup_cons.mpr ⟨hnew, Visit.nodup_of_pairwise_covers h.pairwise⟩
  have hsubset := List.cons_subset.mpr ⟨Store.mem_allOf_known hv, h.subset⟩
  have hlength := (hnodup.subperm hsubset).length_le
  have hroom := h.room
  rw [List.length_cons] at hlength
  omega

/-- To take up an unknown item covers no visit that the search could make. -/
theorem InStep.pass (h : InStep store first limit seen s) (hcov : s.covers v = false)
    (hv : store.contains v.id = false) (waiting : List Visit) :
    InStep store first limit seen ⟨s.part, s.taken.insert v.id v.role, waiting⟩ where
  part := h.part
  holds := h.holds
  covers w hw := by
    have hnot : ¬ v.covers w = true := fun hvw => by
      rw [← (Visit.covers_iff.mp hvw).1, hv] at hw
      cases hw
    rw [covers_insert h hcov hw]
    simp [Visit.CoveredBy, hnot]
  subset := h.subset
  pairwise := h.pairwise
  room := h.room

theorem InStep.visit (h : InStep store first (limit + 1) seen s) (hcov : s.covers v = false)
    (hv : store.contains v.id = true) (waiting : List Visit) :
    InStep store first limit (v :: seen)
      ⟨store.readInto s.part v.id, s.taken.insert v.id v.role, waiting⟩ where
  part := by rw [h.part]; rfl
  holds := Store.holds_readInto h.holds v.id
  covers _ hw := covers_insert h hcov hw _ _
  subset := List.cons_subset.mpr ⟨Store.mem_allOf_known hv, h.subset⟩
  pairwise := Visit.pairwise_cons (h.not_coveredBy hcov hv) h.pairwise
  room := by
    have hroom := h.room
    rw [List.length_cons]
    omega

/-- **A step of a loading follows the search**, or passes over a visit that the search does not make. -/
theorem InStep.exists_step (h : InStep store first limit seen s) (hw : s.waiting = v :: rest) :
    ∃ t limit' seen', s.step store = some t ∧ InStep store first limit' seen' t ∧
      t.left limit' < s.left limit ∧
      ∀ behind, Visit.search store.visitsAfter limit seen (stored store s.waiting ++ behind) =
        Visit.search store.visitsAfter limit' seen' (stored store t.waiting ++ behind) := by
  have hshorter : ∀ part taken, (Loading.mk part taken rest).left limit < s.left limit := fun _ _ =>
    Prod.Lex.toLex_lt_toLex.mpr (Or.inr ⟨rfl, by simp [hw]⟩)
  rw [hw]
  cases hcov : s.covers v with
  | true =>
    refine ⟨_, limit, seen, step_of_covers hw hcov, h.waiting rest, hshorter _ _, fun behind => ?_⟩
    cases hv : store.contains v.id with
    | false => rw [stored_cons_of_false hv]
    | true =>
      rw [stored_cons_of_true hv]
      exact Visit.search_cons_of_coveredBy ((h.covers v hv).mp hcov)
  | false =>
    cases hv : store.contains v.id with
    | false =>
      exact ⟨_, limit, seen, step_of_missing hw hcov h.holds hv, h.pass hcov hv rest, hshorter _ _,
        fun behind => by rw [stored_cons_of_false hv]⟩
    | true =>
      obtain ⟨limit', rfl⟩ := Nat.exists_eq_succ_of_ne_zero (h.limit_pos hcov hv).ne'
      refine ⟨_, limit', v :: seen, step_of_stored hw hcov h.holds hv, h.visit hcov hv _,
        Prod.Lex.toLex_lt_toLex.mpr (Or.inl (Nat.lt_succ_self _)), fun behind => ?_⟩
      rw [stored_cons_of_true hv, stored_append, stored_asks h.holds, List.append_assoc]
      exact Visit.search_cons_of_not_coveredBy (h.not_coveredBy hcov hv)

/-! ## Runs -/

/-- Whether a loading comes to an end, and what it is there. -/
def Ends (store : Store) (s t : Loading) : Prop :=
  ReflTransGen (fun before after => before.step store = some after) s t ∧ t.waiting = []

theorem InStep.exists_end (h : InStep store first limit seen s) :
    ∃ t limit' seen', Ends store s t ∧ InStep store first limit' seen' t ∧
      ∀ behind, Visit.search store.visitsAfter limit seen (stored store s.waiting ++ behind) =
        Visit.search store.visitsAfter limit' seen' behind := by
  -- By induction on what is left, because a visit that is made may put any number of others on the stack.
  induction hleft : s.left limit using WellFoundedLT.induction generalizing s limit seen with
  | ind n ih =>
    cases hw : s.waiting with
    | nil => exact ⟨s, limit, seen, ⟨.refl, hw⟩, h, fun _ => rfl⟩
    | cons v rest =>
      obtain ⟨t, limit', seen', hstep, ht, hless, hsearch⟩ := h.exists_step hw
      obtain ⟨u, limit'', seen'', ⟨hrun, hend⟩, hu, hsearch'⟩ := ih _ (hleft ▸ hless) ht rfl
      exact ⟨u, limit'', seen'', ⟨.head hstep hrun, hend⟩, hu,
        fun behind => hw ▸ (hsearch behind).trans (hsearch' behind)⟩

theorem inStep_start (store : Store) (e : Edit) :
    InStep store (fetch store .empty e.id) (2 * store.known.length) [] (start store e) where
  part := rfl
  holds := by
    rw [start, fetch_eq Store.holds_empty]
    exact Store.holds_loadInto Store.holds_empty e.id
  covers v _ := by simp [start, covers, Visit.CoveredBy]
  subset := List.nil_subset _
  pairwise := .nil
  room := by rw [Visit.length_allOf, List.length_nil, Nat.zero_add]

theorem stored_start_append_resume (e : Edit) (s : Loading) :
    stored store (start store e).waiting ++ stored store (s.resume e).waiting =
      store.startVisits e := by
  have hwaiting : (start store e).waiting ++ (s.resume e).waiting =
      (e.id :: if e.touches .parent then e.parent.toList else []).map (Visit.mk · .ancestor) := rfl
  rw [← stored_append, hwaiting, stored, List.filter_map]
  rfl

/-- **A loading comes to an end, and to the excerpt for the edit**: once from the root, and once more from
the parent that the edit carries. -/
theorem exists_ends {e : Edit} (hroot : store.contains e.id = true) :
    ∃ halfway final, Ends store (start store e) halfway ∧ Ends store (halfway.resume e) final ∧
      store.excerpt e = .ok final.part := by
  obtain ⟨halfway, limit', seen', hends, hhalf, hsearch⟩ := (inStep_start store e).exists_end
  have hresumed : InStep store _ limit' seen' (halfway.resume e) := hhalf.waiting _
  obtain ⟨final, limit'', seen'', hends', hfinal, hsearch'⟩ := hresumed.exists_end
  refine ⟨halfway, final, hends, hends', ?_⟩
  have hvisits : store.visitsFor e = seen''.reverse := by
    have hwhole := (hsearch (stored store (halfway.resume e).waiting)).trans
      ((congrArg _ (List.append_nil _).symm).trans (hsearch' []))
    rw [stored_start_append_resume, Visit.search_nil] at hwhole
    exact congrArg List.reverse hwhole
  have hread : e.id ∈ (store.visitsFor e).flatMap fun v => store.readWith v.id := by
    obtain ⟨v, hv, hid⟩ := Store.exists_mem_visitsFor.mpr ⟨.ancestor, Store.reads_root hroot⟩
    exact List.mem_flatMap.mpr ⟨v, hv, by simp [Store.readWith, hid]⟩
  rw [Store.excerpt, if_pos hroot, ← Store.foldl_readInto_loadInto hread, hvisits, List.foldl_reverse,
    hfinal.part, fetch_eq Store.holds_empty]

end Loading

end WorkPlan
