import WorkPlan.Proofs.PartialPass

/-! # Histories of a network

A network may come about in many ways: items are put in, replaced, given other days and other parents,
and links are added in any order and more than once. Two networks that hold the same items and the same
links differ at most in the order of the links. Each is all of the other that a change can concern
(`excerpt_of_same`), so an edit comes to the same in both, whatever their histories
(`reflow_ofRevisions`). -/

namespace WorkPlan

/-- A step in the making of a network. -/
inductive Revision where
  | insert (x : Item)
  | setParent (id : ItemId) (parent : Option ItemId)
  | setSpan (id : ItemId) (s : Span)
  | addLink (l : Link)

def Revision.link? : Revision → Option Link
  | .addLink l => some l
  | _ => none

namespace Network
variable {net net' : Network} {settings : Settings} {e : Edit}

def revise (net : Network) : Revision → Network
  | .insert x => net.insert x
  | .setParent id parent => net.setParent id parent
  | .setSpan id s => net.setSpan id s
  | .addLink l => net.addLink l

def ofRevisions (history : List Revision) : Network := history.foldl revise empty

theorem ofRevisions_append_singleton (history : List Revision) (step : Revision) :
    ofRevisions (history ++ [step]) = (ofRevisions history).revise step := by
  rw [ofRevisions, List.foldl_append]
  rfl

theorem links_addLink {l : Link} :
    (net.addLink l).links = net.links ++ if l ∈ net.links then [] else [l] := by
  unfold addLink
  split <;> simp [*]

theorem eraseDups_append_singleton (links : List Link) (l : Link) :
    (links ++ [l]).eraseDups = links.eraseDups ++ if l ∈ links then [] else [l] := by
  rw [List.eraseDups_append]
  by_cases hl : l ∈ links <;> simp [List.removeAll, hl, List.eraseDups_cons]

/-- A network lists the links that its history offers, each at the place where it came first. -/
theorem links_ofRevisions (history : List Revision) :
    (ofRevisions history).links = (history.filterMap Revision.link?).eraseDups := by
  induction history using List.reverseRecOn with
  | nil => rfl
  | append_singleton history step ih =>
    rw [ofRevisions_append_singleton, List.filterMap_append]
    cases step with
    | insert x => simpa [List.filterMap_cons, Revision.link?, revise, links_insert] using ih
    | setParent id parent => simpa [List.filterMap_cons, Revision.link?, revise, links_setParent] using ih
    | setSpan id s => simpa [List.filterMap_cons, Revision.link?, revise, links_setSpan] using ih
    | addLink l =>
      have hoffered : [Revision.addLink l].filterMap Revision.link? = [l] := rfl
      rw [hoffered, eraseDups_append_singleton, revise, links_addLink, ih]
      simp only [List.mem_eraseDups]

/-- A network is an excerpt of any other one with the same items and the same links. -/
theorem excerpt_of_same {root : ItemId} (hitems : net.items = net'.items)
    (hlinks : ∀ l, l ∈ net.links ↔ l ∈ net'.links) (hroot : net'.contains root = true) :
    Excerpt net net' root fun v => net'.contains v.id = true := by
  have hitem : ∀ x, net.item? x = net'.item? x := fun x => by rw [item?, hitems, item?]
  constructor
  case read_root => exact hroot
  case closed => exact fun _ _ _ hl _ => hl.contains
  case contains => exact fun _ hv => hv
  case item?_of_part => exact fun x item hx => (hitem x).symm.trans hx
  case item?_read => exact fun v _ => hitem v.id
  case item?_predecessor => exact fun _ _ l _ => hitem l.predecessor
  case item?_child => exact fun _ _ c _ => hitem c
  case mem_links_of_part => exact fun l => (hlinks l).mp
  case mem_links => exact fun _ _ l _ => (hlinks l).mpr

theorem reflow_congr (hitems : net.items = net'.items)
    (hlinks : ∀ l, l ∈ net.links ↔ l ∈ net'.links) :
    Outcome.Alike (net.reflow settings e) (net'.reflow settings e) := by
  cases hroot : net'.contains e.id with
  | true =>
    exact (excerpt_of_same hitems hlinks hroot).reflow_of_read_parent fun _ _ _ _ hc => hc
  | false =>
    -- both are without the root, and fail for the same reason
    have hnone : net'.item? e.id = none := contains_eq_false_iff.mp hroot
    have hsame : net.root? e = net'.root? e := by
      rw [root?, root?, item?, hitems, item?]
    have hfail : ∃ x, net'.root? e = .error x := by
      rw [root?, hnone]
      split <;> exact ⟨_, rfl⟩
    obtain ⟨x, hx⟩ := hfail
    rw [reflow_of_root?_error hx, reflow_of_root?_error (hsame.trans hx)]
    exact .error x

/-- **How a network came about makes no difference to an edit.** Histories that end with the same items
and the same links give the same error, or the same changes, the same move of the root and the same
issues, the items of a cycle listed alike. -/
theorem reflow_ofRevisions {history history' : List Revision}
    (hitems : (ofRevisions history).items = (ofRevisions history').items)
    (hlinks : ∀ l, l ∈ (ofRevisions history).links ↔ l ∈ (ofRevisions history').links) :
    Outcome.Alike ((ofRevisions history).reflow settings e)
      ((ofRevisions history').reflow settings e) :=
  reflow_congr hitems hlinks

end Network

/-! ## Two histories of the shell -/

def pourBeforeShell : Link := { predecessor := ⟨"pour"⟩, successor := ⟨"shell"⟩, lag := 1 }

def shellHistory : List Revision :=
  shellItems.map .insert ++ shellLinks.map .addLink ++ [.addLink pourBeforeShell]

/-- The same plan with second thoughts: links that were added before their ends, and twice, framing that
was a part of the pour at first, and a shell that got its days last. -/
def shellRewritten : List Revision :=
  [.addLink pourBeforeShell, .insert { id := ⟨"shell"⟩ }] ++ shellItems.map .insert ++
    [.setParent ⟨"frame"⟩ (some ⟨"pour"⟩), .setSpan ⟨"shell"⟩ .undated] ++
    shellLinks.map .addLink ++
    [.setParent ⟨"frame"⟩ (some ⟨"shell"⟩), .addLink pourBeforeShell,
      .setSpan ⟨"shell"⟩ ⟨Date.ofDay? 6, Date.ofDay? 8⟩]

theorem reflow_shellRewritten :
    (Network.ofRevisions shellHistory).items = (Network.ofRevisions shellRewritten).items ∧
      (Network.ofRevisions shellHistory).links ≠ (Network.ofRevisions shellRewritten).links ∧
      (∀ l, l ∈ (Network.ofRevisions shellHistory).links ↔
        l ∈ (Network.ofRevisions shellRewritten).links) ∧
      Outcome.Alike ((Network.ofRevisions shellHistory).reflow {} pourLater)
        ((Network.ofRevisions shellRewritten).reflow {} pourLater) := by
  have hitems : (Network.ofRevisions shellHistory).items =
      (Network.ofRevisions shellRewritten).items := by decide +kernel
  have hperm : (Network.ofRevisions shellHistory).links.Perm
      (Network.ofRevisions shellRewritten).links := by decide +kernel
  exact ⟨hitems, by decide +kernel, fun _ => hperm.mem_iff,
    Network.reflow_ofRevisions hitems fun _ => hperm.mem_iff⟩

end WorkPlan
