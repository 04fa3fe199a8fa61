import WorkPlan.Proofs.FinalDays

/-! # Containment stays free of loops

Containment has no loop if no parent chain comes back to where it starts. To put an item under another
one closes a loop only if that one is inside the item (`LoopFree.setParent`), and this is what the check
of an edit rules out. The check looks at the parent that the edit leaves the root with, but only if the
edit touches the parent; so its promise holds for the edits that touch whatever they propose
(`loopFree_of_reflow`), and an edit that proposes a parent without touching it goes unchecked
(`loop_of_untouched_parent`). -/

namespace WorkPlan
open Relation

namespace Network
variable {net : Network} {id x y : ItemId} {parent : Option ItemId}

/-- Whether no item is inside itself, directly or through others. -/
def LoopFree (net : Network) : Prop := ∀ x, ¬ TransGen net.Inside x x

/-- There is no loop if every item ranks above the one that it is in. -/
theorem loopFree_of_rank (rank : ItemId → Nat)
    (h : ∀ x ∈ net.itemList, ∀ p ∈ x.parent, rank p < rank x.id) : net.LoopFree := by
  refine not_transGen_self_of_rank rank fun x y hxy => ?_
  obtain ⟨item, hitem, hp⟩ := Option.bind_eq_some_iff.mp (inside_iff.mp hxy).1
  obtain rfl := id_of_item? hitem
  exact h item (mem_itemList.mpr hitem) y hp

/-! ## Another parent -/

theorem contains_setParent : (net.setParent id parent).contains x = net.contains x := by
  rw [contains_eq_isSome, item?_setParent, contains_eq_isSome]
  split
  · rw [Option.isSome_map]
  · rfl

theorem parent?_setParent_of_ne (h : id ≠ x) :
    (net.setParent id parent).parent? x = net.parent? x := by
  rw [parent?, item?_setParent, if_neg h, parent?]

theorem inside_setParent (h : (net.setParent id parent).Inside x y) :
    net.Inside x y ∨ x = id ∧ parent = some y ∧ net.contains y = true := by
  obtain ⟨hp, hc⟩ := inside_iff.mp h
  rw [contains_setParent] at hc
  by_cases hx : id = x
  · obtain ⟨item, hitem, hp⟩ := Option.bind_eq_some_iff.mp hp
    rw [item?_setParent, if_pos hx] at hitem
    obtain ⟨_, _, rfl⟩ := Option.map_eq_some_iff.mp hitem
    exact Or.inr ⟨hx.symm, hp, hc⟩
  · rw [parent?_setParent_of_ne hx] at hp
    exact Or.inl (inside_iff.mpr ⟨hp, hc⟩)

/-- A loop that a new parent closes would lead from that parent back to the item. -/
theorem LoopFree.setParent (h : net.LoopFree)
    (hp : ∀ p, parent = some p → net.contains p = true → ¬ ReflTransGen net.Inside p id) :
    (net.setParent id parent).LoopFree := by
  intro x hx
  by_cases hnew : ∃ p, parent = some p ∧ net.contains p = true
  · obtain ⟨p, rfl, hc⟩ := hnew
    rcases transGen_or_return (r := net.Inside) (q := (· = id)) (p := p)
      (fun a b hab => (inside_setParent hab).imp_right fun hn =>
        ⟨hn.1, (Option.some.inj hn.2.1).symm⟩) hx with hloop | ⟨a, rfl, hback⟩
    · exact h x hloop
    · exact hp p rfl hc hback
  · exact h x (TransGen.mono
      (fun a b hab => (inside_setParent hab).resolve_right fun hn => hnew ⟨b, hn.2⟩) x x hx)

/-! ## The check of an edit -/

theorem checkParent_eq_ok {item : Item} : net.checkParent item = .ok () ↔
    ∀ p, item.parent = some p →
      net.contains p = true ∧ ¬ ReflTransGen net.Inside p item.id := by
  rw [checkParent]
  cases item.parent with
  | none => simp
  | some p =>
    simp only [Option.some.injEq, forall_eq']
    by_cases hself : p = item.id
    · rw [if_pos hself, hself]
      simp only [reduceCtorEq, false_iff]
      exact fun h => h.2 .refl
    · rw [if_neg hself, ← not_mem_ancestors hself]
      by_cases hc : net.contains p = true
      · by_cases ha : net.isAncestor item.id p = true
        · have hmem : item.id ∈ net.ancestors p := by simpa [isAncestor] using ha
          simp [hc, ha, hmem]
        · have hmem : item.id ∉ net.ancestors p := by simpa [isAncestor] using ha
          simp [hc, ha, hmem]
      · simp [hc]

/-- **An edit that touches whatever parent it proposes leaves containment free of loops**, and a new
parent is an item of the network. -/
theorem loopFree_of_reflow {settings : Settings} {e : Edit} {o : Outcome} (hnet : net.LoopFree)
    (he : e.proposed.parent = true → e.touches .parent = true)
    (h : net.reflow settings e = .ok o) :
    ∃ stored, net.item? e.id = some stored ∧
      (net.setParent e.id (e.applyTo stored).parent).LoopFree ∧
      ∀ p, (e.applyTo stored).parent = some p → stored.parent ≠ some p →
        net.contains p = true := by
  obtain ⟨_, hpass, _⟩ := reflow_eq_ok.mp h
  obtain ⟨_, stored, hstored, hcheck, _⟩ := pass?_eq_ok.mp hpass
  have hid : (e.applyTo stored).id = e.id := id_of_item? (x := stored) hstored
  refine ⟨stored, hstored, ?_⟩
  by_cases ht : e.touches .parent = true
  · have hparent := checkParent_eq_ok.mp (hcheck ht)
    rw [hid] at hparent
    exact ⟨hnet.setParent fun p hp _ => (hparent p hp).2, fun p hp _ => (hparent p hp).1⟩
  · -- the parent is the stored one, so nothing moves
    have hsame : (e.applyTo stored).parent = stored.parent := by
      have hproposed : e.proposed.parent = false := Bool.eq_false_iff.mpr fun hp => ht (he hp)
      simp only [Edit.applyTo, hproposed, Bool.false_eq_true, if_false]
    rw [hsame]
    refine ⟨hnet.setParent fun p hp hc hback => ?_, fun p hp hne => absurd hp hne⟩
    have hin : net.Inside e.id p := inside_iff.mpr ⟨(parent?_of_item? hstored).trans hp, hc⟩
    exact hnet _ (TransGen.head' hin hback)

end Network

/-! ## A parent for the pour, and one for the shell -/

def pourIntoShell : Edit := ({ id := ⟨"pour"⟩ } : Edit).withParent (some ⟨"shell"⟩)

theorem loopFree_shellPlan : shellPlan.LoopFree :=
  Network.loopFree_of_rank (fun id => if id = ⟨"frame"⟩ then 1 else 0) (by decide +kernel)

theorem loopFree_pourIntoShell :
    shellPlan.LoopFree ∧
      (pourIntoShell.proposed.parent = true → pourIntoShell.touches .parent = true) ∧
      shellPlan.reflow {} pourIntoShell = .ok {} ∧
      ∃ stored, shellPlan.item? pourIntoShell.id = some stored ∧
        (shellPlan.setParent pourIntoShell.id (pourIntoShell.applyTo stored).parent).LoopFree ∧
        ∀ p, (pourIntoShell.applyTo stored).parent = some p → stored.parent ≠ some p →
          shellPlan.contains p = true := by
  have htouched : pourIntoShell.proposed.parent = true → pourIntoShell.touches .parent = true := by
    decide
  have hreflow : shellPlan.reflow {} pourIntoShell = .ok {} := by decide +kernel
  exact ⟨loopFree_shellPlan, htouched, hreflow,
    Network.loopFree_of_reflow loopFree_shellPlan htouched hreflow⟩

/-- The shell is to be inside framing, as an edit of its start. -/
def shellUnderFrame : Edit :=
  { id := ⟨"shell"⟩, parent := some ⟨"frame"⟩, touched := { start := true },
    proposed := { parent := true } }

/-- The shell is to be inside what does not exist, as an edit of its start. -/
def shellUnderAttic : Edit := { shellUnderFrame with parent := some ⟨"attic"⟩ }

/-- A parent that is proposed but not touched is stored unchecked: the shell is then inside framing,
which is inside the shell, or inside an item that does not exist. -/
theorem loop_of_untouched_parent :
    shellPlan.LoopFree ∧
    (∃ stored, shellPlan.item? ⟨"shell"⟩ = some stored ∧
      (∃ o, shellPlan.reflow {} shellUnderFrame = .ok o) ∧
      ¬ (shellPlan.setParent ⟨"shell"⟩ (shellUnderFrame.applyTo stored).parent).LoopFree) ∧
    (∃ stored, shellPlan.item? ⟨"shell"⟩ = some stored ∧
      (∃ o, shellPlan.reflow {} shellUnderAttic = .ok o) ∧
      ∃ p, (shellUnderAttic.applyTo stored).parent = some p ∧ stored.parent ≠ some p ∧
        shellPlan.contains p = false) := by
  have hframe : shellPlan.reflow {} shellUnderFrame = .ok {} := by decide +kernel
  have hattic : shellPlan.reflow {} shellUnderAttic =
      .ok { issues := [.danglingParent ⟨"shell"⟩ ⟨"attic"⟩] } := by decide +kernel
  obtain ⟨stored, hstored, hparent⟩ : ∃ stored, shellPlan.item? ⟨"shell"⟩ = some stored ∧
      stored.parent = none := ⟨_, rfl, by decide +kernel⟩
  have hloop : TransGen (shellPlan.setParent ⟨"shell"⟩ (some ⟨"frame"⟩)).Inside ⟨"shell"⟩
      ⟨"shell"⟩ := by
    have hup : (shellPlan.setParent ⟨"shell"⟩ (some ⟨"frame"⟩)).container? ⟨"shell"⟩ =
        some ⟨"frame"⟩ := by decide +kernel
    have hback : (shellPlan.setParent ⟨"shell"⟩ (some ⟨"frame"⟩)).container? ⟨"frame"⟩ =
        some ⟨"shell"⟩ := by decide +kernel
    exact .tail (.single hup) hback
  refine ⟨loopFree_shellPlan, ⟨stored, hstored, ⟨_, hframe⟩, fun h => h _ hloop⟩,
    stored, hstored, ⟨_, hattic⟩, ⟨"attic"⟩, rfl, ?_, by decide +kernel⟩
  rw [hparent]
  exact nofun

end WorkPlan
