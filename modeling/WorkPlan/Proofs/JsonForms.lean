import WorkPlan.Json.Forms

/-! # What is written as JSON reads back

Each writer of a form gives every field that its reader asks for, so the readers are carried out field by
field. A missing value is written as null, which is the form of no day and of no identifier. Only numbers can
fail to read back: those of a plan are larger than those of its JSON forms. So a value reads back exactly if
its numbers fit (`written_reads_back`). -/

namespace WorkPlan
open Json Text

/-! ## Parts of forms -/

namespace Json
variable {α β : Type} {read? : Json → Option α} {default : α} {key other : String} {j : Json}
  {fields : List (String × Json)}

/-! ### Fields

A reader asks for a field by its key. It is carried out along the fields, key by key. -/

theorem lookup_cons : ((other, j) :: fields).lookup key =
    if key = other then some j else fields.lookup key := by
  rw [List.lookup_cons]
  by_cases h : key = other
  · rw [beq_iff_eq.mpr h, if_pos h]
  · rw [beq_eq_false_iff_ne.mpr h, if_neg h]

theorem required?_cons : required? read? key ((other, j) :: fields) =
    if key = other then read? j else required? read? key fields := by
  unfold required?
  rw [lookup_cons]
  split <;> rfl

theorem optional?_cons : optional? read? key ((other, j) :: fields) =
    if key = other then nullable? read? j else optional? read? key fields := by
  unfold optional?
  rw [lookup_cons]
  by_cases h : key = other <;> simp only [h, if_true, if_false]

theorem defaulted?_cons : defaulted? default read? key ((other, j) :: fields) =
    if key = other then read? j else defaulted? default read? key fields := by
  unfold defaulted?
  rw [lookup_cons]
  by_cases h : key = other <;> simp only [h, if_true, if_false]

/-! ### Values -/

theorem nullable?_ofOption {read? : Json → Option α} {write : α → Json}
    (hread : ∀ x, read? (write x) = some x) (hnull : ∀ x, write x ≠ null) (o : Option α) :
    nullable? read? (ofOption write o) = some o := by
  cases o with
  | none => rfl
  | some x =>
    rw [ofOption, nullable?.eq_2 _ _ (hnull x), hread]
    rfl

/-- What reads a written value back if the value fits reads a list of them back if all fit. -/
theorem mapM_map_of_fits {read? : β → Option α} {write : α → β} (fits : α → Bool)
    (h : ∀ x, read? (write x) = if fits x then some x else none) (l : List α) :
    (l.map write).mapM read? = if l.all fits then some l else none := by
  induction l with
  | nil => rfl
  | cons x rest ih =>
    rw [List.map_cons, List.mapM_cons, ih, h, List.all_cons]
    cases fits x with
    | false => rfl
    | true => cases rest.all fits <;> rfl

theorem list?_arr_map {read? : Json → Option α} {write : α → Json}
    (h : ∀ x, read? (write x) = some x) (l : List α) : list? read? (arr (l.map write)) = some l := by
  have hl := mapM_map_of_fits (fun _ => true) (fun x => (h x).trans (if_pos rfl).symm) l
  rw [if_pos (List.all_eq_true.mpr fun _ _ => rfl)] at hl
  exact hl

theorem int64?_int (n : Int) : int64? (int n) = if fitsInt64 n then some n else none := rfl

theorem nat32?_int (n : Nat) : nat32? (int n) = if fitsNat32 n then some n else none := by
  rw [nat32?, intThat?]
  split <;> rfl

end Json

theorem Date.ofJson?_toJson (d : Date) : Date.ofJson? d.toJson = some d := by
  rw [Date.ofJson?, Date.toJson, str?, Option.bind_some]
  exact Date.read?_text d

theorem ItemId.ofJson?_toJson (id : ItemId) : ItemId.ofJson? id.toJson = some id := rfl

theorem Date.nullable?_toJson (d : Option Date) :
    nullable? Date.ofJson? (ofOption Date.toJson d) = some d :=
  nullable?_ofOption Date.ofJson?_toJson (fun _ => Json.noConfusion) d

theorem ItemId.nullable?_toJson (id : Option ItemId) :
    nullable? ItemId.ofJson? (ofOption ItemId.toJson id) = some id :=
  nullable?_ofOption ItemId.ofJson?_toJson (fun _ => Json.noConfusion) id

theorem Attribute.ofJson?_toJson (a : Attribute) : Attribute.ofJson? a.toJson = some a := by
  cases a <;> decide

theorem AttributeSet.ofJson?_toJson (s : AttributeSet) : AttributeSet.ofJson? s.toJson = some s := by
  rw [AttributeSet.ofJson?, AttributeSet.toJson, list?_arr_map Attribute.ofJson?_toJson, Option.map_some,
    AttributeSet.ofList_toList]

/-! ## Spans, slots, items and links -/

theorem Span.ofJson?_toJson (s : Span) : Span.ofJson? s.toJson = some s := by
  simp [Span.ofJson?, Span.toJson, fields?, optional?_cons, Date.nullable?_toJson]

theorem Slot.ofJson?_toJson (s : Slot) :
    Slot.ofJson? s.toJson = if fitsInt64 s.length then some s else none := by
  cases h : fitsInt64 s.length <;> simp [Slot.ofJson?, Slot.toJson, fields?, optional?_cons,
    required?_cons, Date.nullable?_toJson, int64?_int, h]

theorem Item.ofJson?_toJson (x : Item) : Item.ofJson? x.toJson = some x := by
  simp [Item.ofJson?, Item.toJson, fields?, required?_cons, optional?_cons, defaulted?_cons, str?,
    Date.nullable?_toJson, ItemId.nullable?_toJson, ItemId.ofJson?_toJson]

theorem Link.ofJson?_toJson (l : Link) :
    Link.ofJson? l.toJson = if fitsNat32 l.lag then some l else none := by
  cases h : fitsNat32 l.lag <;> simp [Link.ofJson?, Link.toJson, fields?, required?_cons,
    defaulted?_cons, ItemId.ofJson?_toJson, nat32?_int, h]

/-! ## Edits, issues and settings -/

theorem Edit.ofJson?_toJson (e : Edit) : Edit.ofJson? e.toJson = some e := by
  simp [Edit.ofJson?, Edit.toJson, fields?, required?_cons, optional?_cons, defaulted?_cons,
    Date.nullable?_toJson, ItemId.nullable?_toJson, ItemId.ofJson?_toJson, AttributeSet.ofJson?_toJson]

theorem Issue.ofJson?_toJson (i : Issue) : Issue.ofJson? i.toJson = some i := by
  cases i <;> simp [Issue.ofJson?, Issue.toJson, fields?, required?_cons, str?,
    ItemId.ofJson?_toJson, list?_arr_map ItemId.ofJson?_toJson]

theorem PullPolicy.ofJson?_toJson (p : PullPolicy) : PullPolicy.ofJson? p.toJson = some p := by
  cases p <;> decide

theorem Settings.ofJson?_toJson (s : Settings) :
    Settings.ofJson? s.toJson = if fitsInt64 s.placeholder then some s else none := by
  cases h : fitsInt64 s.placeholder <;> simp [Settings.ofJson?, Settings.toJson, fields?,
    defaulted?_cons, PullPolicy.ofJson?_toJson, int64?_int, h]

/-! ## Outcomes -/

/-- A table is put together again from its entries. -/
theorem ofList_toList (slots : IdMap Slot) : Std.ExtTreeMap.ofList slots.toList = slots := by
  refine Std.ExtTreeMap.ext_getElem? fun id => ?_
  cases h : slots[id]? with
  | some slot =>
    exact Std.ExtTreeMap.getElem?_ofList_of_mem Std.ReflCmp.compare_self
      Std.ExtTreeMap.distinct_keys_toList (Std.ExtTreeMap.mem_toList_iff_getElem?_eq_some.mpr h)
  | none =>
    refine Std.ExtTreeMap.getElem?_ofList_of_contains_eq_false ?_
    rw [Std.ExtTreeMap.map_fst_toList_eq_keys, List.contains_eq_mem, decide_eq_false_iff_not,
      Std.ExtTreeMap.mem_keys, Std.ExtTreeMap.mem_iff_isSome_getElem?, h]
    exact Bool.noConfusion

theorem slotsOfJson?_slotsToJson (slots : IdMap Slot) : slotsOfJson? (slotsToJson slots) =
    if slots.toList.all (fun entry => fitsInt64 entry.2.length) then some slots else none := by
  have hentry : ∀ entry : ItemId × Slot, ((Slot.ofJson? entry.2.toJson).map fun slot =>
      ((⟨entry.1.text⟩ : ItemId), slot)) = if fitsInt64 entry.2.length then some entry else none := by
    intro entry
    rw [Slot.ofJson?_toJson]
    split <;> rfl
  have hread : (slots.toList.map fun entry => (entry.1.text, entry.2.toJson)).mapM
      (fun field => (Slot.ofJson? field.2).map fun slot => ((⟨field.1⟩ : ItemId), slot)) = _ :=
    mapM_map_of_fits (fun entry => fitsInt64 entry.2.length) hentry slots.toList
  simp only [slotsOfJson?, slotsToJson, fields?, Option.bind_eq_bind, Option.bind_some, hread]
  split
  · exact congrArg some (ofList_toList slots)
  · rfl

theorem Outcome.ofJson?_toJson (o : Outcome) : Outcome.ofJson? o.toJson =
    if (o.changes.toList.all fun entry => fitsInt64 entry.2.length) && fitsInt64 o.delta
    then some o else none := by
  cases hlength : o.changes.toList.all fun entry => fitsInt64 entry.2.length <;>
    cases hdelta : fitsInt64 o.delta <;>
      simp [Outcome.ofJson?, Outcome.toJson, fields?, required?_cons,
        slotsOfJson?_slotsToJson, list?_arr_map Issue.ofJson?_toJson, int64?_int, hlength, hdelta]

/-- Whether the numbers of an outcome fit 64 bits with sign. -/
structure Outcome.Fits (o : Outcome) : Prop where
  length : ∀ (id : ItemId) (slot : Slot), o.changes[id]? = some slot → fitsInt64 slot.length = true
  delta : fitsInt64 o.delta = true

theorem Outcome.fits_iff (o : Outcome) :
    ((o.changes.toList.all fun entry => fitsInt64 entry.2.length) && fitsInt64 o.delta) = true ↔
      o.Fits := by
  rw [Bool.and_eq_true, List.all_eq_true]
  constructor
  · rintro ⟨hlength, hdelta⟩
    exact ⟨fun id slot hslot =>
      hlength (id, slot) (Std.ExtTreeMap.mem_toList_iff_getElem?_eq_some.mpr hslot), hdelta⟩
  · rintro ⟨hlength, hdelta⟩
    exact ⟨fun entry hentry =>
      hlength entry.1 entry.2 (Std.ExtTreeMap.mem_toList_iff_getElem?_eq_some.mp hentry), hdelta⟩

/-- **What is written as JSON reads back**, for every value whose numbers fit: the lag of a link 32 bits
without sign, lengths and moves 64 bits with sign. No other value reads back. Identifiers may be any texts,
days any of the supported range, and an edit may propose what it does not touch. -/
theorem Json.written_reads_back :
    (∀ x : Item, Item.ofJson? x.toJson = some x) ∧
    (∀ l : Link, Link.ofJson? l.toJson = some l ↔ fitsNat32 l.lag = true) ∧
    (∀ e : Edit, Edit.ofJson? e.toJson = some e) ∧
    (∀ s : Span, Span.ofJson? s.toJson = some s) ∧
    (∀ s : Slot, Slot.ofJson? s.toJson = some s ↔ fitsInt64 s.length = true) ∧
    (∀ o : Outcome, Outcome.ofJson? o.toJson = some o ↔ o.Fits) ∧
    (∀ i : Issue, Issue.ofJson? i.toJson = some i) ∧
    (∀ p : PullPolicy, PullPolicy.ofJson? p.toJson = some p) ∧
    ∀ s : Settings, Settings.ofJson? s.toJson = some s ↔ fitsInt64 s.placeholder = true := by
  refine ⟨Item.ofJson?_toJson, fun l => ?_, Edit.ofJson?_toJson, Span.ofJson?_toJson, fun s => ?_,
    fun o => ?_, Issue.ofJson?_toJson, PullPolicy.ofJson?_toJson, fun s => ?_⟩
  · rw [Link.ofJson?_toJson, Option.ite_none_right_eq_some, and_iff_left rfl]
  · rw [Slot.ofJson?_toJson, Option.ite_none_right_eq_some, and_iff_left rfl]
  · rw [Outcome.ofJson?_toJson, Option.ite_none_right_eq_some, and_iff_left rfl, Outcome.fits_iff]
  · rw [Settings.ofJson?_toJson, Option.ite_none_right_eq_some, and_iff_left rfl]

end WorkPlan
