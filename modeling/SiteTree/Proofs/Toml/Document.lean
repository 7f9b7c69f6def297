import SiteTree.Proofs.Json.Sameness
import SiteTree.Proofs.Outcome
import SiteTree.Toml.Document

/-!
# Keys in documents

No table of a document has two fields of one key, however its parts are scattered over the lines. So a
value that is taken from a document has names of their own for the fields of every object in it.

* `KeysApart` — what every change of a document keeps.
* `givesOnly_parse` — the fields of a document have keys of their own, at every depth.
-/

namespace SiteTree.Toml

/-! ### Fields with keys of their own -/

/-- Is the value, as JSON, one whose objects are maps? -/
def Apart (value : Toml) : Prop :=
  value.toJson.namesApart = true

/-- Have the fields of a table, and of all tables in it, keys of their own? -/
def KeysApart (fields : Fields) : Prop :=
  (fields.map Prod.fst).Nodup ∧ ∀ field ∈ fields, field.2.toToml.Apart

theorem itemsToJson_eq (items : List Toml) : itemsToJson items = items.map toJson := by
  induction items with
  | nil => rfl
  | cons item items ih => exact congrArg (item.toJson :: ·) ih

theorem fieldsToJson_eq (fields : List (String × Toml)) :
    fieldsToJson fields = fields.map fun field => (field.1, field.2.toJson) := by
  induction fields with
  | nil => rfl
  | cons field fields ih => exact congrArg ((field.1, field.2.toJson) :: ·) ih

theorem fieldsToToml_eq (fields : Fields) :
    fieldsToToml fields = fields.map fun field => (field.1, field.2.toToml) := by
  induction fields with
  | nil => rfl
  | cons field fields ih => exact congrArg ((field.1, field.2.toToml) :: ·) ih

theorem tablesToToml_eq (items : List Fields) :
    tablesToToml items = items.map fun fields => .table (fieldsToToml fields) := by
  induction items with
  | nil => rfl
  | cons fields items ih => exact congrArg (.table (fieldsToToml fields) :: ·) ih

theorem apart_array_iff {items : List Toml} :
    (Toml.array items).Apart ↔ ∀ item ∈ items, item.Apart := by
  have hitems : (Toml.array items).toJson = .array (items.map toJson) :=
    congrArg Json.array (itemsToJson_eq items)
  rw [Apart, hitems, Json.namesApart_array_iff, List.forall_mem_map]
  rfl

theorem apart_table_iff {fields : List (String × Toml)} :
    (Toml.table fields).Apart ↔ (fields.map Prod.fst).Nodup ∧ ∀ field ∈ fields, field.2.Apart := by
  have hfields : (Toml.table fields).toJson
      = .object (fields.map fun field => (field.1, field.2.toJson)) :=
    congrArg Json.object (fieldsToJson_eq fields)
  rw [Apart, hfields, Json.namesApart_object_iff, List.map_map, List.forall_mem_map]
  rfl

theorem apart_fieldsToToml_iff {fields : Fields} :
    (Toml.table (fieldsToToml fields)).Apart ↔ KeysApart fields := by
  rw [apart_table_iff, fieldsToToml_eq, List.map_map, List.forall_mem_map]
  rfl

theorem apart_tables_iff {items : List Fields} :
    (Node.tables items).toToml.Apart ↔ ∀ fields ∈ items, KeysApart fields := by
  have htables : (Node.tables items).toToml = .array (tablesToToml items).reverse := rfl
  simp only [htables, apart_array_iff, List.mem_reverse, tablesToToml_eq, List.forall_mem_map,
    apart_fieldsToToml_iff]

/-! ### Changes of tables -/

section Changes

variable {fields : Fields} {key : String} {node : Node}

theorem keysApart_nil : KeysApart [] :=
  ⟨List.nodup_nil, List.forall_mem_nil _⟩

theorem KeysApart.concat (h : KeysApart fields) (hkey : fields.any (·.1 == key) = false)
    (hnode : node.toToml.Apart) : KeysApart (fields ++ [(key, node)]) := by
  obtain ⟨hnodup, hinner⟩ := h
  constructor
  · rw [List.map_append, List.map_singleton, List.nodup_append']
    refine ⟨hnodup, List.nodup_singleton key, ?_⟩
    intro other hother hsame
    obtain rfl := List.mem_singleton.mp hsame
    obtain ⟨field, hfield, hname⟩ := List.mem_map.mp hother
    exact absurd (beq_iff_eq.mpr hname) (List.any_eq_false.mp hkey field hfield)
  · intro field hfield
    rcases List.mem_append.mp hfield with hfield | hfield
    · exact hinner field hfield
    · obtain rfl := List.mem_singleton.mp hfield
      exact hnode

theorem KeysApart.putNode (h : KeysApart fields) (hnode : node.toToml.Apart) :
    KeysApart (putNode fields key node) := by
  unfold Toml.putNode
  split
  · obtain ⟨hnodup, hinner⟩ := h
    constructor
    · have hkeys : (fields.map fun field => if field.1 == key then (key, node) else field).map Prod.fst
          = fields.map Prod.fst := by
        rw [List.map_map]
        refine List.map_congr_left fun field _ => ?_
        by_cases hkey : field.1 = key
        · simp [hkey]
        · simp [hkey]
      rwa [hkeys]
    · intro put hput
      obtain ⟨field, hfield, rfl⟩ := List.mem_map.mp hput
      split
      · exact hnode
      · exact hinner field hfield
  · next hnew => exact h.concat (Bool.eq_false_iff.mpr hnew) hnode

theorem any_eq_false_of_lookup (h : fields.lookup key = none) :
    fields.any (·.1 == key) = false := by
  rw [List.any_eq_false]
  intro field hfield hsame
  have hother := List.lookup_eq_none_iff.mp h field hfield
  rw [beq_iff_eq.mp hsame, bne_self_eq_false] at hother
  exact absurd hother Bool.false_ne_true

theorem KeysApart.of_lookup (h : KeysApart fields) (hlookup : fields.lookup key = some node) :
    node.toToml.Apart :=
  h.2 _ (Json.mem_of_lookup hlookup)

end Changes

/-- A change at the end of a path keeps keys apart if it does so where it is made. -/
theorem givesOnly_changeAt {dotted : Bool} {change : TableOrigin → Fields → Except String Fields}
    (hchange : ∀ origin fields, KeysApart fields → GivesOnly KeysApart (change origin fields))
    (path : List String) (origin : TableOrigin) {fields : Fields} (h : KeysApart fields) :
    GivesOnly KeysApart (changeAt dotted change path origin fields) := by
  induction path generalizing origin fields with
  | nil =>
    rw [changeAt]
    exact hchange origin fields h
  | cons key path ih =>
    rw [changeAt]
    split
    · refine (ih _ keysApart_nil).bind fun inner hinner => givesOnly_ok ?_
      exact h.putNode (apart_fieldsToToml_iff.mpr hinner)
    · exact givesOnly_error _
    · next origin inner hlookup =>
      have hinner : KeysApart inner := apart_fieldsToToml_iff.mp (h.of_lookup hlookup)
      split
      · exact givesOnly_error _
      · refine (ih _ hinner).bind fun changed hchanged => givesOnly_ok ?_
        exact h.putNode (apart_fieldsToToml_iff.mpr hchanged)
    · exact givesOnly_error _
    · next last items hlookup =>
      obtain ⟨hlast, hitems⟩ :=
        List.forall_mem_cons.mp (apart_tables_iff.mp (h.of_lookup hlookup))
      refine (ih _ hlast).bind fun changed hchanged => givesOnly_ok ?_
      exact h.putNode (apart_tables_iff.mpr (List.forall_mem_cons.mpr ⟨hchanged, hitems⟩))

section Tables

variable {fields : Fields} (path : List String) (key : String)

theorem givesOnly_addValue {value : Toml} (hvalue : value.Apart) (origin : TableOrigin)
    (h : KeysApart fields) : GivesOnly KeysApart (addValue path key value origin fields) := by
  refine givesOnly_changeAt (fun origin fields h => ?_) path origin h
  split
  · exact givesOnly_error _
  split
  · exact givesOnly_error _
  · next hnew => exact givesOnly_ok (h.concat (Bool.eq_false_iff.mpr hnew) hvalue)

theorem givesOnly_defineTable (h : KeysApart fields) :
    GivesOnly KeysApart (defineTable path key fields) := by
  refine givesOnly_changeAt (fun origin fields h => ?_) path .defined h
  split
  · next hnew =>
    refine givesOnly_ok (h.concat (any_eq_false_of_lookup hnew) ?_)
    exact apart_fieldsToToml_iff.mpr keysApart_nil
  · next inner hlookup =>
    have hinner : KeysApart inner := apart_fieldsToToml_iff.mp (h.of_lookup hlookup)
    exact givesOnly_ok (h.putNode (apart_fieldsToToml_iff.mpr hinner))
  · exact givesOnly_error _

theorem givesOnly_appendTable (h : KeysApart fields) :
    GivesOnly KeysApart (appendTable path key fields) := by
  refine givesOnly_changeAt (fun origin fields h => ?_) path .defined h
  split
  · next hnew =>
    refine givesOnly_ok (h.concat (any_eq_false_of_lookup hnew) ?_)
    exact apart_tables_iff.mpr (List.forall_mem_singleton.mpr keysApart_nil)
  · next items hlookup =>
    refine givesOnly_ok (h.putNode (apart_tables_iff.mpr ?_))
    exact List.forall_mem_cons.mpr ⟨keysApart_nil, apart_tables_iff.mp (h.of_lookup hlookup)⟩
  · exact givesOnly_error _

end Tables

/-! ### Values -/

/-- A reader that gives values with keys apart only. -/
def ReadsApart (read : Reader Toml) : Prop :=
  ∀ text, GivesOnly (fun found => found.1.Apart) (read text)

theorem apart_float (value : Double) : (Toml.float value).Apart := by
  have hfloat : (Toml.float value).toJson = if value.isFinite then .double value else .null := rfl
  rw [Apart, hfloat]
  split
  · rfl
  · rfl

theorem givesOnly_checkedInteger (n : Int) : GivesOnly Apart (checkedInteger n) := by
  unfold checkedInteger
  split
  · exact givesOnly_ok rfl
  · exact givesOnly_error _

theorem givesOnly_inBase (base : Nat) (isDigit : Char → Bool) (text : List Char) :
    GivesOnly Apart (inBase base isDigit text) := by
  unfold inBase
  split
  · exact givesOnly_checkedInteger _
  · exact givesOnly_error _

theorem givesOnly_scalar (text : List Char) : GivesOnly Apart (scalar text) := by
  unfold scalar
  split
  · exact givesOnly_error _
  · exact givesOnly_inBase _ _ _
  · exact givesOnly_inBase _ _ _
  · exact givesOnly_inBase _ _ _
  split
  · exact givesOnly_ok rfl
  split
  · exact givesOnly_ok rfl
  split
  · exact givesOnly_ok rfl
  · exact givesOnly_ok (apart_float _)
  · exact givesOnly_checkedInteger _
  split
  · split
    · exact givesOnly_error _
    · exact givesOnly_ok (apart_float _)
  · exact givesOnly_error _

theorem readsApart_scalarRead : ReadsApart scalarRead := by
  intro text
  have hscalar (text rest : List Char) : GivesOnly (fun found : Toml × List Char => found.1.Apart)
      (do return (← scalar text, rest)) :=
    (givesOnly_scalar text).bind fun value hvalue => givesOnly_ok hvalue
  simp only [scalarRead]
  split
  · split
    · exact hscalar _ _
    · exact hscalar _ _
  · exact hscalar _ _

theorem givesOnly_items {depth : Nat} (hvalue : ReadsApart (value depth)) (fuel : Nat)
    (text : List Char) :
    GivesOnly (fun found => ∀ item ∈ found.1, Apart item) (items depth fuel text) := by
  induction fuel generalizing text with
  | zero =>
    rw [items]
    exact givesOnly_error _
  | succ fuel ih =>
    rw [items]
    split
    · exact givesOnly_ok (List.forall_mem_nil _)
    · refine (hvalue _).bind ?_
      rintro ⟨item, rest⟩ hitem
      dsimp only
      split
      · refine (ih _).bind ?_
        rintro ⟨more, rest⟩ hmore
        exact givesOnly_ok (List.forall_mem_cons.mpr ⟨hitem, hmore⟩)
      · exact givesOnly_ok (List.forall_mem_singleton.mpr hitem)
      · exact givesOnly_error _

theorem givesOnly_inlineFields {depth : Nat} (hvalue : ReadsApart (value depth)) (fuel : Nat)
    {fields : Fields} (h : KeysApart fields) (text : List Char) :
    GivesOnly (fun found => found.1.Apart) (inlineFields depth fuel fields text) := by
  induction fuel generalizing fields text with
  | zero =>
    rw [inlineFields]
    exact givesOnly_error _
  | succ fuel ih =>
    rw [inlineFields]
    refine (givesOnly_any _).bind ?_
    rintro ⟨parts, rest⟩ -
    dsimp only
    split
    · refine (hvalue _).bind ?_
      rintro ⟨read, rest⟩ hread
      refine (givesOnly_addValue _ _ hread _ h).bind fun added hadded => ?_
      split
      · exact ih hadded _
      · exact givesOnly_ok (apart_fieldsToToml_iff.mpr hadded)
      · exact givesOnly_error _
    · exact givesOnly_error _

theorem readsApart_value (depth : Nat) : ReadsApart (value depth) := by
  induction depth using Nat.strongRecOn with
  | ind depth ih =>
    intro text
    unfold value
    split
    · exact (givesOnly_any _).map fun _ _ => rfl
    split
    · next depth rest _ =>
      refine (givesOnly_items (ih depth (Nat.lt_succ_self depth)) _ _).map fun found hfound => ?_
      exact apart_array_iff.mpr hfound
    · next depth rest _ =>
      split
      · exact givesOnly_ok rfl
      · exact givesOnly_inlineFields (ih depth (Nat.lt_succ_self depth)) _ keysApart_nil _
    · exact readsApart_scalarRead _

/-! ### Lines -/

theorem Draft.givesOnly_add {draft : Draft} (h : KeysApart draft.fields) (parts : List String)
    {value : Toml} (hvalue : value.Apart) :
    GivesOnly (fun changed => KeysApart changed.fields) (draft.add parts value) := by
  refine GivesOnly.bind (givesOnly_changeAt ?_ _ _ h) fun fields hfields => givesOnly_ok hfields
  exact fun origin fields hfields => givesOnly_addValue _ _ hvalue origin hfields

theorem Draft.givesOnly_define {draft : Draft} (h : KeysApart draft.fields) (parts : List String) :
    GivesOnly (fun changed => KeysApart changed.fields) (draft.define parts) :=
  (givesOnly_defineTable _ _ h).bind fun _ hfields => givesOnly_ok hfields

theorem Draft.givesOnly_append {draft : Draft} (h : KeysApart draft.fields) (parts : List String) :
    GivesOnly (fun changed => KeysApart changed.fields) (draft.append parts) :=
  (givesOnly_appendTable _ _ h).bind fun _ hfields => givesOnly_ok hfields

/-- Every line keeps the keys of the document apart. -/
theorem givesOnly_line {draft : Draft} (h : KeysApart draft.fields) (text : List Char) :
    GivesOnly (fun found => KeysApart found.1.fields) (line draft text) := by
  have hend {changed : Draft} (hchanged : KeysApart changed.fields) (rest : List Char) :
      GivesOnly (fun found : Draft × List Char => KeysApart found.1.fields)
        (do return (changed, ← endLine rest)) :=
    (givesOnly_any _).bind fun _ _ => givesOnly_ok hchanged
  unfold line
  split
  · refine (givesOnly_any _).bind ?_
    rintro ⟨parts, rest⟩ -
    dsimp only
    split
    · exact (Draft.givesOnly_append h _).bind fun changed hchanged => hend hchanged _
    · exact givesOnly_error _
  · refine (givesOnly_any _).bind ?_
    rintro ⟨parts, rest⟩ -
    dsimp only
    split
    · exact (Draft.givesOnly_define h _).bind fun changed hchanged => hend hchanged _
    · exact givesOnly_error _
  · split
    · exact hend h _
    · refine (givesOnly_any _).bind ?_
      rintro ⟨parts, rest⟩ -
      dsimp only
      split
      · refine (readsApart_value _ _).bind ?_
        rintro ⟨value, rest⟩ hvalue
        exact (Draft.givesOnly_add h _ hvalue).bind fun changed hchanged => hend hchanged _
      · exact givesOnly_error _

theorem givesOnly_lines (fuel : Nat) {draft : Draft} (h : KeysApart draft.fields)
    (text : List Char) :
    GivesOnly (fun final => KeysApart final.fields) (lines fuel draft text) := by
  induction fuel generalizing draft text with
  | zero => exact givesOnly_ok h
  | succ fuel ih =>
    cases text with
    | nil => exact givesOnly_ok h
    | cons c text =>
      refine (givesOnly_line h _).bind ?_
      rintro ⟨changed, rest⟩ hchanged
      exact ih hchanged rest

/-- The fields of a document have keys of their own, at every depth. -/
theorem givesOnly_parse (text : String) :
    GivesOnly (fun fields => (Toml.table fields).Apart) (parse text) :=
  (givesOnly_lines _ keysApart_nil _).bind fun _ hdraft =>
    givesOnly_ok (apart_fieldsToToml_iff.mpr hdraft)

end SiteTree.Toml
