import SiteTree.Config.Decode
import SiteTree.Proofs.Toml.Document

/-!
# The values of a configuration

The values that components are rendered with come out of a document as they are, so the fields of their
objects have names of their own.

* `givesOnly_ofText` — in all that a configuration says about components.
-/

namespace SiteTree.Config

/-- In the values of a component and of its references, are objects maps? -/
structure TableApart (table : ComponentTable) : Prop where
  own : ∀ values ∈ table.values, values.namesApart = true
  placed : ∀ reference ∈ table.imports ++ table.children, ∀ values ∈ reference.overrides,
    values.namesApart = true

/-- What a decoder makes of a value with keys apart, if it makes anything. -/
def Makes {α : Type} (allowed : α → Prop) (decode : Decoder α) : Prop :=
  ∀ value, value.Apart → GivesOnly allowed (decode value)

section Decoders

variable {α : Type} {allowed : α → Prop} {decode : Decoder α} {record : Record}

theorem makes_list (h : Makes allowed decode) :
    Makes (fun values => ∀ value ∈ values, allowed value) (Decoder.list decode) := by
  intro value hvalue
  cases value with
  | array items =>
    exact givesOnly_mapM fun item hitem => h item (Toml.apart_array_iff.mp hvalue item hitem)
  | _ => exact givesOnly_error _

theorem makes_record (names : List String) :
    Makes (fun record => ∀ field ∈ record, field.2.Apart) (Record.of names) := by
  intro value hvalue
  cases value with
  | table fields =>
    rw [Record.of]
    split
    · exact givesOnly_error _
    · exact givesOnly_ok (Toml.apart_table_iff.mp hvalue).2
  | array items =>
    refine givesOnly_ok fun field hfield => ?_
    exact Toml.apart_array_iff.mp hvalue field.2 (List.of_mem_zip hfield).2
  | _ => exact givesOnly_error _

theorem givesOnly_get? (h : Makes allowed decode) (hrecord : ∀ field ∈ record, field.2.Apart)
    (name : String) :
    GivesOnly (fun found => ∀ value ∈ found, allowed value) (record.get? name decode) := by
  rw [Record.get?]
  cases hlookup : record.lookup name with
  | none => exact givesOnly_ok nofun
  | some value =>
    refine (h value (hrecord _ (Json.mem_of_lookup hlookup))).map fun made hmade => ?_
    rintro _ ⟨⟩
    exact hmade

theorem givesOnly_getD (h : Makes allowed decode) (hrecord : ∀ field ∈ record, field.2.Apart)
    (name : String) {default : α} (hdefault : allowed default) :
    GivesOnly allowed (record.getD name decode default) := by
  refine (givesOnly_get? h hrecord name).map fun found hfound => ?_
  cases found with
  | none => exact hdefault
  | some value => exact hfound value rfl

theorem givesOnly_get (h : Makes allowed decode) (hrecord : ∀ field ∈ record, field.2.Apart)
    (name : String) : GivesOnly allowed (record.get name decode) := by
  refine (givesOnly_get? h hrecord name).bind fun found hfound => ?_
  cases found with
  | none => exact givesOnly_error _
  | some value => exact givesOnly_ok (hfound value rfl)

end Decoders

/-! ### Components -/

theorem makes_json : Makes (fun values => values.namesApart = true) Decoder.json :=
  fun _ hvalue => givesOnly_ok hvalue

theorem makes_reference :
    Makes (fun reference => ∀ values ∈ reference.overrides, values.namesApart = true) reference := by
  intro value hvalue
  cases value with
  | string key => exact givesOnly_ok nofun
  | table fields =>
    have hrecord := (Toml.apart_table_iff.mp hvalue).2
    refine (givesOnly_any _).bind fun key _ => ?_
    refine (givesOnly_get makes_json hrecord "values").bind fun values hvalues => givesOnly_ok ?_
    rintro _ ⟨⟩
    exact hvalues
  | _ => exact givesOnly_error _

theorem makes_componentTable : Makes TableApart componentTable := by
  intro value hvalue
  refine (makes_record componentFields value hvalue).bind fun record hrecord => ?_
  have hreferences (name : String) := givesOnly_getD (makes_list makes_reference) hrecord name
    (List.forall_mem_nil _)
  refine (givesOnly_any _).bind fun name _ => ?_
  refine (givesOnly_any _).bind fun template _ => ?_
  refine (givesOnly_any _).bind fun selector _ => ?_
  refine (hreferences "imports").bind fun imports himports => ?_
  refine (givesOnly_any _).bind fun externalStyles _ => ?_
  refine (givesOnly_any _).bind fun externalScripts _ => ?_
  refine (givesOnly_any _).bind fun globalStyles _ => ?_
  refine (givesOnly_any _).bind fun globalScripts _ => ?_
  refine (hreferences "children").bind fun children hchildren => ?_
  refine (givesOnly_get? makes_json hrecord "values").bind fun values hvalues => ?_
  exact givesOnly_ok ⟨hvalues, List.forall_mem_append.mpr ⟨himports, hchildren⟩⟩

theorem makes_componentTables :
    Makes (fun components => ∀ entry ∈ components, TableApart entry.2) componentTables := by
  intro value hvalue
  cases value with
  | table fields =>
    refine givesOnly_mapM fun field hfield => ?_
    have hmem : field ∈ fields := (Json.perm_sortFields fields).mem_iff.mp hfield
    have htable := makes_componentTable field.2 ((Toml.apart_table_iff.mp hvalue).2 field hmem)
    exact htable.bind fun table hapart => givesOnly_ok hapart
  | _ => exact givesOnly_error _

theorem makes_config :
    Makes (fun config => ∀ entry ∈ config.components, TableApart entry.2) decode := by
  intro value hvalue
  refine (makes_record _ value hvalue).bind fun record hrecord => ?_
  refine (givesOnly_any _).bind fun build _ => ?_
  have hcomponents := givesOnly_getD makes_componentTables hrecord "components"
    (List.forall_mem_nil fun entry : String × ComponentTable => TableApart entry.2)
  exact hcomponents.bind fun components hapart => givesOnly_ok hapart

theorem givesOnly_ofText (text : String) :
    GivesOnly (fun config => ∀ entry ∈ config.components, TableApart entry.2) (ofText text) := by
  have hconfig := (Toml.givesOnly_parse text).bind fun fields hfields =>
    makes_config (.table fields) hfields
  unfold ofText
  split
  · next config hok => exact givesOnly_ok (hconfig config hok)
  · exact givesOnly_error _

end SiteTree.Config
