import SiteTree.Json.Basic
import Mathlib.Data.List.Forall2
import Mathlib.Data.List.Nodup

/-!
# When two values are the same

An object is a map from names to values: it has no two fields of one name, and the order of its fields
is no part of it. Everything else is what it is, an array with the order of its items.

* `same_object_iff_mem` — objects are the same when each field of one is a field of the other.
-/

namespace SiteTree.Json

/-! ### Induction -/

/-- What is true of an array or an object if it is of all that it holds is true of every value. -/
@[elab_as_elim]
theorem induction {motive : Json → Prop} (null : motive .null) (bool : ∀ value, motive (.bool value))
    (int : ∀ value, motive (.int value)) (double : ∀ value, motive (.double value))
    (string : ∀ value, motive (.string value))
    (array : ∀ items, (∀ item ∈ items, motive item) → motive (.array items))
    (object : ∀ fields, (∀ field ∈ fields, motive field.2) → motive (.object fields)) :
    (value : Json) → motive value
  | .null => null
  | .bool value => bool value
  | .int value => int value
  | .double value => double value
  | .string value => string value
  | .array items => array items fun item _ =>
      induction null bool int double string array object item
  | .object fields => object fields fun field _ =>
      induction null bool int double string array object field.2
termination_by value => sizeOf value
decreasing_by
  · have := List.sizeOf_lt_of_mem ‹_ ∈ items›
    simp only [Json.array.sizeOf_spec]
    omega
  · have := List.sizeOf_lt_of_mem ‹_ ∈ fields›
    have : sizeOf field = 1 + sizeOf field.1 + sizeOf field.2 := rfl
    simp only [Json.object.sizeOf_spec]
    omega

/-! ### Objects as maps -/

mutual

/-- Have the fields of every object in a value names of their own? -/
def namesApart : Json → Bool
  | .array items => itemsApart items
  | .object fields => decide (fields.map Prod.fst).Nodup && fieldsApart fields
  | _ => true

def itemsApart : List Json → Bool
  | [] => true
  | item :: items => item.namesApart && itemsApart items

def fieldsApart : List (String × Json) → Bool
  | [] => true
  | (_, value) :: fields => value.namesApart && fieldsApart fields

end

mutual

/-- Are two values the same, with objects taken as maps? Objects have equally many fields then, and
each name leads to the same value in both. A number is the same as itself alone: an integer is no
double, and the two zeros, which are shown differently, are two doubles. -/
def same : Json → Json → Bool
  | .null, .null => true
  | .bool value, .bool other => value == other
  | .int value, .int other => value == other
  | .double value, .double other => value == other
  | .string value, .string other => value == other
  | .array items, .array others => sameItems items others
  | .object fields, .object others => fields.length == others.length && sameFields fields others
  | _, _ => false

def sameItems : List Json → List Json → Bool
  | [], [] => true
  | item :: items, other :: others => item.same other && sameItems items others
  | _, _ => false

/-- Does the name of each field lead to the same value among other fields? -/
def sameFields : List (String × Json) → List (String × Json) → Bool
  | [], _ => true
  | (name, value) :: fields, others =>
    (match others.lookup name with
      | some other => value.same other
      | none => false) && sameFields fields others

end

variable {items : List Json} {fields others : List (String × Json)}

theorem namesApart_array_iff :
    (array items).namesApart = true ↔ ∀ item ∈ items, item.namesApart = true := by
  rw [namesApart]
  induction items with
  | nil => simp [itemsApart]
  | cons item items ih => simp [itemsApart, ih]

theorem namesApart_object_iff : (object fields).namesApart = true ↔
    (fields.map Prod.fst).Nodup ∧ ∀ field ∈ fields, field.2.namesApart = true := by
  have hfields : fieldsApart fields = true ↔ ∀ field ∈ fields, field.2.namesApart = true := by
    induction fields with
    | nil => simp [fieldsApart]
    | cons field fields ih => simp [fieldsApart, ih]
  rw [namesApart, Bool.and_eq_true, decide_eq_true_eq, hfields]

theorem same_array_iff {others : List Json} :
    (array items).same (array others) = true ↔
      List.Forall₂ (fun item other => item.same other = true) items others := by
  rw [same]
  induction items generalizing others with
  | nil => cases others <;> simp [sameItems]
  | cons item items ih => cases others <;> simp [sameItems, ih]

theorem same_object_iff : (object fields).same (object others) = true ↔
    fields.length = others.length ∧
      ∀ field ∈ fields, ∃ other, others.lookup field.1 = some other ∧ field.2.same other = true := by
  have hfields : sameFields fields others = true ↔
      ∀ field ∈ fields, ∃ other, others.lookup field.1 = some other ∧ field.2.same other = true := by
    induction fields with
    | nil => simp [sameFields]
    | cons field fields ih =>
      obtain ⟨name, value⟩ := field
      rw [sameFields, Bool.and_eq_true, ih, List.forall_mem_cons]
      cases others.lookup name <;> simp
  rw [same, Bool.and_eq_true, beq_iff_eq, hfields]

/-! ### Matching fields -/

/-- Have two fields one name, and the same value? -/
def SameField (field other : String × Json) : Prop :=
  field.1 = other.1 ∧ field.2.same other.2 = true

theorem mem_of_lookup {α : Type} {fields : List (String × α)} {name : String} {value : α}
    (h : fields.lookup name = some value) : (name, value) ∈ fields := by
  obtain ⟨front, back, rfl, -⟩ := List.lookup_eq_some_iff.mp h
  simp

theorem lookup_of_mem (hnodup : (fields.map Prod.fst).Nodup) {field : String × Json}
    (h : field ∈ fields) : fields.lookup field.1 = some field.2 := by
  obtain ⟨front, back, rfl⟩ := List.append_of_mem h
  refine List.lookup_eq_some_iff.mpr ⟨front, back, rfl, fun other hother => ?_⟩
  rw [List.map_append, List.nodup_append'] at hnodup
  rw [bne_iff_ne]
  intro heq
  exact hnodup.2.2 (List.mem_map_of_mem hother) (heq ▸ List.mem_map_of_mem List.mem_cons_self)

/-- Two objects are the same when they have equally many fields, and each of one is in the other. -/
theorem same_object_iff_mem (hothers : (others.map Prod.fst).Nodup) :
    (object fields).same (object others) = true ↔
      fields.length = others.length ∧ ∀ field ∈ fields, ∃ other ∈ others, SameField field other := by
  rw [same_object_iff]
  refine and_congr_right fun _ => forall₂_congr fun field _ => ?_
  constructor
  · rintro ⟨value, hlookup, hsame⟩
    exact ⟨(field.1, value), mem_of_lookup hlookup, rfl, hsame⟩
  · rintro ⟨other, hother, hname, hsame⟩
    exact ⟨other.2, hname ▸ lookup_of_mem hothers hother, hsame⟩

end SiteTree.Json
