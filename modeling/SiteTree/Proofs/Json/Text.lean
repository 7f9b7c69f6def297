import SiteTree.Proofs.Json.Sameness
import SiteTree.Proofs.Json.Strings
import SiteTree.Proofs.Number.Shortest
import Mathlib.Data.List.Perm.Subperm
import Mathlib.Data.List.Sort

/-!
# What the text of a value says

No value's text is the beginning of another value's, except that digits may go on: a number ends only
where something else than a digit follows. So the values that stand one behind the other in a text can
be told, and with them all that an array or an object holds.

* `told` — texts that begin with values begin with the same one.
* `text_eq_iff` — two values have one text exactly when they are the same.
* `exists_text_object` — an object is written with its fields in the order of the bytes of their names.
-/

namespace SiteTree.Json

open Double (isDecimalChar)

/-! ### Texts by constructor -/

theorem text_int (value : Int) : (int value).text = (toString value).toList :=
  rfl

theorem text_double (value : Double) : (double value).text = value.text :=
  rfl

theorem text_string (value : String) : (string value).text = quote value.toList :=
  rfl

theorem text_array (items : List Json) :
    (array items).text = '[' :: ([','].intercalate (items.map text) ++ [']']) := by
  have hitems : itemTexts items = items.map text := by
    induction items with
    | nil => rfl
    | cons item items ih => exact congrArg (item.text :: ·) ih
  exact congrArg (fun texts => '[' :: ([','].intercalate texts ++ [']'])) hitems

theorem fieldTexts_eq (fields : List (String × Json)) :
    fieldTexts fields = fields.map fun field => (field.1, field.2.text) := by
  induction fields with
  | nil => rfl
  | cons field fields ih => exact congrArg ((field.1, field.2.text) :: ·) ih

theorem text_fieldTexts (fields : List (String × Json)) : (object fields).text
    = '{' :: ([','].intercalate ((sortFields (fieldTexts fields)).map fieldText) ++ ['}']) :=
  rfl

/-- A field as it is written, with the text of its value. -/
def writtenField (field : String × Json) : List Char :=
  fieldText (field.1, field.2.text)

theorem text_object (fields : List (String × Json)) : (object fields).text
    = '{' :: ([','].intercalate ((sortFields fields).map writtenField) ++ ['}']) := by
  have hsort : sortFields (fieldTexts fields)
      = (sortFields fields).map fun field => (field.1, field.2.text) := by
    rw [fieldTexts_eq, sortFields, sortFields]
    exact (List.map_mergeSort fun _ _ _ _ => by rfl).symm
  rw [text_fieldTexts, hsort, List.map_map]
  rfl

/-! ### Kinds -/

/-- What the first character of a value's text tells about the value. -/
inductive Kind where
  | null
  | bool
  | number
  | string
  | array
  | object

def kind : Json → Kind
  | .null => .null
  | .bool _ => .bool
  | .int _ => .number
  | .double _ => .number
  | .string _ => .string
  | .array _ => .array
  | .object _ => .object

/-- The kind of the values whose texts begin with a character; nothing begins with most of them. -/
def Kind.ofChar : Char → Kind
  | 'n' => .null
  | 't' => .bool
  | 'f' => .bool
  | '"' => .string
  | '[' => .array
  | '{' => .object
  | _ => .number

/-! ### Numbers -/

theorem toList_toString (value : Int) :
    (toString value).toList = (if value < 0 then ['-'] else []) ++ Nat.toDigits 10 value.natAbs := by
  rw [Int.toString_eq_repr, Int.repr_eq_if]
  rcases lt_or_ge value 0 with hneg | hpos
  · rw [if_neg (not_le.mpr hneg), if_pos hneg, String.toList_append, Nat.toList_repr,
      show (-value).toNat = value.natAbs by omega]
    rfl
  · rw [if_pos hpos, if_neg (not_lt.mpr hpos), Nat.toList_repr,
      show value.toNat = value.natAbs by omega, List.nil_append]

theorem toString_injective : Function.Injective fun value : Int => (toString value).toList := by
  intro first second h
  have hhead (n : Nat) : (Nat.toDigits 10 n).head? ≠ some '-' :=
    Double.head?_ne_minus_of_isDigit fun c hc =>
      Double.isDigit_of_mem_toDigits (List.mem_of_mem_head? hc)
  simp only [toList_toString] at h
  obtain ⟨hsign, hdigits⟩ := Double.signed_inj (hhead _) (hhead _) h
  have habs := congrArg Double.digitsValue hdigits
  rw [Double.digitsValue_toDigits, Double.digitsValue_toDigits] at habs
  omega

theorem isDecimalChar_of_mem_toString {value : Int} {c : Char}
    (h : c ∈ (toString value).toList) : isDecimalChar c = true ∧ c ≠ '.' ∧ c ≠ 'e' := by
  rw [toList_toString, List.mem_append] at h
  rcases h with hsign | hdigit
  · obtain rfl := Double.eq_minus_of_mem_sign hsign
    decide
  · have hc := Double.isDigit_of_mem_toDigits hdigit
    refine ⟨Double.isDecimalChar_of_isDigit hc, ?_, ?_⟩ <;> rintro rfl <;> exact absurd hc (by decide)

theorem isDecimalChar_of_mem_text {value : Double} {c : Char} (h : c ∈ value.text) :
    isDecimalChar c = true := by
  obtain ⟨body, number, htext, ⟨front, mark, back, rfl, -, hfront, hmark, hback⟩, -⟩ :=
    value.exists_text_eq
  rw [htext, List.mem_append, List.mem_append, List.mem_cons] at h
  rcases h with hsign | hc | rfl | hc
  · obtain rfl := Double.eq_minus_of_mem_sign hsign
    rfl
  · exact Double.isDecimalChar_of_isDigit (hfront c hc)
  · rcases hmark with rfl | rfl <;> rfl
  · exact hback c hc

/-- An integer is written without a point and without an exponent, and a double with one of them. -/
theorem toString_ne_text (value : Int) (other : Double) : (toString value).toList ≠ other.text := by
  obtain ⟨body, number, htext, ⟨front, mark, back, rfl, -, -, hmark, -⟩, -⟩ := other.exists_text_eq
  intro h
  have hmem : mark ∈ (toString value).toList := by
    rw [h, htext]
    simp
  obtain ⟨-, hpoint, hexponent⟩ := isDecimalChar_of_mem_toString hmem
  exact hmark.elim hpoint hexponent

variable {v w : Json} {rest after : List Char}

theorem isDecimalChar_of_number (h : v.kind = .number) {c : Char} (hc : c ∈ v.text) :
    isDecimalChar c = true := by
  cases v with
  | int value => exact (isDecimalChar_of_mem_toString hc).1
  | double value => exact isDecimalChar_of_mem_text hc
  | _ => cases h

/-- Different numbers have different texts. -/
theorem eq_of_text_number (hv : v.kind = .number) (hw : w.kind = .number) (h : v.text = w.text) :
    v = w := by
  cases v with
  | int value =>
    cases w with
    | int other => exact congrArg Json.int (toString_injective h)
    | double other => exact absurd h (toString_ne_text value other)
    | _ => cases hw
  | double value =>
    cases w with
    | int other => exact absurd h.symm (toString_ne_text other value)
    | double other => exact congrArg Json.double (Double.text_injective h)
    | _ => cases hw
  | _ => cases hv

/-- What a number can end in front of. -/
def Ends (rest : List Char) : Prop :=
  ∀ c ∈ rest.head?, isDecimalChar c = false

theorem takeWhile_of_ends {number : List Char} (hnumber : ∀ c ∈ number, isDecimalChar c = true)
    (h : Ends rest) : (number ++ rest).takeWhile isDecimalChar = number := by
  rw [List.takeWhile_append_of_pos hnumber]
  cases rest with
  | nil => exact List.append_nil number
  | cons c rest =>
    rw [List.takeWhile_cons_of_neg (by rw [h c rfl]; exact Bool.false_ne_true), List.append_nil]

theorem number_append_inj (hv : v.kind = .number) (hw : w.kind = .number) (hrest : Ends rest)
    (hafter : Ends after) (h : v.text ++ rest = w.text ++ after) : v = w ∧ rest = after := by
  have htext : v.text = w.text := by
    rw [← takeWhile_of_ends (fun _ => isDecimalChar_of_number hv) hrest, h,
      takeWhile_of_ends (fun _ => isDecimalChar_of_number hw) hafter]
  rw [htext] at h
  exact ⟨eq_of_text_number hv hw htext, List.append_cancel_left h⟩

/-! ### First characters -/

theorem ofChar_of_isDecimalChar {c : Char} (h : isDecimalChar c = true) : Kind.ofChar c = .number := by
  unfold Kind.ofChar
  split <;> first | rfl | exact absurd h (by decide)

theorem text_ne_nil_of_number (h : v.kind = .number) : v.text ≠ [] := by
  cases v with
  | int value =>
    rw [text_int, toList_toString]
    exact List.append_ne_nil_of_right_ne_nil _ Nat.toDigits_ne_nil
  | double value =>
    obtain ⟨body, number, htext, ⟨front, mark, back, rfl, -⟩, -⟩ := value.exists_text_eq
    rw [text_double, htext]
    simp
  | _ => cases h

/-- The first character of a value's text tells the kind of the value. -/
theorem exists_text_eq_cons (v : Json) : ∃ c back, v.text = c :: back ∧ Kind.ofChar c = v.kind := by
  have hnumber (h : v.kind = .number) :
      ∃ c back, v.text = c :: back ∧ Kind.ofChar c = v.kind := by
    obtain ⟨c, back, hback⟩ := List.exists_cons_of_ne_nil (text_ne_nil_of_number h)
    have hc : isDecimalChar c = true :=
      isDecimalChar_of_number h (hback ▸ List.mem_cons_self)
    exact ⟨c, back, hback, by rw [ofChar_of_isDecimalChar hc, h]⟩
  cases v with
  | null => exact ⟨'n', _, rfl, rfl⟩
  | bool value => cases value <;> exact ⟨_, _, rfl, rfl⟩
  | int value => exact hnumber rfl
  | double value => exact hnumber rfl
  | string value => exact ⟨'"', _, rfl, rfl⟩
  | array items => exact ⟨'[', _, rfl, rfl⟩
  | object fields => exact ⟨'{', _, rfl, rfl⟩

theorem kind_eq_of_text_append (h : v.text ++ rest = w.text ++ after) : v.kind = w.kind := by
  obtain ⟨c, back, hv, hc⟩ := v.exists_text_eq_cons
  obtain ⟨d, back', hw, hd⟩ := w.exists_text_eq_cons
  rw [hv, hw, List.cons_append, List.cons_append, List.cons.injEq] at h
  rw [← hc, ← hd, h.1]

/-- No value's text begins as an array ends. -/
theorem text_append_ne_bracket (v : Json) (rest back : List Char) :
    v.text ++ rest ≠ ']' :: back := by
  intro h
  obtain ⟨c, behind, hc, hkind⟩ := v.exists_text_eq_cons
  rw [hc, List.cons_append] at h
  obtain rfl : c = ']' := List.head_eq_of_cons_eq h
  have hdecimal : isDecimalChar ']' = true :=
    isDecimalChar_of_number hkind.symm (hc ▸ List.mem_cons_self)
  exact absurd hdecimal (by decide)

/-! ### Lists -/

section Lists

variable {α : Type} {write : α → List Char} {R : α → α → Prop} {closing : Char}

theorem intercalate_cons_eq (separator first : List Char) (texts : List (List Char)) :
    separator.intercalate (first :: texts) = first ++ texts.flatMap (separator ++ ·) := by
  induction texts generalizing first with
  | nil => simp
  | cons second texts ih =>
    rw [List.intercalate_cons_cons, ih, List.flatMap_cons, List.append_assoc, List.append_assoc]

/-- Texts one behind the other, as arrays and objects have them: behind each one follows a comma or
the closing character. Where each of them can be told from what it stands in front of, so can all. -/
theorem forall₂_of_later {as bs : List α} (hcomma : closing ≠ ',')
    (hclosing : isDecimalChar closing = false)
    (hread : ∀ a ∈ as, ∀ b ∈ bs, ∀ {rest after}, Ends rest → Ends after →
      write a ++ rest = write b ++ after → R a b ∧ rest = after)
    (h : (as.map write).flatMap ([','] ++ ·) ++ closing :: rest
      = (bs.map write).flatMap ([','] ++ ·) ++ closing :: after) :
    List.Forall₂ R as bs ∧ rest = after := by
  have hends (texts : List (List Char)) (rest : List Char) :
      Ends (texts.flatMap ([','] ++ ·) ++ closing :: rest) := by
    intro c hc
    cases texts with
    | nil => cases hc; exact hclosing
    | cons text texts => cases hc; rfl
  induction as generalizing bs with
  | nil =>
    cases bs with
    | nil => exact ⟨.nil, List.tail_eq_of_cons_eq h⟩
    | cons b bs => exact absurd (List.head_eq_of_cons_eq h) hcomma
  | cons a as ih =>
    cases bs with
    | nil => exact absurd (List.head_eq_of_cons_eq h).symm hcomma
    | cons b bs =>
      simp only [List.map_cons, List.flatMap_cons, List.append_assoc] at h
      obtain ⟨hab, hbehind⟩ := hread a List.mem_cons_self b List.mem_cons_self (hends _ _) (hends _ _)
        (List.append_cancel_left h)
      obtain ⟨hlater, hrest⟩ := ih (fun a ha b hb => hread a (List.mem_cons_of_mem _ ha) b
        (List.mem_cons_of_mem _ hb)) hbehind
      exact ⟨.cons hab hlater, hrest⟩

theorem forall₂_of_intercalate {as bs : List α} (hcomma : closing ≠ ',')
    (hclosing : isDecimalChar closing = false)
    (hopening : ∀ a rest back, write a ++ rest ≠ closing :: back)
    (hread : ∀ a ∈ as, ∀ b ∈ bs, ∀ {rest after}, Ends rest → Ends after →
      write a ++ rest = write b ++ after → R a b ∧ rest = after)
    (h : [','].intercalate (as.map write) ++ closing :: rest
      = [','].intercalate (bs.map write) ++ closing :: after) :
    List.Forall₂ R as bs ∧ rest = after := by
  cases as with
  | nil =>
    cases bs with
    | nil => exact ⟨.nil, List.tail_eq_of_cons_eq h⟩
    | cons b bs =>
      rw [List.map_cons, intercalate_cons_eq, List.append_assoc] at h
      exact absurd h.symm (hopening _ _ _)
  | cons a as =>
    cases bs with
    | nil =>
      rw [List.map_cons, intercalate_cons_eq, List.append_assoc] at h
      exact absurd h (hopening _ _ _)
    | cons b bs =>
      -- the rest is a list of texts with a comma in front of each, as it is behind any first text
      refine forall₂_of_later hcomma hclosing hread ?_
      simp only [List.map_cons, intercalate_cons_eq, List.append_assoc] at h
      simp only [List.map_cons, List.flatMap_cons, List.append_assoc]
      rw [h]

theorem exists_of_forall₂ {as bs : List α} (h : List.Forall₂ R as bs) {a : α} (ha : a ∈ as) :
    ∃ b ∈ bs, R a b := by
  induction h with
  | nil => cases ha
  | cons hab _ ih =>
    rcases List.mem_cons.mp ha with rfl | ha
    · exact ⟨_, List.mem_cons_self, hab⟩
    · obtain ⟨b, hb, hrelated⟩ := ih ha
      exact ⟨b, List.mem_cons_of_mem _ hb, hrelated⟩

theorem map_eq_of_forall₂ {β : Type} {f : α → β} {as bs : List α} (h : List.Forall₂ R as bs)
    (hf : ∀ a ∈ as, ∀ b ∈ bs, R a b → f a = f b) : as.map f = bs.map f := by
  induction h with
  | nil => rfl
  | cons hab _ ih =>
    rw [List.map_cons, List.map_cons, hf _ List.mem_cons_self _ List.mem_cons_self hab,
      ih fun a ha b hb => hf a (List.mem_cons_of_mem _ ha) b (List.mem_cons_of_mem _ hb)]

end Lists

/-! ### Arrays and objects -/

/-- Values that are told from their texts, whatever follows, as far as the numbers in them end. -/
def Told (v : Json) : Prop :=
  ∀ {w rest after}, v.namesApart = true → w.namesApart = true → Ends rest → Ends after →
    v.text ++ rest = w.text ++ after → v.same w = true ∧ rest = after

theorem told_number (h : v.kind = .number) : Told v := by
  intro w rest after _ _ hrest hafter htext
  have hw : w.kind = .number := (kind_eq_of_text_append htext).symm.trans h
  obtain ⟨rfl, hrest⟩ := number_append_inj h hw hrest hafter htext
  refine ⟨?_, hrest⟩
  cases v with
  | int value => rw [same, beq_iff_eq]
  | double value => rw [same, beq_iff_eq]
  | _ => cases h

theorem field_append_inj {field other : String × Json} (htold : Told field.2)
    (hfield : field.2.namesApart = true) (hother : other.2.namesApart = true)
    (hrest : Ends rest) (hafter : Ends after)
    (h : writtenField field ++ rest = writtenField other ++ after) :
    SameField field other ∧ rest = after := by
  simp only [writtenField, fieldText, List.append_assoc, List.cons_append] at h
  obtain ⟨hname, hvalue⟩ := quote_append_inj h
  obtain ⟨hsame, hrest⟩ := htold hfield hother hrest hafter (List.tail_eq_of_cons_eq hvalue)
  exact ⟨⟨String.toList_injective hname, hsame⟩, hrest⟩

theorem told_array {items : List Json} (ih : ∀ item ∈ items, Told item) : Told (array items) := by
  intro w rest after hv hw hrest hafter h
  have hkind := kind_eq_of_text_append h
  cases w with
  | array others =>
    rw [text_array, text_array, List.cons_append, List.cons_append, List.append_assoc,
      List.append_assoc] at h
    have hread : ∀ item ∈ items, ∀ other ∈ others, ∀ {rest after}, Ends rest → Ends after →
        item.text ++ rest = other.text ++ after → item.same other = true ∧ rest = after :=
      fun item hitem other hother => ih item hitem (namesApart_array_iff.mp hv item hitem)
        (namesApart_array_iff.mp hw other hother)
    obtain ⟨hitems, hrest⟩ := forall₂_of_intercalate (by decide) (by decide) text_append_ne_bracket
      hread (List.tail_eq_of_cons_eq h)
    exact ⟨same_array_iff.mpr hitems, hrest⟩
  | _ => cases hkind

theorem told_object {fields : List (String × Json)} (ih : ∀ field ∈ fields, Told field.2) :
    Told (object fields) := by
  intro w rest after hv hw hrest hafter h
  have hkind := kind_eq_of_text_append h
  cases w with
  | object others =>
    obtain ⟨-, hvalues⟩ := namesApart_object_iff.mp hv
    obtain ⟨hnodup, hvalues'⟩ := namesApart_object_iff.mp hw
    have hmem {field : String × Json} {fields : List (String × Json)} :
        field ∈ sortFields fields ↔ field ∈ fields := (perm_sortFields fields).mem_iff
    rw [text_object, text_object, List.cons_append, List.cons_append, List.append_assoc,
      List.append_assoc] at h
    have hread : ∀ field ∈ sortFields fields, ∀ other ∈ sortFields others, ∀ {rest after},
        Ends rest → Ends after → writtenField field ++ rest = writtenField other ++ after →
        SameField field other ∧ rest = after :=
      fun field hfield other hother => field_append_inj (ih field (hmem.mp hfield))
        (hvalues field (hmem.mp hfield)) (hvalues' other (hmem.mp hother))
    have hopening : ∀ field rest back, writtenField field ++ rest ≠ '}' :: back := by
      intro field rest back hclosing
      exact absurd (List.head_eq_of_cons_eq hclosing) (by decide)
    obtain ⟨hfields, hrest⟩ := forall₂_of_intercalate (by decide) (by decide) hopening hread
      (List.tail_eq_of_cons_eq h)
    refine ⟨(same_object_iff_mem hnodup).mpr ⟨?_, fun field hfield => ?_⟩, hrest⟩
    · rw [← (perm_sortFields fields).length_eq, ← (perm_sortFields others).length_eq,
        hfields.length_eq]
    · obtain ⟨other, hother, hsame⟩ := exists_of_forall₂ hfields (hmem.mpr hfield)
      exact ⟨other, hmem.mp hother, hsame⟩
  | _ => cases hkind

/-- Every value is told from its text, by induction on what it holds. -/
theorem told (v : Json) : Told v := by
  induction v using Json.induction with
  | null =>
    intro w rest after _ _ _ _ h
    have hkind := kind_eq_of_text_append h
    cases w with
    | null => exact ⟨rfl, List.append_cancel_left h⟩
    | _ => cases hkind
  | bool value =>
    intro w rest after _ _ _ _ h
    have hkind := kind_eq_of_text_append h
    cases w with
    | bool other =>
      cases value <;> cases other
      · exact ⟨rfl, List.append_cancel_left h⟩
      · exact absurd (List.head_eq_of_cons_eq h) (by decide)
      · exact absurd (List.head_eq_of_cons_eq h) (by decide)
      · exact ⟨rfl, List.append_cancel_left h⟩
    | _ => cases hkind
  | int value => exact told_number rfl
  | double value => exact told_number rfl
  | string value =>
    intro w rest after _ _ _ _ h
    have hkind := kind_eq_of_text_append h
    cases w with
    | string other =>
      rw [text_string, text_string] at h
      obtain ⟨hvalue, hrest⟩ := quote_append_inj h
      rw [same, beq_iff_eq]
      exact ⟨String.toList_injective hvalue, hrest⟩
    | _ => cases hkind
  | array items ih => exact told_array ih
  | object fields ih => exact told_object ih

/-! ### The order of fields -/

section Order

variable {α : Type} {fields others : List (String × α)}

theorem pairwise_sortFields (fields : List (String × α)) :
    (sortFields fields).Pairwise fun a b => a.1 ≤ b.1 := by
  have htrans (a b c : String × α) (hab : decide (a.1 ≤ b.1) = true)
      (hbc : decide (b.1 ≤ c.1) = true) : decide (a.1 ≤ c.1) = true :=
    decide_eq_true (le_trans (of_decide_eq_true hab) (of_decide_eq_true hbc))
  have htotal (a b : String × α) : (decide (a.1 ≤ b.1) || decide (b.1 ≤ a.1)) = true := by
    rw [Bool.or_eq_true, decide_eq_true_eq, decide_eq_true_eq]
    exact le_total a.1 b.1
  exact (List.pairwise_mergeSort htrans htotal fields).imp fun h => of_decide_eq_true h

/-- Fields with names of their own have one order only. -/
theorem sortFields_eq_of_perm (hnodup : (fields.map Prod.fst).Nodup) (h : fields.Perm others) :
    sortFields fields = sortFields others := by
  have hfields := perm_sortFields fields
  have hothers := (perm_sortFields others).trans h.symm
  refine List.Perm.eq_of_pairwise (fun a b ha hb hab hba => ?_) (pairwise_sortFields fields)
    (pairwise_sortFields others) (hfields.trans hothers.symm)
  exact List.inj_on_of_nodup_map hnodup (hfields.mem_iff.mp ha) (hothers.mem_iff.mp hb)
    (le_antisymm hab hba)

theorem pairwise_lt_sortFields (hnodup : (fields.map Prod.fst).Nodup) :
    (sortFields fields).Pairwise fun a b => a.1 < b.1 := by
  have hapart : (sortFields fields).Pairwise fun a b => a.1 ≠ b.1 :=
    List.pairwise_map.mp (((perm_sortFields fields).map Prod.fst).nodup_iff.mpr hnodup)
  exact (pairwise_sortFields fields).imp₂ (fun _ _ hle hne => lt_of_le_of_ne hle hne) hapart

end Order

/-! ### Texts of the same value -/

theorem text_object_eq_of_same {fields others : List (String × Json)}
    (ih : ∀ field ∈ fields, ∀ {w}, field.2.namesApart = true → w.namesApart = true →
      field.2.same w = true → field.2.text = w.text)
    (hv : (object fields).namesApart = true) (hw : (object others).namesApart = true)
    (h : (object fields).same (object others) = true) :
    (object fields).text = (object others).text := by
  obtain ⟨hnodup, hvalues⟩ := namesApart_object_iff.mp hv
  obtain ⟨hnodup', hvalues'⟩ := namesApart_object_iff.mp hw
  obtain ⟨hlength, hfields⟩ := (same_object_iff_mem hnodup').mp h
  have hnames (fields : List (String × Json)) :
      (fieldTexts fields).map Prod.fst = fields.map Prod.fst := by
    rw [fieldTexts_eq, List.map_map]
    rfl
  have hsubset : fieldTexts fields ⊆ fieldTexts others := by
    intro written hwritten
    rw [fieldTexts_eq] at hwritten ⊢
    obtain ⟨field, hfield, rfl⟩ := List.mem_map.mp hwritten
    obtain ⟨other, hother, hname, hsame⟩ := hfields field hfield
    refine List.mem_map.mpr ⟨other, hother, ?_⟩
    rw [hname, ih field hfield (hvalues field hfield) (hvalues' other hother) hsame]
  have hperm : (fieldTexts fields).Perm (fieldTexts others) := by
    have hapart : (fieldTexts fields).Nodup := List.Nodup.of_map Prod.fst (hnames fields ▸ hnodup)
    refine (List.subperm_of_subset hapart hsubset).perm_of_length_le ?_
    rw [fieldTexts_eq, fieldTexts_eq, List.length_map, List.length_map, hlength]
  rw [text_fieldTexts, text_fieldTexts, sortFields_eq_of_perm (hnames fields ▸ hnodup) hperm]

theorem text_eq_of_same : ∀ {v w : Json}, v.namesApart = true → w.namesApart = true →
    v.same w = true → v.text = w.text := by
  intro v
  induction v using Json.induction with
  | null =>
    intro w _ _ h
    cases w with
    | null => rfl
    | _ => cases h
  | bool value =>
    intro w _ _ h
    cases w with
    | bool other => rw [beq_iff_eq.mp h]
    | _ => cases h
  | int value =>
    intro w _ _ h
    cases w with
    | int other => rw [beq_iff_eq.mp h]
    | _ => cases h
  | double value =>
    intro w _ _ h
    cases w with
    | double other => rw [beq_iff_eq.mp h]
    | _ => cases h
  | string value =>
    intro w _ _ h
    cases w with
    | string other => rw [beq_iff_eq.mp h]
    | _ => cases h
  | array items ih =>
    intro w hv hw h
    cases w with
    | array others =>
      have hitems : items.map text = others.map text :=
        map_eq_of_forall₂ (same_array_iff.mp h) fun item hitem other hother =>
          ih item hitem (namesApart_array_iff.mp hv item hitem)
            (namesApart_array_iff.mp hw other hother)
      rw [text_array, text_array, hitems]
    | _ => cases h
  | object fields ih =>
    intro w hv hw h
    cases w with
    | object others => exact text_object_eq_of_same ih hv hw h
    | _ => cases h

/-- Two values have one text exactly when they are the same. -/
theorem text_eq_iff (hv : v.namesApart = true) (hw : w.namesApart = true) :
    v.text = w.text ↔ v.same w = true := by
  constructor
  · intro h
    have hends : Ends [] := fun c hc => nomatch hc
    exact (told v hv hw hends hends (congrArg (· ++ []) h)).1
  · exact text_eq_of_same hv hw

/-- An object is written with its fields in the order of the bytes of their names. -/
theorem exists_text_object {fields : List (String × Json)} (hnodup : (fields.map Prod.fst).Nodup) :
    ∃ ordered : List (String × Json), ordered.Perm fields ∧
      ordered.Pairwise (fun a b => Text.encodeUtf8 a.1 < Text.encodeUtf8 b.1) ∧
      (object fields).text = '{' :: ([','].intercalate (ordered.map writtenField) ++ ['}']) := by
  refine ⟨sortFields fields, perm_sortFields fields, ?_, text_object fields⟩
  exact (pairwise_lt_sortFields hnodup).imp fun h => Text.encodeUtf8_lt_iff.mpr h

end SiteTree.Json
