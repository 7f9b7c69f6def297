import SiteTree.Text.Blank

/-!
# Attributes of a tag

The attributes are read one at a time from left to right. A name is a run of characters
other than blanks, quotes and `= < > /` and the grave accent; a value, when there is one,
follows an equals sign with optional blanks around it, in either quotes or bare. What is
neither is skipped character by character.

* `flatMap_attrItems` — the items of a text, put together again, are the text.
-/

namespace SiteTree.Markup

/-- The characters of an attribute's name. -/
def isAttrNameChar (c : Char) : Bool :=
  !(Text.isBlank c || ['"', '\'', '=', '<', '>', '/', '\x60'].contains c)

/-- The characters of a value that stands without quotes. -/
def isBareChar (c : Char) : Bool :=
  !(Text.isBlank c || ['"', '\'', '=', '<', '>', '\x60'].contains c)

/-- A value as it is written: the equals sign with the blanks around it, the quote if there
is one, and the text of the value. -/
structure AttrValue where
  equals : List Char
  quote : Option Char
  text : List Char
  deriving DecidableEq, Repr

def AttrValue.join (value : AttrValue) : List Char :=
  value.equals ++ value.quote.toList ++ value.text ++ value.quote.toList

/-- An item of an attribute list: an attribute, or a character that belongs to none. -/
inductive AttrItem where
  | attr (name : List Char) (value : Option AttrValue)
  | other (c : Char)
  deriving DecidableEq, Repr

def AttrItem.join : AttrItem → List Char
  | .attr name value => name ++ (value.map AttrValue.join).getD []
  | .other c => [c]

/-! ### Reading -/

/-- The value behind an equals sign and its blanks, and what follows the value. -/
def valueText? (equals : List Char) : List Char → Option (AttrValue × List Char)
  | [] => none
  | c :: rest =>
    if c = '"' ∨ c = '\'' then
      match rest.dropWhile (· != c) with
      | [] => none
      | _ :: after => some (⟨equals, some c, rest.takeWhile (· != c)⟩, after)
    else if isBareChar c then
      some (⟨equals, none, c :: rest.takeWhile isBareChar⟩, rest.dropWhile isBareChar)
    else none

/-- The value that a text behind an attribute's name begins with, and what follows it. -/
def attrValue? (text : List Char) : Option (AttrValue × List Char) :=
  match text.dropWhile Text.isBlank with
  | '=' :: rest =>
    valueText? (text.takeWhile Text.isBlank ++ '=' :: rest.takeWhile Text.isBlank)
      (rest.dropWhile Text.isBlank)
  | _ => none

theorem head_dropWhile_bne {c d : Char} {text after : List Char}
    (h : text.dropWhile (· != c) = d :: after) : d = c := by
  induction text with
  | nil => simp at h
  | cons e text ih =>
    rw [List.dropWhile_cons] at h
    split at h
    · exact ih h
    · next he => simp_all

theorem join_of_valueText? {equals text after : List Char} {value : AttrValue}
    (h : valueText? equals text = some (value, after)) :
    value.join ++ after = equals ++ text := by
  unfold valueText? at h
  split at h
  · simp at h
  · next c rest =>
    split at h
    · split at h
      · simp at h
      · next d after' hdrop =>
        simp only [Option.some.injEq, Prod.mk.injEq] at h
        obtain ⟨rfl, rfl⟩ := h
        have hd := head_dropWhile_bne hdrop
        subst hd
        have := List.takeWhile_append_dropWhile (p := (· != d)) (l := rest)
        rw [hdrop] at this
        simp [AttrValue.join, this]
    · split at h
      · simp only [Option.some.injEq, Prod.mk.injEq] at h
        obtain ⟨rfl, rfl⟩ := h
        simp [AttrValue.join]
      · simp at h

theorem join_of_attrValue? {text after : List Char} {value : AttrValue}
    (h : attrValue? text = some (value, after)) : value.join ++ after = text := by
  unfold attrValue? at h
  split at h
  · next rest hdrop =>
    rw [join_of_valueText? h]
    have := List.takeWhile_append_dropWhile (p := Text.isBlank) (l := text)
    rw [hdrop] at this
    simpa using this
  · simp at h

/-- The items of an attribute list, in order. -/
def attrItems (attrs : List Char) : List AttrItem :=
  match attrs with
  | [] => []
  | c :: rest =>
    if isAttrNameChar c then
      have hrest : (rest.dropWhile isAttrNameChar).length ≤ rest.length :=
        (List.dropWhile_suffix isAttrNameChar).length_le
      match h : attrValue? (rest.dropWhile isAttrNameChar) with
      | some (value, after) =>
        have : after.length ≤ (rest.dropWhile isAttrNameChar).length := by
          have := congrArg List.length (join_of_attrValue? h)
          simp only [List.length_append] at this
          omega
        .attr (c :: rest.takeWhile isAttrNameChar) (some value) :: attrItems after
      | none =>
        .attr (c :: rest.takeWhile isAttrNameChar) none
          :: attrItems (rest.dropWhile isAttrNameChar)
    else .other c :: attrItems rest
termination_by attrs.length
decreasing_by all_goals (simp only [List.length_cons]; omega)

theorem flatMap_attrItems (attrs : List Char) :
    (attrItems attrs).flatMap AttrItem.join = attrs := by
  fun_induction attrItems attrs with
  | case1 => rfl
  | case2 c rest _ _ value after h _ ih =>
    simp [AttrItem.join, ih, join_of_attrValue? h]
  | case3 c rest _ _ h ih => simp [AttrItem.join, ih]
  | case4 c rest _ ih => simp [AttrItem.join, ih]

end SiteTree.Markup
