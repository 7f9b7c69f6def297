import SiteTree.Markup.ScopeClass
import SiteTree.Proofs.Text.Blank
import Mathlib.Data.List.Basic

/-!
# The grammar of attributes

An attribute stands behind blanks and is a name, or a name and a value in quotes or bare. A
row of attributes may be followed by blanks and, in a tag that closes itself, by a slash.

* `AttrList.addClassToAttrs_text` — adding a class changes the value of the attribute `class`,
  or appends such an attribute when there is none.
-/

namespace SiteTree.Markup

/-! ### Attributes -/

/-- A value and the equals sign in front of it. -/
inductive Value where
  | quoted (quote : Char) (text : List Char) (isQuote : quote = '"' ∨ quote = '\'')
      (fits : quote ∉ text)
  | bare (text : List Char) (text_ne_nil : text ≠ []) (chars : ∀ c ∈ text, isBareChar c = true)
      (getLast_ne : text.getLast? ≠ some '/')

namespace Value

def text : Value → List Char
  | quoted quote text _ _ => '=' :: quote :: (text ++ [quote])
  | bare text _ _ _ => '=' :: text

def isBare : Value → Bool
  | quoted _ _ _ _ => false
  | bare _ _ _ _ => true

/-- The value with a class added, unless it has the class already. A bare value is put in
quotes. -/
def textWith (cls : List Char) : Value → List Char
  | quoted quote text isQuote fits =>
    if cls ∈ Text.words text then (quoted quote text isQuote fits).text
    else
      '=' :: quote :: (text ++ (if Text.allBlank text then [] else [' ']) ++ cls ++ [quote])
  | bare text _ _ _ =>
    if cls = text then '=' :: text else '=' :: '"' :: (text ++ ' ' :: cls ++ ['"'])

end Value

structure Attribute where
  gap : List Char
  name : List Char
  value : Option Value
  gap_ne_nil : gap ≠ []
  isBlank_gap : ∀ c ∈ gap, Text.isBlank c = true
  name_ne_nil : name ≠ []
  chars : ∀ c ∈ name, isAttrNameChar c = true

namespace Attribute

def text (attr : Attribute) : List Char :=
  attr.gap ++ attr.name ++ (attr.value.map Value.text).getD []

def isClass (attr : Attribute) : Bool :=
  Text.eqIgnoringCase attr.name "class".toList

def isBare (attr : Attribute) : Bool :=
  attr.value.any Value.isBare

/-- The attribute with a class added to its value if it is the attribute `class`. -/
def textWith (cls : List Char) (attr : Attribute) : List Char :=
  if attr.isClass then
    attr.gap ++ attr.name ++ (attr.value.map (Value.textWith cls)).getD []
  else attr.text

end Attribute

/-- All that stands between the name of a tag and its closing `>`: attributes, of which at
most one is named `class` and has a value then, blanks, and behind a slash blanks again. -/
structure AttrList where
  attributes : List Attribute
  gap : List Char
  slash : Option (List Char)
  isBlank_gap : ∀ c ∈ gap, Text.isBlank c = true
  isBlank_slash : ∀ blanks ∈ slash, ∀ c ∈ blanks, Text.isBlank c = true
  /-- a slash directly behind a bare value would belong to the value -/
  apart : gap = [] → slash.isSome = true →
    ∀ attr ∈ attributes.getLast?, attr.isBare = false
  unique : (attributes.filter Attribute.isClass).length ≤ 1
  valued : ∀ attr ∈ attributes, attr.isClass = true → attr.value.isSome = true

namespace AttrList

/-- What follows the attributes. -/
def tail (list : AttrList) : List Char :=
  list.gap ++ (list.slash.map ('/' :: ·)).getD []

def text (list : AttrList) : List Char :=
  list.attributes.flatMap Attribute.text ++ list.tail

/-- The attributes with a class added. -/
def textWith (cls : List Char) (list : AttrList) : List Char :=
  if list.attributes.any Attribute.isClass then
    list.attributes.flatMap (Attribute.textWith cls) ++ list.tail
  else list.attributes.flatMap Attribute.text ++ classAttribute cls ++ list.tail

end AttrList

/-! ### Reading a value -/

section Chars

variable {c : Char}

theorem notMem_of_isAttrNameChar (h : isAttrNameChar c = true) :
    Text.isBlank c = false ∧ c ∉ ['"', '\'', '=', '<', '>', '/', '\x60'] := by
  simpa [isAttrNameChar] using h

theorem notMem_of_isBareChar (h : isBareChar c = true) :
    Text.isBlank c = false ∧ c ∉ ['"', '\'', '=', '<', '>', '\x60'] := by
  simpa [isBareChar] using h

theorem isBareChar_of_isAttrNameChar (h : isAttrNameChar c = true) : isBareChar c = true := by
  obtain ⟨hblank, hnot⟩ := notMem_of_isAttrNameChar h
  simp_all [isBareChar]

theorem isAttrNameChar_of_isBlank (h : Text.isBlank c = true) : isAttrNameChar c = false := by
  simp [isAttrNameChar, h]

theorem isBareChar_of_isBlank (h : Text.isBlank c = true) : isBareChar c = false := by
  simp [isBareChar, h]

end Chars

/-- A run of characters of a kind ends where the text behind it begins with another. -/
theorem takeWhile_append_of_head? {p : Char → Bool} {run rest : List Char}
    (hrun : ∀ c ∈ run, p c = true) (hrest : ∀ c ∈ rest.head?, p c = false) :
    (run ++ rest).takeWhile p = run ∧ (run ++ rest).dropWhile p = rest := by
  have hhead : rest.takeWhile p = [] ∧ rest.dropWhile p = rest := by
    cases rest with
    | nil => exact ⟨rfl, rfl⟩
    | cons c rest =>
      have hc := hrest c rfl
      exact ⟨List.takeWhile_cons_of_neg (by simp [hc]), List.dropWhile_cons_of_neg (by simp [hc])⟩
  rw [List.takeWhile_append_of_pos hrun, List.dropWhile_append_of_pos hrun, hhead.1, hhead.2,
    List.append_nil]
  exact ⟨rfl, rfl⟩

namespace Value

/-- The value as the reader of attributes answers it. -/
def attrValue : Value → AttrValue
  | quoted quote text _ _ => ⟨['='], some quote, text⟩
  | bare text _ _ _ => ⟨['='], none, text⟩

theorem join_attrValue (value : Value) : value.attrValue.join = value.text := by
  cases value <;> simp [attrValue, AttrValue.join, Value.text]

theorem join_addClass (cls : List Char) (value : Value) :
    (value.attrValue.addClass cls).join = value.textWith cls := by
  cases value with
  | quoted quote text isQuote fits =>
    rw [AttrValue.addClass, textWith]
    simp only [attrValue, List.contains_eq_mem, decide_eq_true_eq]
    split
    · simp [AttrValue.join, Value.text]
    · by_cases hblank : Text.allBlank text <;> simp [AttrValue.join, hblank]
  | bare text hne chars getLast_ne =>
    have hblank : ∀ c ∈ text, Text.isBlank c = false := fun c hc =>
      (notMem_of_isBareChar (chars c hc)).1
    rw [AttrValue.addClass, textWith]
    simp only [attrValue, Text.words_eq_singleton hne hblank, Text.allBlank_eq_false hne hblank,
      List.contains_eq_mem, List.mem_singleton, decide_eq_true_eq]
    split
    · simp [AttrValue.join]
    · simp [AttrValue.join]

theorem attrValue?_text (value : Value) {rest : List Char}
    (hrest : value.isBare = true → ∀ c ∈ rest.head?, isBareChar c = false) :
    attrValue? (value.text ++ rest) = some (value.attrValue, rest) := by
  cases value with
  | quoted quote text isQuote fits =>
    have hquote : Text.isBlank quote = false := by
      rcases isQuote with rfl | rfl <;> decide
    have hrun : (text ++ quote :: rest).takeWhile (· != quote) = text
        ∧ (text ++ quote :: rest).dropWhile (· != quote) = quote :: rest :=
      takeWhile_append_of_head? (fun c hc => bne_iff_ne.mpr fun h => fits (h ▸ hc)) (by simp)
    have hequals : Text.isBlank '=' = false := by decide
    simp only [attrValue?, Value.text, List.cons_append, List.append_assoc, List.nil_append,
      List.dropWhile_cons, List.takeWhile_cons, hequals, hquote, Bool.false_eq_true, if_false]
    rw [valueText?, if_pos isQuote, hrun.1, hrun.2]
    rfl
  | bare text hne chars getLast_ne =>
    cases text with
    | nil => exact absurd rfl hne
    | cons c text =>
      have hc := notMem_of_isBareChar (chars c List.mem_cons_self)
      have hrun := takeWhile_append_of_head? (p := isBareChar)
        (fun d hd => chars d (List.mem_cons_of_mem _ hd)) (hrest rfl)
      have hequals : Text.isBlank '=' = false := by decide
      simp only [List.mem_cons, not_or] at hc
      simp only [attrValue?, Value.text, List.cons_append, List.dropWhile_cons,
        List.takeWhile_cons, hequals, hc.1, Bool.false_eq_true, if_false]
      rw [valueText?, if_neg (by simp [hc]), if_pos (chars c List.mem_cons_self), hrun.1, hrun.2]
      rfl

end Value

theorem attrValue?_eq_none {rest : List Char}
    (h : (rest.dropWhile Text.isBlank).head? ≠ some '=') : attrValue? rest = none := by
  unfold attrValue?
  split
  · next heq => simp [heq] at h
  · rfl

/-! ### Reading a row of attributes -/

theorem attrItems_other {c : Char} (h : isAttrNameChar c = false) (rest : List Char) :
    attrItems (c :: rest) = .other c :: attrItems rest := by
  rw [attrItems, if_neg (by simp [h])]

theorem attrItems_others {chars : List Char} (h : ∀ c ∈ chars, isAttrNameChar c = false)
    (rest : List Char) :
    attrItems (chars ++ rest) = chars.map AttrItem.other ++ attrItems rest := by
  induction chars with
  | nil => rfl
  | cons c chars ih =>
    rw [List.cons_append, attrItems_other (h c List.mem_cons_self),
      ih fun d hd => h d (List.mem_cons_of_mem _ hd)]
    rfl

section Name

variable {name rest : List Char} (hne : name ≠ []) (hname : ∀ c ∈ name, isAttrNameChar c = true)
  (hrest : ∀ c ∈ rest.head?, isAttrNameChar c = false)

include hne hname hrest

theorem attrItems_name_value {value : AttrValue} {after : List Char}
    (hvalue : attrValue? rest = some (value, after)) :
    attrItems (name ++ rest) = .attr name (some value) :: attrItems after := by
  cases name with
  | nil => exact absurd rfl hne
  | cons c name =>
    have hrun := takeWhile_append_of_head? (fun d hd => hname d (List.mem_cons_of_mem _ hd)) hrest
    rw [List.cons_append, attrItems, if_pos (hname c List.mem_cons_self)]
    simp only [hrun]
    split
    · next heq =>
      rw [hrun.2, hvalue, Option.some.injEq, Prod.mk.injEq] at heq
      rw [heq.1, heq.2]
    · next heq =>
      rw [hrun.2, hvalue] at heq
      simp at heq

theorem attrItems_name (hvalue : attrValue? rest = none) :
    attrItems (name ++ rest) = .attr name none :: attrItems rest := by
  cases name with
  | nil => exact absurd rfl hne
  | cons c name =>
    have hrun := takeWhile_append_of_head? (fun d hd => hname d (List.mem_cons_of_mem _ hd)) hrest
    rw [List.cons_append, attrItems, if_pos (hname c List.mem_cons_self)]
    simp only [hrun]
    split
    · next heq =>
      rw [hrun.2, hvalue] at heq
      simp at heq
    · rfl

end Name

namespace Attribute

/-- What can stand behind an attribute: a blank, or a slash that no bare value takes in; and
behind blanks no equals sign. -/
structure MayPrecede (attr : Attribute) (rest : List Char) : Prop where
  head : ∀ c ∈ rest.head?, Text.isBlank c = true ∨ c = '/' ∧ attr.isBare = false
  noEquals : (rest.dropWhile Text.isBlank).head? ≠ some '='

/-- The attribute as the reader of attributes answers it. -/
def items (attr : Attribute) : List AttrItem :=
  attr.gap.map .other ++ [.attr attr.name (attr.value.map Value.attrValue)]

theorem attrItems_text (attr : Attribute) {rest : List Char} (h : attr.MayPrecede rest) :
    attrItems (attr.text ++ rest) = attr.items ++ attrItems rest := by
  obtain ⟨gap, name, value, gap_ne_nil, isBlank_gap, name_ne_nil, chars⟩ := attr
  obtain ⟨hhead, hequals⟩ := h
  simp only [Attribute.text, items, List.append_assoc]
  rw [attrItems_others fun c hc => isAttrNameChar_of_isBlank (isBlank_gap c hc)]
  congr 1
  cases value with
  | none =>
    refine attrItems_name name_ne_nil chars ?_ (attrValue?_eq_none hequals)
    intro c hc
    rcases hhead c hc with hblank | ⟨rfl, -⟩
    · exact isAttrNameChar_of_isBlank hblank
    · decide
  | some value =>
    refine attrItems_name_value name_ne_nil chars ?_ (value.attrValue?_text ?_)
    · intro c hc
      have hc : c = '=' := by
        cases value <;> simpa [Value.text] using hc.symm
      rw [hc]
      decide
    · intro hbare c hc
      rcases hhead c hc with hblank | ⟨rfl, hnot⟩
      · exact isBareChar_of_isBlank hblank
      · simp [isBare, hbare] at hnot

/-- An attribute ends in a character that is no blank and no slash. -/
theorem text_end (attr : Attribute) :
    ∃ front c, attr.text = front ++ [c] ∧ Text.isBlank c = false ∧ c ≠ '/' := by
  obtain ⟨gap, name, value, gap_ne_nil, isBlank_gap, name_ne_nil, chars⟩ := attr
  simp only [Attribute.text]
  cases value with
  | none =>
    rcases List.eq_nil_or_concat name with rfl | ⟨front, c, rfl⟩
    · exact absurd rfl name_ne_nil
    · have hc := notMem_of_isAttrNameChar (chars c (by simp))
      simp only [List.mem_cons, not_or] at hc
      exact ⟨gap ++ front, c, by simp, hc.1, hc.2.2.2.2.2.2.1⟩
  | some value =>
    cases value with
    | quoted quote text isQuote fits =>
      refine ⟨gap ++ name ++ ('=' :: quote :: text), quote, by simp [Value.text], ?_⟩
      rcases isQuote with rfl | rfl <;> decide
    | bare text text_ne_nil chars getLast_ne =>
      rcases List.eq_nil_or_concat text with rfl | ⟨front, c, rfl⟩
      · exact absurd rfl text_ne_nil
      · have hc := notMem_of_isBareChar (chars c (by simp))
        exact ⟨gap ++ name ++ ('=' :: front), c, by simp [Value.text], hc.1, by
          simpa using getLast_ne⟩

theorem text_mayPrecede (attr next : Attribute) (rest : List Char) :
    attr.MayPrecede (next.text ++ rest) := by
  obtain ⟨gap, name, value, gap_ne_nil, isBlank_gap, name_ne_nil, chars⟩ := next
  simp only [Attribute.text]
  cases gap with
  | nil => exact absurd rfl gap_ne_nil
  | cons blank gap =>
    cases name with
    | nil => exact absurd rfl name_ne_nil
    | cons c name =>
      have hc := notMem_of_isAttrNameChar (chars c List.mem_cons_self)
      simp only [List.mem_cons, not_or] at hc
      refine ⟨?_, ?_⟩
      · rintro d hd
        obtain rfl : blank = d := by simpa using hd
        exact .inl (isBlank_gap blank List.mem_cons_self)
      · simp only [List.append_assoc]
        rw [List.dropWhile_append_of_pos isBlank_gap, List.cons_append,
          List.dropWhile_cons_of_neg (by simp [hc.1])]
        simp [hc]

end Attribute

/-- Attributes are read one by one up to what follows the last of them. -/
theorem attrItems_row (attributes : List Attribute) {tail : List Char}
    (h : ∀ attr ∈ attributes.getLast?, attr.MayPrecede tail) :
    attrItems (attributes.flatMap Attribute.text ++ tail)
      = attributes.flatMap Attribute.items ++ attrItems tail := by
  induction attributes with
  | nil => rfl
  | cons attr attributes ih =>
    have hnext : attr.MayPrecede (attributes.flatMap Attribute.text ++ tail) := by
      cases attributes with
      | nil => exact h attr rfl
      | cons next attributes =>
        rw [List.flatMap_cons, List.append_assoc]
        exact attr.text_mayPrecede next _
    rw [List.flatMap_cons, List.append_assoc, attr.attrItems_text hnext, ih, List.flatMap_cons,
      List.append_assoc]
    intro last hlast
    exact h last (by simp [List.getLast?_cons, Option.mem_def.mp hlast])

/-! ### Adding a class -/

section AddClass

variable (cls : List Char)

theorem addToValue?_others (chars : List Char) (items : List AttrItem) :
    addToValue? cls (chars.map .other ++ items)
      = (addToValue? cls items).map (chars.map .other ++ ·) := by
  induction chars with
  | nil => simp
  | cons c chars ih =>
    rw [List.map_cons, List.cons_append, addToValue?, ih, Option.map_map]
    rfl

theorem flatMap_join_others (chars : List Char) :
    (chars.map AttrItem.other).flatMap AttrItem.join = chars := by
  induction chars with
  | nil => rfl
  | cons c chars ih => simp [AttrItem.join, ih]

theorem Attribute.flatMap_join_items (attr : Attribute) :
    attr.items.flatMap AttrItem.join = attr.text := by
  rw [items, List.flatMap_append, flatMap_join_others, Attribute.text, List.append_assoc]
  cases hvalue : attr.value <;> simp [AttrItem.join, Value.join_attrValue]

/-- Next to an attribute `class` there is no other one, so nothing happens to the rest. -/
theorem isClass_eq_false_of_unique {attr : Attribute} {attributes : List Attribute}
    (hunique : ((attr :: attributes).filter Attribute.isClass).length ≤ 1)
    (hclass : attr.isClass = true) : ∀ other ∈ attributes, other.isClass = false := by
  rw [List.filter_cons_of_pos hclass, List.length_cons] at hunique
  have hnil : attributes.filter Attribute.isClass = [] :=
    List.eq_nil_of_length_eq_zero (by omega)
  intro other hother
  simpa using List.filter_eq_nil_iff.mp hnil other hother

/-- The items of a row of attributes with a class added to the value of the one that is named
`class`. -/
theorem addToValue?_row {attributes : List Attribute} (chars : List Char)
    (hunique : (attributes.filter Attribute.isClass).length ≤ 1)
    (hvalued : ∀ attr ∈ attributes, attr.isClass = true → attr.value.isSome = true) :
    (addToValue? cls (attributes.flatMap Attribute.items ++ chars.map .other)).map
        (·.flatMap AttrItem.join)
      = if attributes.any Attribute.isClass then
          some (attributes.flatMap (Attribute.textWith cls) ++ chars)
        else none := by
  induction attributes with
  | nil =>
    have := addToValue?_others cls chars []
    rw [List.append_nil] at this
    simp [this, addToValue?]
  | cons attr attributes ih =>
    rw [List.flatMap_cons, Attribute.items, List.append_assoc, List.append_assoc,
      addToValue?_others, List.singleton_append, addToValue?, ← Attribute.isClass]
    cases hclass : attr.isClass with
    | false =>
      rw [List.filter_cons_of_neg (by simp [hclass])] at hunique
      have ih := ih hunique fun a ha => hvalued a (List.mem_cons_of_mem _ ha)
      have hsame : attr.textWith cls = attr.text := by
        rw [Attribute.textWith, if_neg (by simp [hclass])]
      have htext := attr.flatMap_join_items
      rw [Attribute.items] at htext
      rw [if_neg (by simp), List.any_cons, hclass,
        Bool.false_or, List.flatMap_cons, List.append_assoc, hsame]
      by_cases hany : attributes.any Attribute.isClass = true
      · rw [if_pos hany] at ih ⊢
        obtain ⟨items, hitems, hjoin⟩ := Option.map_eq_some_iff.mp ih
        rw [hitems, ← htext, ← hjoin]
        simp
      · rw [if_neg hany] at ih ⊢
        rw [Option.map_eq_none_iff.mp ih]
        rfl
    | true =>
      have hothers := isClass_eq_false_of_unique hunique hclass
      have hrest : attributes.flatMap (Attribute.textWith cls)
          = attributes.flatMap Attribute.text :=
        List.flatMap_congr fun other hother => by simp [Attribute.textWith, hothers other hother]
      obtain ⟨value, hvalue⟩ := Option.isSome_iff_exists.mp
        (hvalued attr List.mem_cons_self hclass)
      rw [if_pos rfl, List.any_cons, hclass, Bool.true_or, if_pos rfl, List.flatMap_cons, hrest,
        Attribute.textWith, if_pos hclass, hvalue]
      simp [AttrItem.join, Value.join_addClass, flatMap_join_others, List.flatMap_assoc,
        Attribute.flatMap_join_items]

end AddClass

namespace AttrList

theorem mayPrecede_tail (list : AttrList) :
    ∀ attr ∈ list.attributes.getLast?, attr.MayPrecede list.tail := by
  obtain ⟨attributes, gap, slash, isBlank_gap, isBlank_slash, apart, unique, valued⟩ := list
  intro attr hattr
  simp only [tail]
  refine ⟨?_, ?_⟩
  · intro c hc
    cases gap with
    | cons blank gap =>
      obtain rfl : blank = c := by simpa using hc
      exact .inl (isBlank_gap blank List.mem_cons_self)
    | nil =>
      cases slash with
      | none => simp at hc
      | some blanks =>
        obtain rfl : '/' = c := by simpa using hc
        exact .inr ⟨rfl, apart rfl rfl attr hattr⟩
  · rw [List.dropWhile_append_of_pos isBlank_gap]
    cases slash with
    | none => simp
    | some blanks => simp [List.dropWhile_cons_of_neg (show ¬ Text.isBlank '/' = true by decide)]

theorem isAttrNameChar_tail (list : AttrList) :
    ∀ c ∈ list.tail, isAttrNameChar c = false := by
  intro c hc
  rcases List.mem_append.mp hc with hgap | hslash
  · exact isAttrNameChar_of_isBlank (list.isBlank_gap c hgap)
  · cases hsome : list.slash with
    | none => simp [hsome] at hslash
    | some blanks =>
      rw [hsome] at hslash
      rcases List.mem_cons.mp hslash with rfl | hblank
      · decide
      · exact isAttrNameChar_of_isBlank (list.isBlank_slash blanks hsome c hblank)

theorem attrItems_text (list : AttrList) :
    attrItems list.text
      = list.attributes.flatMap Attribute.items ++ list.tail.map .other := by
  have htail := attrItems_others list.isAttrNameChar_tail []
  rw [List.append_nil, attrItems, List.append_nil] at htail
  rw [text, attrItems_row list.attributes list.mayPrecede_tail, htail]

/-- The attributes end in a character that is no blank and no slash. -/
theorem row_end (attributes : List Attribute) :
    attributes.flatMap Attribute.text = [] ∨
      ∃ front c, attributes.flatMap Attribute.text = front ++ [c] ∧ Text.isBlank c = false
        ∧ c ≠ '/' := by
  rcases List.eq_nil_or_concat attributes with rfl | ⟨front, last, rfl⟩
  · exact .inl rfl
  · obtain ⟨lead, c, htext, hc⟩ := last.text_end
    exact .inr ⟨front.flatMap Attribute.text ++ lead, c, by simp [htext], hc⟩

theorem trimEnd_row (attributes : List Attribute) :
    Text.trimEnd (attributes.flatMap Attribute.text) = attributes.flatMap Attribute.text := by
  rcases row_end attributes with hnil | ⟨front, c, htext, hblank, -⟩
  · rw [hnil]
    rfl
  · rw [htext, Text.trimEnd_concat _ hblank]

/-- A slash is the last thing of the list, blanks aside, only when the tag closes itself. -/
theorem trimEnd_text (list : AttrList) :
    Text.trimEnd list.text
      = list.attributes.flatMap Attribute.text
        ++ if list.slash.isSome then list.gap ++ ['/'] else [] := by
  rw [text, tail]
  cases hslash : list.slash with
  | none =>
    rw [Option.map_none, Option.getD_none, List.append_nil,
      Text.trimEnd_append_blanks _ list.isBlank_gap, trimEnd_row, if_neg (by simp),
      List.append_nil]
  | some blanks =>
    rw [Option.map_some, Option.getD_some, ← List.append_assoc, ← List.singleton_append,
      ← List.append_assoc, Text.trimEnd_append_blanks _ (list.isBlank_slash blanks hslash),
      Text.trimEnd_concat _ (by decide), if_pos Option.isSome_some, List.append_assoc]

theorem appendAttribute_text (cls : List Char) (list : AttrList) :
    appendAttribute cls list.text
      = list.attributes.flatMap Attribute.text ++ classAttribute cls ++ list.tail := by
  rw [appendAttribute]
  simp only [list.trimEnd_text]
  cases hslash : list.slash with
  | none =>
    have hlast : (list.attributes.flatMap Attribute.text).getLast? ≠ some '/' := by
      rcases row_end list.attributes with hnil | ⟨front, c, htext, -, hc⟩
      · simp [hnil]
      · simpa [htext] using hc
    simp [hlast, text, tail, hslash]
  | some blanks =>
    have hbody : Text.trimEnd (list.attributes.flatMap Attribute.text ++ list.gap)
        = list.attributes.flatMap Attribute.text := by
      rw [Text.trimEnd_append_blanks _ list.isBlank_gap, trimEnd_row]
    have htext : list.text
        = list.attributes.flatMap Attribute.text ++ list.gap ++ ['/'] ++ blanks := by
      simp [text, tail, hslash]
    rw [if_pos Option.isSome_some, htext, ← List.append_assoc, List.drop_left,
      if_pos List.getLast?_concat, List.dropLast_concat, hbody, List.drop_left, tail, hslash]
    simp

/-- Adding a class to a list of attributes. -/
theorem addClassToAttrs_text (cls : List Char) (list : AttrList) :
    addClassToAttrs cls list.text = list.textWith cls := by
  have hvalue := addToValue?_row cls list.tail list.unique list.valued
  rw [← list.attrItems_text] at hvalue
  rw [addClassToAttrs, textWith]
  by_cases hany : list.attributes.any Attribute.isClass = true
  · rw [if_pos hany] at hvalue ⊢
    obtain ⟨items, hitems, htext⟩ := Option.map_eq_some_iff.mp hvalue
    rw [hitems, ← htext]
  · rw [if_neg hany] at hvalue ⊢
    rw [Option.map_eq_none_iff.mp hvalue]
    exact list.appendAttribute_text cls

end AttrList

end SiteTree.Markup
