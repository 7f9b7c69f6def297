import SiteTree.Proofs.Markup.Attribute

/-!
# The grammar of documents

A document is text, in which no `<` is followed by a letter, with elements between: opening
tags, and tags that raw text and a closing tag follow.

* `Document.injectClass_text` — every tag of a document is given the class, and the rest is
  copied.
-/

namespace SiteTree.Markup

/-! ### Tags -/

/-- An opening tag as it is written. -/
structure Tag where
  initial : Char
  letters : List Char
  attrs : AttrList
  isAlpha_initial : initial.isAlpha = true
  chars : ∀ c ∈ letters, isNameChar c = true

namespace Tag

def name (tag : Tag) : List Char :=
  tag.initial :: tag.letters

def text (tag : Tag) : List Char :=
  '<' :: (tag.name ++ tag.attrs.text ++ ['>'])

/-- The tag with a class added. -/
def textWith (cls : List Char) (tag : Tag) : List Char :=
  '<' :: (tag.name ++ tag.attrs.textWith cls ++ ['>'])

/-- Does raw text follow the tag, unless it closes itself? -/
def isRaw (tag : Tag) : Bool :=
  rawElements.contains (tag.name.map Char.toLower)

def closesItself (tag : Tag) : Bool :=
  tag.attrs.slash.isSome

end Tag

/-! #### The inside of a tag -/

/-- Text that is passed over on the way to the `>` of a tag. -/
def Passed (text : List Char) : Prop :=
  ∀ rest, tagBody? none (text ++ rest)
    = (tagBody? none rest).map fun (body, after) => (text ++ body, after)

namespace Passed

theorem nil : Passed [] := by
  intro rest
  simp

theorem append {first second : List Char} (hfirst : Passed first) (hsecond : Passed second) :
    Passed (first ++ second) := by
  intro rest
  rw [List.append_assoc, hfirst, hsecond, Option.map_map]
  simp [Function.comp_def]

theorem flatMap {α : Type} {items : List α} {text : α → List Char}
    (h : ∀ item ∈ items, Passed (text item)) : Passed (items.flatMap text) := by
  induction items with
  | nil => exact nil
  | cons item items ih =>
    rw [List.flatMap_cons]
    exact (h item List.mem_cons_self).append (ih fun i hi => h i (List.mem_cons_of_mem _ hi))

theorem singleton {c : Char} (h : c ∉ ['>', '"', '\'']) : Passed [c] := by
  intro rest
  simp only [List.mem_cons, List.not_mem_nil, or_false, not_or] at h
  rw [List.singleton_append, tagBody?, if_neg h.1, if_neg (by simp [h])]
  rfl

theorem of_chars {text : List Char} (h : ∀ c ∈ text, c ∉ ['>', '"', '\'']) : Passed text := by
  induction text with
  | nil => exact nil
  | cons c text ih =>
    exact (singleton (h c List.mem_cons_self)).append
      (ih fun d hd => h d (List.mem_cons_of_mem _ hd))

end Passed

theorem tagBody?_quoted {quote : Char} {text : List Char} (h : quote ∉ text) (rest : List Char) :
    tagBody? (some quote) (text ++ quote :: rest)
      = (tagBody? none rest).map fun (body, after) => (text ++ quote :: body, after) := by
  induction text with
  | nil =>
    rw [List.nil_append, tagBody?, if_pos rfl]
    rfl
  | cons c text ih =>
    simp only [List.mem_cons, not_or] at h
    rw [List.cons_append, tagBody?, if_neg (Ne.symm h.1), ih h.2, Option.map_map]
    rfl

theorem Value.passed_text (value : Value) : Passed value.text := by
  cases value with
  | quoted quote text isQuote fits =>
    intro rest
    have hopen : quote ≠ '>' := by rcases isQuote with rfl | rfl <;> decide
    have hequals := Passed.singleton (c := '=') (by decide)
    have hquoted : tagBody? none (quote :: (text ++ quote :: rest))
        = (tagBody? none rest).map fun (body, after) =>
            (quote :: (text ++ quote :: body), after) := by
      rw [tagBody?, if_neg hopen, if_pos isQuote, tagBody?_quoted fits, Option.map_map]
      rfl
    have := hequals (quote :: (text ++ quote :: rest))
    rw [hquoted, Option.map_map] at this
    simpa [Value.text, Function.comp_def] using this
  | bare text text_ne_nil chars getLast_ne =>
    refine Passed.of_chars fun c hc => ?_
    rcases List.mem_cons.mp hc with rfl | hc
    · decide
    · have hne := (notMem_of_isBareChar (chars c hc)).2
      simp only [List.mem_cons, not_or] at hne
      simp [hne]

theorem notMem_of_isBlank {c : Char} (h : Text.isBlank c = true) : c ∉ ['>', '"', '\''] := by
  intro hmem
  simp only [List.mem_cons, List.not_mem_nil, or_false] at hmem
  rcases hmem with rfl | rfl | rfl <;> exact absurd h (by decide)

theorem Attribute.passed_text (attr : Attribute) : Passed attr.text := by
  refine Passed.append (Passed.append ?_ ?_) ?_
  · exact Passed.of_chars fun c hc => notMem_of_isBlank (attr.isBlank_gap c hc)
  · refine Passed.of_chars fun c hc => ?_
    have hne := (notMem_of_isAttrNameChar (attr.chars c hc)).2
    simp only [List.mem_cons, not_or] at hne
    simp [hne]
  · cases attr.value with
    | none => exact Passed.nil
    | some value => exact value.passed_text

theorem AttrList.passed_text (list : AttrList) : Passed list.text := by
  refine (Passed.flatMap fun attr _ => attr.passed_text).append (Passed.of_chars fun c hc => ?_)
  rcases List.mem_append.mp hc with hgap | hslash
  · exact notMem_of_isBlank (list.isBlank_gap c hgap)
  · cases hsome : list.slash with
    | none => simp [hsome] at hslash
    | some blanks =>
      rw [hsome] at hslash
      rcases List.mem_cons.mp hslash with rfl | hblank
      · decide
      · exact notMem_of_isBlank (list.isBlank_slash blanks hsome c hblank)

/-! #### Reading a tag -/

theorem isNameChar_of_isBlank {c : Char} (h : Text.isBlank c = true) : isNameChar c = false := by
  rw [Bool.eq_false_iff]
  intro hname
  change (((decide (c.val ≥ 'A'.val ∧ c.val ≤ 'Z'.val) ||
    (c.val ≥ 'a'.val && c.val ≤ 'z'.val)) ||
    (c.val ≥ '0'.val && c.val ≤ '9'.val)) || c == ':' || c == '_' || c == '-') = true at hname
  simp only [Bool.or_eq_true, Bool.and_eq_true, decide_eq_true_eq, beq_iff_eq,
    UInt32.le_iff_toNat_le, ge_iff_le] at hname
  simp only [Text.isBlank, Text.blankRanges, List.any_cons, List.any_nil, Bool.or_eq_true,
    Bool.and_eq_true, decide_eq_true_eq, Bool.or_false] at h
  change (((((65 ≤ c.toNat ∧ c.toNat ≤ 90) ∨ (97 ≤ c.toNat ∧ c.toNat ≤ 122)) ∨
    (48 ≤ c.toNat ∧ c.toNat ≤ 57)) ∨ c = ':') ∨ c = '_') ∨ c = '-' at hname
  rcases hname with ((((hname | hname) | hname) | rfl) | rfl) | rfl
  · omega
  · omega
  · omega
  all_goals exact absurd h (by decide)

theorem notMem_of_isNameChar {c : Char} (h : isNameChar c = true) : c ∉ ['>', '"', '\''] := by
  simp only [List.mem_cons, List.not_mem_nil, or_false, not_or]
  refine ⟨?_, ?_, ?_⟩
  · rintro rfl
    exact absurd h (by decide)
  · rintro rfl
    exact absurd h (by decide)
  · rintro rfl
    exact absurd h (by decide)

theorem AttrList.head_text (list : AttrList) :
    ∀ c ∈ list.text.head?, Text.isBlank c = true ∨ c = '/' := by
  intro c hc
  cases hattrs : list.attributes with
  | nil =>
    cases hgap : list.gap with
    | nil =>
      cases hslash : list.slash with
      | none => simp [AttrList.text, AttrList.tail, hattrs, hgap, hslash] at hc
      | some blanks =>
        simp [AttrList.text, AttrList.tail, hattrs, hgap, hslash] at hc
        exact .inr hc.symm
    | cons blank gap =>
      obtain rfl : blank = c := by
        simpa [AttrList.text, AttrList.tail, hattrs, hgap] using hc
      exact .inl (list.isBlank_gap blank (by simp [hgap]))
  | cons attr attributes =>
    obtain ⟨blank, gap, hgap⟩ := List.exists_cons_of_ne_nil attr.gap_ne_nil
    obtain rfl : blank = c := by
      simpa [AttrList.text, Attribute.text, hattrs, hgap] using hc
    exact .inl (attr.isBlank_gap blank (by simp [hgap]))

namespace Tag

/-- The tag as the reader of tags answers it. -/
def openTag (tag : Tag) : OpenTag :=
  ⟨tag.name, tag.attrs.text⟩

theorem openTag?_text (tag : Tag) (rest : List Char) :
    openTag? (tag.text ++ rest) = some (tag.openTag, rest) := by
  have hhead : ∀ c ∈ (tag.attrs.text ++ '>' :: rest).head?, isNameChar c = false := by
    intro c hc
    have hattrs := tag.attrs.head_text
    cases h : tag.attrs.text with
    | nil =>
      obtain rfl : '>' = c := by simpa [h] using hc
      decide
    | cons d text =>
      obtain rfl : d = c := by simpa [h] using hc
      rcases hattrs d (by simp [h]) with hblank | rfl
      · exact isNameChar_of_isBlank hblank
      · decide
  have hrun := takeWhile_append_of_head? tag.chars hhead
  have hbody : tagBody? none (tag.attrs.text ++ '>' :: rest) = some (tag.attrs.text, rest) := by
    rw [tag.attrs.passed_text, tagBody?, if_pos rfl]
    simp
  simp only [Tag.text, Tag.name, List.cons_append, List.append_assoc, List.nil_append]
  rw [openTag?, if_pos tag.isAlpha_initial, hrun.1, hrun.2, hbody]
  rfl

theorem isSelfClosing_openTag (tag : Tag) : tag.openTag.isSelfClosing = tag.closesItself := by
  rw [OpenTag.isSelfClosing, openTag, tag.attrs.trimEnd_text, closesItself]
  cases hslash : tag.attrs.slash with
  | none =>
    rcases AttrList.row_end tag.attrs.attributes with hnil | ⟨front, c, htext, -, hc⟩
    · simp [hnil]
    · simp [htext, hc]
  | some blanks => simp [← List.append_assoc]

theorem join_addClass (cls : List Char) (tag : Tag) :
    (tag.openTag.addClass cls).join = tag.textWith cls := by
  rw [OpenTag.addClass, OpenTag.join, openTag, tag.attrs.addClassToAttrs_text, textWith]

end Tag

/-! ### Documents -/

/-- Text in which no opening tag begins. -/
structure PlainText where
  text : List Char
  plain : ∀ c, ['<', c] <:+: text → c.isAlpha = false

inductive Element where
  | tag (tag : Tag) (complete : tag.isRaw = true → tag.closesItself = true)
  /-- a tag, raw text and a closing tag of the same name, the case of letters aside -/
  | raw (tag : Tag) (content closing blanks : List Char) (isRaw : tag.isRaw = true)
      (unclosed : tag.closesItself = false)
      (fits : ¬ ('<' :: '/' :: tag.name).map Char.toLower <:+: content.map Char.toLower)
      (closes : closing.map Char.toLower = tag.name.map Char.toLower)
      (isBlank_blanks : ∀ c ∈ blanks, Text.isBlank c = true)

namespace Element

def text : Element → List Char
  | tag opening _ => opening.text
  | raw opening content closing blanks _ _ _ _ _ =>
    opening.text ++ content ++ '<' :: '/' :: (closing ++ blanks ++ ['>'])

/-- The element with a class added to its tag. -/
def textWith (cls : List Char) : Element → List Char
  | tag opening _ => opening.textWith cls
  | raw opening content closing blanks _ _ _ _ _ =>
    opening.textWith cls ++ content ++ '<' :: '/' :: (closing ++ blanks ++ ['>'])

end Element

/-- Text, and elements with text behind each of them. -/
structure Document where
  lead : PlainText
  items : List (Element × PlainText)

namespace Document

def text (document : Document) : List Char :=
  document.lead.text
    ++ document.items.flatMap fun (element, behind) => element.text ++ behind.text

/-- The document with a class added to each of its elements. -/
def textWith (cls : List Char) (document : Document) : List Char :=
  document.lead.text
    ++ document.items.flatMap fun (element, behind) => element.textWith cls ++ behind.text

end Document

/-! ### Raw text -/

theorem startsIgnoringCase_iff {start text : List Char} :
    startsIgnoringCase start text = true
      ↔ start.map Char.toLower <+: text.map Char.toLower := by
  rw [startsIgnoringCase, Text.eqIgnoringCase, beq_iff_eq, List.prefix_iff_eq_take,
    List.length_map, List.map_take]

/-- A text that begins in front of a character it does not have ends in front of it. -/
theorem prefix_of_prefix_append {mark : Char} {start content rest : List Char}
    (hstart : mark ∉ start) (h : start <+: content ++ mark :: rest) : start <+: content := by
  induction content generalizing start with
  | nil =>
    cases start with
    | nil => exact List.nil_prefix
    | cons c start =>
      obtain ⟨rfl, -⟩ := List.cons_prefix_cons.mp h
      exact absurd List.mem_cons_self hstart
  | cons d content ih =>
    cases start with
    | nil => exact List.nil_prefix
    | cons c start =>
      obtain ⟨rfl, htail⟩ := List.cons_prefix_cons.mp h
      exact List.cons_prefix_cons.mpr
        ⟨rfl, ih (fun hmem => hstart (List.mem_cons_of_mem _ hmem)) htail⟩

theorem isAlpha_toLower_of_isUpper {c : Char} (h : 'A'.val ≤ c.val ∧ c.val ≤ 'Z'.val) :
    c.toLower.isAlpha = true := by
  obtain ⟨hfirst, hlast⟩ := h
  rw [UInt32.le_iff_toNat_le] at hfirst hlast
  change 65 ≤ c.val.toNat at hfirst
  change c.val.toNat ≤ 90 at hlast
  have hval : c.toLower.val.toNat = c.val.toNat + 32 := by
    unfold Char.toLower
    rw [dif_pos ⟨UInt32.le_iff_toNat_le.mpr hfirst, UInt32.le_iff_toNat_le.mpr hlast⟩]
    change (c.val + 32).toNat = _
    rw [UInt32.toNat_add, Nat.mod_eq_of_lt]
    · rfl
    · change c.val.toNat + 32 < 2 ^ 32
      omega
  have hlower : 97 ≤ c.toLower.val.toNat ∧ c.toLower.val.toNat ≤ 122 := by omega
  change (_ || decide ('a'.val ≤ c.toLower.val) && decide (c.toLower.val ≤ 'z'.val)) = true
  rw [Bool.or_eq_true, Bool.and_eq_true, decide_eq_true_eq, decide_eq_true_eq,
    UInt32.le_iff_toNat_le, UInt32.le_iff_toNat_le]
  exact .inr hlower

theorem toLower_eq_iff {c d : Char} (h : d.isAlpha = false) : c.toLower = d ↔ c = d := by
  by_cases hupper : 'A'.val ≤ c.val ∧ c.val ≤ 'Z'.val
  · constructor
    · rintro rfl
      exact absurd (isAlpha_toLower_of_isUpper hupper) (by simp [h])
    · rintro rfl
      have hc : c.isAlpha = true := by
        change (decide ('A'.val ≤ c.val ∧ c.val ≤ 'Z'.val) || _) = true
        rw [Bool.or_eq_true, decide_eq_true_eq]
        exact .inl hupper
      exact absurd hc (by simp [h])
  · unfold Char.toLower
    rw [dif_neg hupper]

theorem toLower_ne_of_isNameChar {c : Char} (h : isNameChar c = true) : c.toLower ≠ '<' := by
  rw [Ne, toLower_eq_iff (by decide)]
  rintro rfl
  exact absurd h (by decide)

/-- Raw text ends where its closing tag begins. -/
theorem splitRaw_text {name content closing : List Char} (rest : List Char)
    (hname : ∀ c ∈ name, isNameChar c = true)
    (hfits : ¬ ('<' :: '/' :: name).map Char.toLower <:+: content.map Char.toLower)
    (hcloses : closing.map Char.toLower = name.map Char.toLower) :
    splitRaw name (content ++ '<' :: '/' :: (closing ++ rest))
      = (content, '<' :: '/' :: (closing ++ rest)) := by
  have hnot : '<' ∉ ('/' :: name).map Char.toLower := by
    intro hmem
    rcases List.mem_cons.mp hmem with hslash | hmem
    · exact absurd hslash (by decide)
    · obtain ⟨c, hc, heq⟩ := List.mem_map.mp hmem
      exact toLower_ne_of_isNameChar (hname c hc) heq
  induction content with
  | nil =>
    have hstarts : startsIgnoringCase ('<' :: '/' :: name) ('<' :: '/' :: (closing ++ rest))
        = true := by
      rw [startsIgnoringCase_iff]
      simp [hcloses]
    rw [List.nil_append, splitRaw, if_pos hstarts]
  | cons c content ih =>
    have ih := ih fun h => hfits (List.infix_cons h)
    rw [List.cons_append, splitRaw, ih, if_neg]
    rw [startsIgnoringCase_iff]
    intro hstarts
    refine hfits (List.IsPrefix.isInfix ?_)
    simp only [List.map_cons, List.map_append] at hstarts
    obtain ⟨hc, htail⟩ := List.cons_prefix_cons.mp hstarts
    exact List.cons_prefix_cons.mpr ⟨hc, prefix_of_prefix_append hnot htail⟩

/-! ### Giving every element a class -/

section Inject

variable (cls : List Char)

theorem injectText_char {c : Char} {rest : List Char} (h : openTag? (c :: rest) = none) :
    injectText cls (c :: rest) = c :: injectText cls rest := by
  rw [injectText, pieces]
  split
  · rfl
  · next heq =>
    rw [h] at heq
    simp at heq

theorem injectText_openTag {text after : List Char} {tag : OpenTag}
    (h : openTag? text = some (tag, after)) :
    injectText cls text = (tag.addClass cls).join
      ++ if tag.opensRaw then
          (splitRaw tag.name after).1 ++ injectText cls (splitRaw tag.name after).2
        else injectText cls after := by
  cases text with
  | nil => simp [openTag?] at h
  | cons c rest =>
    rw [injectText, pieces]
    split
    · next heq =>
      rw [h] at heq
      simp at heq
    · next tag' after' heq =>
      rw [h, Option.some.injEq, Prod.mk.injEq] at heq
      obtain ⟨rfl, rfl⟩ := heq
      split <;> simp [injectText, Piece.addClass, Piece.join]

/-- Text in which no tag begins is copied. -/
theorem injectText_plain {text rest : List Char}
    (hplain : ∀ c, ['<', c] <:+: text ++ rest.take 1 → c.isAlpha = false) :
    injectText cls (text ++ rest) = text ++ injectText cls rest := by
  induction text with
  | nil => rfl
  | cons c text ih =>
    rw [List.cons_append, injectText_char, ih fun d hd => hplain d (List.infix_cons hd),
      List.cons_append]
    -- What follows `<` is a letter neither in the text nor at its end.
    rw [openTag?.eq_def]
    split
    · next d after heq =>
      obtain ⟨rfl, hafter⟩ := List.cons.inj heq
      have hinfix : ['<', d] <:+: '<' :: (text ++ rest.take 1) := by
        cases text with
        | nil =>
          rw [List.nil_append] at hafter
          rw [hafter]
          exact ⟨[], [], rfl⟩
        | cons e text =>
          obtain ⟨rfl, -⟩ := List.cons.inj hafter
          exact ⟨[], text ++ rest.take 1, rfl⟩
      rw [if_neg (by simp [hplain d hinfix])]
    · rfl

theorem injectText_notMem {text : List Char} (h : '<' ∉ text) (rest : List Char) :
    injectText cls (text ++ rest) = text ++ injectText cls rest := by
  induction text with
  | nil => rfl
  | cons c text ih =>
    simp only [List.mem_cons, not_or] at h
    rw [List.cons_append, injectText_char, ih h.2, List.cons_append]
    rw [openTag?.eq_def]
    split
    · next heq => exact absurd (List.cons.inj heq).1.symm h.1
    · rfl

end Inject

theorem PlainText.injectText_text (cls : List Char) (plainText : PlainText) {rest : List Char}
    (hrest : ∀ c ∈ rest.head?, c = '<') :
    injectText cls (plainText.text ++ rest) = plainText.text ++ injectText cls rest := by
  refine injectText_plain cls ?_
  intro c hinfix
  cases rest with
  | nil => exact plainText.plain c (by simpa using hinfix)
  | cons d rest =>
    obtain rfl : d = '<' := hrest d rfl
    rcases List.infix_concat_iff.mp hinfix with hsuffix | hinfix
    · obtain rfl : c = '<' := by
        have := hsuffix.getLast (by simp)
        simpa using this
      decide
    · exact plainText.plain c hinfix

namespace Element

theorem head_text (element : Element) : ∃ rest, element.text = '<' :: rest := by
  cases element with
  | tag opening complete => exact ⟨_, rfl⟩
  | raw opening => exact ⟨_, rfl⟩

theorem isNameChar_name (opening : Tag) : ∀ c ∈ opening.name, isNameChar c = true := by
  intro c hc
  rcases List.mem_cons.mp hc with rfl | hc
  · simp [isNameChar, Char.isAlphanum, opening.isAlpha_initial]
  · exact opening.chars c hc

/-- An element is given the class, and what follows it is a document of its own. -/
theorem injectText_text (cls : List Char) (element : Element) (rest : List Char) :
    injectText cls (element.text ++ rest) = element.textWith cls ++ injectText cls rest := by
  cases element with
  | tag opening complete =>
    have hraw : opening.openTag.opensRaw = false := by
      rw [OpenTag.opensRaw, opening.isSelfClosing_openTag]
      change (opening.isRaw && _) = false
      cases h : opening.isRaw with
      | false => rfl
      | true => simp [complete h]
    rw [text, injectText_openTag cls (opening.openTag?_text rest), hraw, if_neg (by simp),
      opening.join_addClass, textWith]
  | raw opening content closing blanks isRaw unclosed fits closes isBlank_blanks =>
    have hraw : opening.openTag.opensRaw = true := by
      rw [OpenTag.opensRaw, opening.isSelfClosing_openTag, unclosed]
      change (opening.isRaw && _) = true
      rw [isRaw]
      rfl
    have hclosing : '<' ∉ closing := by
      intro hmem
      have : ('<' : Char).toLower ∈ opening.name.map Char.toLower :=
        closes ▸ List.mem_map_of_mem hmem
      obtain ⟨c, hc, heq⟩ := List.mem_map.mp this
      exact toLower_ne_of_isNameChar (isNameChar_name opening c hc) heq
    have hcopied : '<' ∉ '/' :: (closing ++ blanks ++ ['>']) := by
      have hblanks : '<' ∉ blanks := fun hmem => absurd (isBlank_blanks '<' hmem) (by decide)
      simp [hclosing, hblanks]
    have hclose : openTag? ('<' :: ('/' :: (closing ++ blanks ++ ['>']) ++ rest)) = none := by
      rw [List.cons_append, openTag?, if_neg (by decide)]
    have htext : (raw opening content closing blanks isRaw unclosed fits closes
        isBlank_blanks).text ++ rest = opening.text
          ++ (content ++ '<' :: '/' :: (closing ++ (blanks ++ ['>'] ++ rest))) := by
      simp [text]
    have hcopy := injectText_notMem cls hcopied rest
    rw [htext, injectText_openTag cls (opening.openTag?_text _), hraw, if_pos rfl,
      opening.join_addClass, textWith]
    change _ ++ ((splitRaw opening.name _).1 ++ injectText cls (splitRaw opening.name _).2) = _
    rw [splitRaw_text _ (isNameChar_name opening) fits closes]
    have hassoc : '<' :: '/' :: (closing ++ (blanks ++ ['>'] ++ rest))
        = '<' :: ('/' :: (closing ++ blanks ++ ['>']) ++ rest) := by
      simp
    rw [hassoc, injectText_char cls hclose, hcopy]
    simp

end Element

namespace Document

theorem head_items (items : List (Element × PlainText)) :
    ∀ c ∈ (items.flatMap fun (element, behind) => element.text ++ behind.text).head?, c = '<' := by
  intro c hc
  cases items with
  | nil => simp at hc
  | cons item items =>
    obtain ⟨rest, hrest⟩ := item.1.head_text
    simpa [hrest, eq_comm] using hc

theorem injectText_text (cls : List Char) (document : Document) :
    injectText cls document.text = document.textWith cls := by
  obtain ⟨lead, items⟩ := document
  simp only [text, textWith]
  induction items generalizing lead with
  | nil =>
    rw [lead.injectText_text cls (head_items [])]
    simp [injectText, pieces]
  | cons item items ih =>
    rw [lead.injectText_text cls (head_items _), List.flatMap_cons, List.append_assoc,
      item.1.injectText_text, ih, List.flatMap_cons, List.append_assoc]

/-- Giving a document a class adds it to every element and changes nothing else. -/
theorem injectClass_text (document : Document) (cls : String) :
    injectClass (String.ofList document.text) cls
      = String.ofList (document.textWith cls.toList) := by
  rw [injectClass, String.toList_ofList, injectText_text]

end Document

end SiteTree.Markup
