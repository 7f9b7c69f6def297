import SiteTree.Text.Blank

/-!
# Opening tags

An opening tag is `<`, a name that begins with an ASCII letter, any text in which quotes are
paired, and the first `>` outside quotes. Closing tags, comments and doctypes are no opening
tags. What stands between a `script` or `style` tag and its closing tag is raw text, in which
no tags are recognised.

* `join_of_openTag?` — a tag that is read is the beginning of the text, unchanged.
* `flatMap_pieces` — the pieces of a document, put together again, are the document.
-/

namespace SiteTree.Markup

/-! ### The inside of a tag -/

/-- The text up to the first `>` outside quotes and the text behind that `>`; `none` when
there is no such `>`. The first argument is the quote that is open, if any. -/
def tagBody? : Option Char → List Char → Option (List Char × List Char)
  | _, [] => none
  | some quote, c :: rest =>
    (tagBody? (if c = quote then none else some quote) rest).map
      fun (body, after) => (c :: body, after)
  | none, c :: rest =>
    if c = '>' then some ([], rest)
    else
      (tagBody? (if c = '"' ∨ c = '\'' then some c else none) rest).map
        fun (body, after) => (c :: body, after)

theorem append_of_tagBody? {quote : Option Char} {text body after : List Char}
    (h : tagBody? quote text = some (body, after)) : body ++ '>' :: after = text := by
  fun_induction tagBody? quote text generalizing body with
  | case1 => simp at h
  | case2 quote c rest ih =>
    simp only [Option.map_eq_some_iff, Prod.mk.injEq, Prod.exists] at h
    obtain ⟨body', after', hbody, rfl, rfl⟩ := h
    simp [ih hbody]
  | case3 => simp_all
  | case4 c rest _ ih =>
    simp only [Option.map_eq_some_iff, Prod.mk.injEq, Prod.exists] at h
    obtain ⟨body', after', hbody, rfl, rfl⟩ := h
    simp [ih hbody]

/-! ### Tags -/

/-- The characters that may follow the first letter of a tag name. -/
def isNameChar (c : Char) : Bool :=
  c.isAlphanum || c == ':' || c == '_' || c == '-'

/-- An opening tag: its name and all that stands between the name and the final `>`. -/
structure OpenTag where
  name : List Char
  attrs : List Char
  deriving DecidableEq, Repr

def OpenTag.join (tag : OpenTag) : List Char :=
  '<' :: (tag.name ++ tag.attrs ++ ['>'])

/-- The opening tag that a text begins with, and the text behind it. -/
def openTag? : List Char → Option (OpenTag × List Char)
  | '<' :: c :: rest =>
    if c.isAlpha then
      (tagBody? none (rest.dropWhile isNameChar)).map
        fun (attrs, after) => (⟨c :: rest.takeWhile isNameChar, attrs⟩, after)
    else none
  | _ => none

theorem join_of_openTag? {text after : List Char} {tag : OpenTag}
    (h : openTag? text = some (tag, after)) : tag.join ++ after = text := by
  unfold openTag? at h
  split at h
  · next c rest =>
    split at h
    · simp only [Option.map_eq_some_iff, Prod.mk.injEq, Prod.exists] at h
      obtain ⟨attrs, after', hbody, rfl, rfl⟩ := h
      simp [OpenTag.join, append_of_tagBody? hbody]
    · simp at h
  · simp at h

/-- A tag that ends in a slash, blanks aside, closes itself. -/
def OpenTag.isSelfClosing (tag : OpenTag) : Bool :=
  (Text.trimEnd tag.attrs).getLast? == some '/'

/-- The elements whose contents are raw text. -/
def rawElements : List (List Char) :=
  ["script".toList, "style".toList]

/-- Does raw text follow the tag? -/
def OpenTag.opensRaw (tag : OpenTag) : Bool :=
  rawElements.contains (tag.name.map Char.toLower) && !tag.isSelfClosing

/-! ### Documents -/

/-- Does `text` begin with `start`, up to the case of ASCII letters? -/
def startsIgnoringCase (start text : List Char) : Bool :=
  Text.eqIgnoringCase start (text.take start.length)

/-- The raw text of the element `name`, which ends before its `</name` or at the end of the
document, and the text behind it. -/
def splitRaw (name : List Char) : List Char → List Char × List Char
  | [] => ([], [])
  | c :: rest =>
    if startsIgnoringCase ('<' :: '/' :: name) (c :: rest) then ([], c :: rest)
    else
      let (raw, after) := splitRaw name rest
      (c :: raw, after)

theorem append_splitRaw (name text : List Char) :
    (splitRaw name text).1 ++ (splitRaw name text).2 = text := by
  fun_induction splitRaw name text <;> simp_all

/-- A piece of a document. -/
inductive Piece where
  /-- a character outside opening tags and raw text -/
  | char (c : Char)
  | opening (tag : OpenTag)
  /-- the raw text behind a tag -/
  | raw (text : List Char)
  deriving DecidableEq, Repr

def Piece.join : Piece → List Char
  | .char c => [c]
  | .opening tag => tag.join
  | .raw text => text

theorem length_lt_of_openTag? {text after : List Char} {tag : OpenTag}
    (h : openTag? text = some (tag, after)) : after.length < text.length := by
  have := congrArg List.length (join_of_openTag? h)
  simp [OpenTag.join] at this
  omega

theorem length_splitRaw_le (name text : List Char) :
    (splitRaw name text).2.length ≤ text.length := by
  have := congrArg List.length (append_splitRaw name text)
  simp at this
  omega

/-- The pieces of a document, in order. -/
def pieces (html : List Char) : List Piece :=
  match html with
  | [] => []
  | c :: rest =>
    match h : openTag? (c :: rest) with
    | none => .char c :: pieces rest
    | some (tag, after) =>
      have : after.length < (c :: rest).length := length_lt_of_openTag? h
      if tag.opensRaw then
        have := length_splitRaw_le tag.name after
        .opening tag :: .raw (splitRaw tag.name after).1 :: pieces (splitRaw tag.name after).2
      else .opening tag :: pieces after
termination_by html.length
decreasing_by all_goals (simp only [List.length_cons] at *; omega)

theorem flatMap_pieces (html : List Char) : (pieces html).flatMap Piece.join = html := by
  fun_induction pieces html with
  | case1 => rfl
  | case2 c rest h ih => simp [Piece.join, ih]
  | case3 c rest tag after h _ _ _ ih =>
    simp only [List.flatMap_cons, ih, Piece.join, append_splitRaw]
    exact join_of_openTag? h
  | case4 c rest tag after h _ _ ih =>
    simp only [List.flatMap_cons, ih, Piece.join]
    exact join_of_openTag? h

end SiteTree.Markup
