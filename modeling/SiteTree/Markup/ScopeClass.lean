import SiteTree.Markup.Tag
import SiteTree.Markup.Attribute

/-!
# Giving every element a class

The first attribute named `class` of a tag decides: when it has a value, the class is added
to that value unless it is there already; when there is no such attribute, or it has no
value, a new attribute goes to the end of the tag, before the slash of a tag that closes
itself.
-/

namespace SiteTree.Markup

/-- The value with one more class. Quotes are supplied where there were none. -/
def AttrValue.addClass (cls : List Char) (value : AttrValue) : AttrValue :=
  if (Text.words value.text).contains cls then value
  else
    let gap := if Text.allBlank value.text then [] else [' ']
    { value with
      quote := value.quote.or (some '"')
      text := value.text ++ gap ++ cls }

/-- Adds the class to the value of the first attribute named `class`; `none` when there is
no such attribute or it has no value. -/
def addToValue? (cls : List Char) : List AttrItem → Option (List AttrItem)
  | [] => none
  | .attr name value :: rest =>
    if Text.eqIgnoringCase name "class".toList then
      value.map fun value => .attr name (some (value.addClass cls)) :: rest
    else (addToValue? cls rest).map (.attr name value :: ·)
  | .other c :: rest => (addToValue? cls rest).map (.other c :: ·)

/-- The text of a new attribute that holds the class alone. -/
def classAttribute (cls : List Char) : List Char :=
  " class=\"".toList ++ cls ++ ['"']

/-- The attributes with a new class attribute at their end: before the trailing blanks, and
before the slash of a tag that closes itself together with the blanks in front of it. -/
def appendAttribute (cls attrs : List Char) : List Char :=
  let trimmed := Text.trimEnd attrs
  let tail := attrs.drop trimmed.length
  if trimmed.getLast? = some '/' then
    let body := trimmed.dropLast
    let head := Text.trimEnd body
    head ++ classAttribute cls ++ body.drop head.length ++ '/' :: tail
  else trimmed ++ classAttribute cls ++ tail

/-- The attributes of a tag with the class added. -/
def addClassToAttrs (cls attrs : List Char) : List Char :=
  match addToValue? cls (attrItems attrs) with
  | some items => items.flatMap AttrItem.join
  | none => appendAttribute cls attrs

def OpenTag.addClass (cls : List Char) (tag : OpenTag) : OpenTag :=
  { tag with attrs := addClassToAttrs cls tag.attrs }

/-- A piece with the class added to its tag, if it is one. -/
def Piece.addClass (cls : List Char) : Piece → Piece
  | .opening tag => .opening (tag.addClass cls)
  | piece => piece

/-- The document with the class on every opening tag. -/
def injectText (cls html : List Char) : List Char :=
  (pieces html).flatMap fun piece => (piece.addClass cls).join

/-- The document `html` with the class `cls` on every opening tag. -/
def injectClass (html cls : String) : String :=
  String.ofList (injectText cls.toList html.toList)

end SiteTree.Markup
