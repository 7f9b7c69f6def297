import SiteTree.Text.Blank

/-!
# Code, comments and strings in a stylesheet

A stylesheet is read character by character. A comment runs from `/*` to the next `*/`; a
string runs from a quote to the same quote, and a backslash in it hides the character that
follows. Both may be left open, and then reach to the end of the text. Everything else is
code, and only code has braces, semicolons, commas and brackets that mean something.

* `map_fst_classify` — classifying the characters loses none of them.
-/

namespace SiteTree.Stylesheet

/-- Where a scan stands: in code, in a comment, or in a string opened by `quote`. -/
inductive Place where
  | code
  | comment
  | string (quote : Char)
  deriving DecidableEq, Repr

/-- The two quotes that open a string. -/
def isQuote (c : Char) : Bool :=
  c == '"' || c == '\''

/-- Each character of a text together with whether it is code, for a scan that stands at a
given place when the text begins. -/
def Place.classify : Place → List Char → List (Char × Bool)
  | _, [] => []
  | .code, '/' :: '*' :: rest => ('/', false) :: ('*', false) :: Place.comment.classify rest
  | .code, c :: rest =>
    if isQuote c then (c, false) :: (Place.string c).classify rest
    else (c, true) :: Place.code.classify rest
  | .comment, '*' :: '/' :: rest => ('*', false) :: ('/', false) :: Place.code.classify rest
  | .comment, c :: rest => (c, false) :: Place.comment.classify rest
  | .string quote, '\\' :: c :: rest =>
    ('\\', false) :: (c, false) :: (Place.string quote).classify rest
  | .string quote, c :: rest =>
    (c, false) :: (if c = quote then Place.code else Place.string quote).classify rest

theorem map_fst_classify (place : Place) (text : List Char) :
    (place.classify text).map Prod.fst = text := by
  fun_induction Place.classify place text <;> simp_all

/-- The characters of a text that begins in code, each with whether it is code. -/
def classify (text : List Char) : List (Char × Bool) :=
  Place.code.classify text

/-- The bracket depth after a character of code; a closing bracket too many is ignored. -/
def nest (depth : Nat) (c : Char) : Nat :=
  if c = '(' ∨ c = '[' then depth + 1
  else if c = ')' ∨ c = ']' then depth - 1
  else depth

/-! ### Blanks and comments at the ends of a text -/

/-- What is left of a text once its leading blanks and comments are dropped. The flag says
whether a comment is open; a comment that is never closed takes all the rest with it. -/
def dropLead : Bool → List Char → List Char
  | _, [] => []
  | true, '*' :: '/' :: rest => dropLead false rest
  | true, _ :: rest => dropLead true rest
  | false, '/' :: '*' :: rest => dropLead true rest
  | false, c :: rest => if Text.isBlank c then dropLead false rest else c :: rest

/-- The text without leading blanks and comments. -/
def trimStart (text : List Char) : List Char :=
  dropLead false text

/-- What is left of a reversed text once its leading blanks and comments are dropped. While
a comment is being skipped, `some kept` is the answer in case it turns out never to open. -/
def dropTrail : Option (List Char) → List Char → List Char
  | none, [] => []
  | some kept, [] => kept
  | some _, '*' :: '/' :: rest => dropTrail none rest
  | some kept, _ :: rest => dropTrail (some kept) rest
  | none, '/' :: '*' :: rest => dropTrail (some ('/' :: '*' :: rest)) rest
  | none, c :: rest => if Text.isBlank c then dropTrail none rest else c :: rest

/-- The text without trailing blanks and comments. A trailing `*/` closes a comment that
opened at the last `/*` before it; without one it is no comment and stays. -/
def trimEnd (text : List Char) : List Char :=
  (dropTrail none text.reverse).reverse

end SiteTree.Stylesheet
