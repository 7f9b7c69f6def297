import SiteTree.Stylesheet.Selector

/-!
# Scoping a stylesheet

A stylesheet is cut into segments at the braces and semicolons of its code. A segment that
ends in an opening brace is the head of a block. The selectors of a head are scoped when the
block is a style rule that stands at top level or directly in a group rule; every other
segment, and what follows the last one, is copied.

* `segments_join` — the segments and the tail, put together again, are the stylesheet.
-/

namespace SiteTree.Stylesheet

/-! ### Segments -/

/-- The characters of code that end a segment. -/
inductive Mark where
  | opening
  | closing
  | semicolon
  deriving DecidableEq, Repr

def Mark.ofChar? : Char → Option Mark
  | '{' => some .opening
  | '}' => some .closing
  | ';' => some .semicolon
  | _ => none

def Mark.char : Mark → Char
  | .opening => '{'
  | .closing => '}'
  | .semicolon => ';'

theorem Mark.char_of_ofChar? {c : Char} {mark : Mark} (h : Mark.ofChar? c = some mark) :
    mark.char = c := by
  unfold Mark.ofChar? at h
  split at h <;> simp_all [Mark.char] <;> subst h <;> rfl

/-- A stretch of a stylesheet and the mark that ends it. -/
structure Segment where
  text : List Char
  mark : Mark
  deriving DecidableEq, Repr

def Segment.join (segment : Segment) : List Char :=
  segment.text ++ [segment.mark.char]

/-- The segments of classified text, and the tail behind the last mark. -/
def splitSegments : List (Char × Bool) → List Segment × List Char
  | [] => ([], [])
  | (c, code) :: rest =>
    let (closed, tail) := splitSegments rest
    match if code then Mark.ofChar? c else none with
    | some mark => (⟨[], mark⟩ :: closed, tail)
    | none =>
      match closed with
      | [] => ([], c :: tail)
      | first :: more => (⟨c :: first.text, first.mark⟩ :: more, tail)

/-- The segments of a stylesheet, and the tail behind the last mark. -/
def segments (css : List Char) : List Segment × List Char :=
  splitSegments (classify css)

theorem splitSegments_join (text : List (Char × Bool)) :
    (splitSegments text).1.flatMap Segment.join ++ (splitSegments text).2
      = text.map Prod.fst := by
  induction text with
  | nil => rfl
  | cons head rest ih =>
    obtain ⟨c, code⟩ := head
    rw [List.map_cons, ← ih]
    simp only [splitSegments]
    split
    · next mark hmark =>
      cases code with
      | false => simp at hmark
      | true => simp [Segment.join, Mark.char_of_ofChar? hmark]
    · cases h : (splitSegments rest).1 with
      | nil => simp
      | cons first more => simp [Segment.join]

theorem segments_join (css : List Char) :
    (segments css).1.flatMap Segment.join ++ (segments css).2 = css := by
  rw [segments, splitSegments_join, classify, map_fst_classify]

/-! ### Blocks -/

/-- The kinds of block that a segment's head can open. -/
inductive Block where
  /-- a style rule -/
  | rule
  /-- an at-rule whose block holds style rules of the surrounding level -/
  | group
  /-- any other at-rule -/
  | other
  deriving DecidableEq, Repr

/-- The at-rules that only group style rules. -/
def groupRules : List (List Char) :=
  ["@media".toList, "@supports".toList, "@layer".toList, "@container".toList,
   "@document".toList]

/-- The kind of block that a head opens: an at-rule begins with `@` once blanks and comments
are dropped, and its name runs to the next blank or opening parenthesis. -/
def Block.ofHead (head : List Char) : Block :=
  let body := trimStart head
  if body.head? = some '@' then
    let name := body.takeWhile fun c => !Text.isBlank c && c != '('
    if groupRules.contains (name.map Char.toLower) then .group else .other
  else .rule

/-- Are style rules scoped inside these open blocks, innermost first? -/
def scopesInside : List Block → Bool
  | [] => true
  | block :: _ => block == .group

/-! ### The whole stylesheet -/

/-- The segments of a stylesheet written out with every selector that is to be scoped
requiring `marker`, from a place where the given blocks are open. -/
def scopeSegments (marker : List Char) : List Block → List Segment → List Char
  | _, [] => []
  | blocks, ⟨text, .opening⟩ :: rest =>
    let block := Block.ofHead text
    let head := if block = .rule ∧ scopesInside blocks then scopeList marker text else text
    head ++ '{' :: scopeSegments marker (block :: blocks) rest
  | blocks, ⟨text, .closing⟩ :: rest => text ++ '}' :: scopeSegments marker blocks.tail rest
  | blocks, ⟨text, .semicolon⟩ :: rest => text ++ ';' :: scopeSegments marker blocks rest

/-- The stylesheet with `marker` required of every selector of a style rule that stands at
top level or directly in group rules. -/
def scopeText (marker css : List Char) : List Char :=
  let (closed, tail) := segments css
  scopeSegments marker [] closed ++ tail

/-- The stylesheet `css` with the class `cls` required of its selectors. -/
def scope (css cls : String) : String :=
  String.ofList (scopeText ('.' :: cls.toList) css.toList)

end SiteTree.Stylesheet
