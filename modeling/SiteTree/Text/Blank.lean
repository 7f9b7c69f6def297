/-!
# Blank characters

Which characters count as white space, and the ways of trimming and splitting a text at
them. Markup, stylesheets and bundles all use this one notion.

* `isBlank_of_isWhitespace` — every character that core calls white space is blank.
* `trimStart_eq_nil_iff` — nothing is left of a text exactly when all of it is blank.
-/

namespace SiteTree.Text

/-- The ranges of code points with the Unicode property `White_Space`, ends included. -/
def blankRanges : List (Nat × Nat) :=
  [(0x9, 0xD), (0x20, 0x20), (0x85, 0x85), (0xA0, 0xA0), (0x1680, 0x1680), (0x2000, 0x200A),
   (0x2028, 0x2029), (0x202F, 0x202F), (0x205F, 0x205F), (0x3000, 0x3000)]

/-- A character is blank when its code point lies in one of `blankRanges`. -/
def isBlank (c : Char) : Bool :=
  blankRanges.any fun (first, last) => first ≤ c.toNat && c.toNat ≤ last

theorem isBlank_of_isWhitespace {c : Char} (h : c.isWhitespace = true) : isBlank c = true := by
  simp only [Char.isWhitespace, Bool.or_eq_true, decide_eq_true_eq] at h
  rcases h with ((h | h) | h) | h <;> subst h <;> decide

/-- The text without its leading blanks. -/
def trimStart (text : List Char) : List Char :=
  text.dropWhile isBlank

/-- The text without its trailing blanks. -/
def trimEnd (text : List Char) : List Char :=
  (text.reverse.dropWhile isBlank).reverse

/-- The text without blanks at either end. -/
def trim (text : List Char) : List Char :=
  trimEnd (trimStart text)

/-- A text is blank when all its characters are. -/
def allBlank (text : List Char) : Bool :=
  text.all isBlank

theorem trimStart_eq_nil_iff {text : List Char} : trimStart text = [] ↔ allBlank text = true := by
  simp only [trimStart, allBlank]
  induction text with
  | nil => simp
  | cons c text ih => by_cases h : isBlank c <;> simp_all

/-- The words of a text: its longest runs of characters that are not blank. -/
def words : List Char → List (List Char)
  | [] => []
  | c :: rest =>
    if isBlank c then words rest
    else match rest, words rest with
      | d :: _, word :: more => if isBlank d then [c] :: word :: more else (c :: word) :: more
      | _, more => [c] :: more

/-- Equality of texts up to the case of ASCII letters. -/
def eqIgnoringCase (a b : List Char) : Bool :=
  a.map Char.toLower == b.map Char.toLower

end SiteTree.Text
