import SiteTree.Shell.Script

/-!
# Patterns

A pattern fits whole texts. Characters that were quoted stand for themselves.
-/

namespace SiteTree.Shell

/-- A character of a pattern, or of a field that may be one. -/
structure Mark where
  char : Char
  quoted : Bool
  deriving DecidableEq

/-- What fits one character of a text. -/
inductive CharSet where
  | range (first last : Char)
  | named (name : String)

inductive PatternPart where
  | char (c : Char)
  | any
  | run
  | among (negated : Bool) (sets : List CharSet)

/-- Is the character in the class of the name? -/
def inClass (name : String) (c : Char) : Bool :=
  let printable := 0x20 ≤ c.toNat && c.toNat ≤ 0x7E
  match name with
  | "alnum" => c.isAlphanum
  | "alpha" => c.isAlpha
  | "blank" => c == ' ' || c == '\t'
  | "cntrl" => c.toNat < 0x20 || c.toNat == 0x7F
  | "digit" => c.isDigit
  | "graph" => printable && c != ' '
  | "lower" => c.isLower
  | "print" => printable
  | "punct" => printable && c != ' ' && !c.isAlphanum
  | "space" => c == ' ' || (9 ≤ c.toNat && c.toNat ≤ 13)
  | "upper" => c.isUpper
  | "xdigit" => c.isDigit || "abcdefABCDEF".toList.contains c
  | _ => false

def CharSet.contains (set : CharSet) (c : Char) : Bool :=
  match set with
  | .range first last => first.toNat ≤ c.toNat && c.toNat ≤ last.toNat
  | .named name => inClass name c

/-- Is the mark this character, with its special meaning? -/
def Mark.is (mark : Mark) (c : Char) : Bool :=
  mark.char == c && !mark.quoted

/-- The name of a class, of which the bracket and the colon have been read. -/
def className? : List Mark → Option (List Char × List Mark)
  | a :: b :: rest =>
    if a.is ':' ∧ b.is ']' then some ([], rest)
    else (className? (b :: rest)).map fun (name, rest) => (a.char :: name, rest)
  | _ => none

/-- The sets between brackets, up to the closing one; `first` says that none has been read, so
that a bracket stands for itself. -/
def charSets : Nat → Bool → List Mark → Option (List CharSet × List Mark)
  | 0, _, _ => none
  | _, _, [] => none
  | fuel + 1, first, a :: rest =>
    if a.is ']' ∧ !first then some ([], rest)
    else
      let named :=
        match rest with
        | b :: more => if a.is '[' ∧ b.is ':' then className? more else none
        | [] => none
      match named, rest with
      | some (name, behind), _ =>
        (charSets fuel false behind).map fun (sets, rest) =>
          (.named (String.ofList name) :: sets, rest)
      | none, dash :: b :: behind =>
        if dash.is '-' ∧ !b.is ']' then
          (charSets fuel false behind).map fun (sets, rest) =>
            (.range a.char b.char :: sets, rest)
        else
          (charSets fuel false rest).map fun (sets, rest) =>
            (.range a.char a.char :: sets, rest)
      | none, _ =>
        (charSets fuel false rest).map fun (sets, rest) => (.range a.char a.char :: sets, rest)

/-- The parts of a pattern. A bracket that is not closed stands for itself. -/
def patternParts : Nat → List Mark → List PatternPart
  | 0, _ => []
  | _, [] => []
  | fuel + 1, a :: rest =>
    if a.is '*' then .run :: patternParts fuel rest
    else if a.is '?' then .any :: patternParts fuel rest
    else if a.is '[' then
      let negated := rest.head?.any fun b => b.is '!'
      let inside := if negated then rest.tail else rest
      match charSets (inside.length + 1) true inside with
      | some (sets, rest) => .among negated sets :: patternParts fuel rest
      | none => .char '[' :: patternParts fuel rest
    else .char a.char :: patternParts fuel rest

abbrev Pattern := List PatternPart

def Pattern.ofMarks (marks : List Mark) : Pattern :=
  patternParts (marks.length + 1) marks

/-- Does a pattern fit one of the ends of a text? -/
def anySuffix (fits : List Char → Bool) : List Char → Bool
  | [] => fits []
  | c :: text => fits (c :: text) || anySuffix fits text

/-- Does a pattern fit a whole text? -/
def Pattern.fits : Pattern → List Char → Bool
  | [], text => text.isEmpty
  | .run :: pattern, text => anySuffix (Pattern.fits pattern) text
  | .any :: pattern, _ :: text => Pattern.fits pattern text
  | .char a :: pattern, c :: text => a == c && Pattern.fits pattern text
  | .among negated sets :: pattern, c :: text =>
    (sets.any fun set => set.contains c) != negated && Pattern.fits pattern text
  | _, [] => false

/-- Is there a character in the field that makes it a pattern? -/
def isPattern (field : List Mark) : Bool :=
  field.any fun mark => mark.is '*' || mark.is '?' || mark.is '['

/-! ### Trimming -/

/-- The ways to cut a text in two, the shorter first parts first. -/
def cuts : List Char → List (List Char × List Char)
  | [] => [([], [])]
  | c :: text => ([], c :: text) :: (cuts text).map fun (first, second) => (c :: first, second)

/-- The text without the shortest or longest part at its start or end that a pattern fits. -/
def Pattern.trim (pattern : Pattern) (atEnd longest : Bool) (text : List Char) : List Char :=
  let found :=
    (if atEnd = longest then cuts text else (cuts text).reverse).find? fun (first, second) =>
      pattern.fits (if atEnd then second else first)
  match found with
  | some (first, second) => if atEnd then first else second
  | none => text

end SiteTree.Shell
