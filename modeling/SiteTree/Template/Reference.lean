import SiteTree.Template.Basic
import SiteTree.Text.Search

/-!
# Reading references

A reference is written without blanks: names between points or slashes, with the way up in
front of them.
-/

namespace SiteTree.Template

/-! ### Characters -/

/-- The blanks that count within tags and between them. -/
def isSpace (c : Char) : Bool :=
  c == ' ' || c == '\t' || c == '\n' || c == '\r'

def skipSpace (text : List Char) : List Char :=
  text.dropWhile isSpace

def isNameChar (c : Char) : Bool :=
  c.isAlphanum || c == '_' || c == '-' || c == '$' || c == ':' || 0x80 ≤ c.toNat

def isSeparator (c : Char) : Bool :=
  c == '.' || c == '/'

/-- A run of name characters. -/
def word? (text : List Char) : Option (String × List Char) :=
  match text.takeWhile isNameChar with
  | [] => none
  | chars => some (String.ofList chars, text.dropWhile isNameChar)

/-! ### References -/

/-- One name of a reference: a word, or anything in brackets. -/
def name? : List Char → Option (String × List Char)
  | '[' :: rest =>
    match rest.dropWhile (· != ']') with
    | _ :: behind => some (String.ofList (rest.takeWhile (· != ']')), behind)
    | [] => none
  | text => word? text

/-- Names between separators, at least one. -/
def names? : Nat → List Char → Option (List String × List Char)
  | 0, _ => none
  | fuel + 1, text => do
    let (name, rest) ← name? text
    match rest with
    | c :: more =>
      if isSeparator c then
        match names? fuel more with
        | some (names, rest) => return (name :: names, rest)
        | none => return ([name], rest)
      else return ([name], rest)
    | [] => return ([name], [])

/-- The steps up at the front of a reference. -/
def stepsUp : List Char → Nat × List Char
  | '.' :: '.' :: c :: rest =>
    if isSeparator c then
      let (up, rest) := stepsUp rest
      (up + 1, rest)
    else (0, '.' :: '.' :: c :: rest)
  | text => (0, text)

/-- The text behind mentions of the value at hand, which change nothing. -/
def skipHere : List Char → List Char
  | '.' :: '/' :: rest => skipHere rest
  | 't' :: 'h' :: 'i' :: 's' :: '.' :: rest => skipHere rest
  | 't' :: 'h' :: 'i' :: 's' :: '/' :: rest => skipHere rest
  | text => text

/-- A reference. The name `this` stands for the value at hand wherever it comes, so that a
variable of that name is no variable, and only names lead down from the whole values. -/
def reference? (text : List Char) : Option (Reference × List Char) := do
  let behindHere := skipHere text
  let root := (Text.after? "@root.".toList behindHere).or (Text.after? "@root/".toList behindHere)
  let behindRoot := root.getD behindHere
  let mark := Text.after? ['@'] behindRoot
  let (up, behindUp) := stepsUp (mark.getD behindRoot)
  let (names, rest) ← names? (behindUp.length + 1) behindUp
  let named := names.filter (· != "this")
  let word := (word? text).bind fun (word, behind) =>
    if behind.length = rest.length then some word else none
  if root.isSome then return ({ fromRoot := true, names := named }, rest)
  else if mark.isNone then return ({ up, names := named, word }, rest)
  else if named.isEmpty then return ({}, rest)
  else return ({ isVariable := true, up, names := named }, rest)

end SiteTree.Template
