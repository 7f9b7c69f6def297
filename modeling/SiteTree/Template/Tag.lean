import SiteTree.Template.Expression

/-!
# Tags

A tag is read from behind its opening braces. A tilde next to the braces takes away the white
space on that side, and blanks may stand between any two parts of a tag.
-/

namespace SiteTree.Template

inductive TagKind where
  | value (escaped : Bool) (expression : Expression)
  | call (escaped : Bool) (call : Call)
  | openBlock (call : Call) (names : List String)
  /-- opens a body for another template, to be closed by a name -/
  | openInclusion (closing : String) (inclusion : Inclusion)
  | openDirective (call : Call)
  | otherwise
  /-- a block in place of the other body of the block around it -/
  | otherwiseBlock (call : Call) (names : List String)
  | closeBlock (name : String)
  | comment
  | inclusion (inclusion : Inclusion)
  | directive (call : Call)

/-- A tag, and whether it takes away the white space before it and behind it. -/
structure Tag where
  kind : TagKind
  trimBefore : Bool := false
  trimBehind : Bool := false

/-- Does a line that holds only such a tag go away with it? -/
def Tag.canStandAlone (tag : Tag) : Bool :=
  match tag.kind with
  | .value _ _ => false
  | .call _ _ => false
  | _ => true

/-! ### What tags say

The readers begin at the first character behind the opening braces and their tilde. -/

/-- A helper with arguments, or what names a value. -/
def shown? (escaped : Bool) (text : List Char) : Option (TagKind × List Char) :=
  match callWithArguments? (enough text) text with
  | some (call, rest) => some (.call escaped call, rest)
  | none => (subject? text).map fun (expression, rest) => (.value escaped expression, rest)

/-- A value between braces of its own, which is shown as it is. -/
def bracedValue? : List Char → Option (TagKind × List Char)
  | '\x7b' :: rest => do
    let (kind, rest) ← shown? false (skipSpace rest)
    let rest ← Text.after? ['\x7d'] (skipSpace rest)
    return (kind, rest)
  | _ => none

def plainValue? : List Char → Option (TagKind × List Char)
  | '&' :: rest =>
    (subject? (skipSpace rest)).map fun (expression, rest) => (.value false expression, rest)
  | _ => none

/-- The text behind the word that divides a block. What follows may be joined to it. -/
def behindElse? (text : List Char) : Option (List Char) :=
  ((Text.after? "else".toList text).or (Text.after? ['^'] text)).map skipSpace

def otherwiseBlock? (text : List Char) : Option (TagKind × List Char) := do
  let rest ← behindElse? text
  let ((call, names), rest) ← blockCall? rest
  return (.otherwiseBlock call names, rest)

def otherwise? (text : List Char) : Option (TagKind × List Char) :=
  (behindElse? text).map fun rest => (.otherwise, rest)

/-- A name that closes a block, as it is written. -/
def closingName? (text : List Char) : Option (String × List Char) :=
  let isPathChar (c : Char) : Bool := isNameChar c || isSeparator c
  match text with
  | '\'' :: rest =>
    (behindQuote? '\'' rest).map fun behind =>
      (String.ofList (text.take (text.length - behind.length)), behind)
  | _ =>
    match text.takeWhile isPathChar with
    | [] => none
    | chars => some (String.ofList chars, text.dropWhile isPathChar)

/-- The name of another template, as it is written. -/
def templateName? (text : List Char) : Option (String × List Char) :=
  (closingName? text).or <|
    (reference? text).map fun (_, behind) =>
      (String.ofList (text.take (text.length - behind.length)), behind)

/-- Another template, by its name or what has that as its value, and what it is shown for. A
name is also what closes the body. -/
def inclusion? (text : List Char) : Option ((String × Inclusion) × List Char) := do
  let named := (templateName? text).map fun (name, rest) =>
    (name, Expression.literal (.string name), rest)
  let (closing, name, rest) ← named.or
    ((subject? text).map fun (expression, rest) => ("", expression, rest))
  let (call, rest) := withArguments (enough rest) { helper := closing } (skipSpace rest)
  let inclusion : Inclusion := { name, arguments := call.arguments, options := call.options }
  return ((closing, inclusion), rest)

def openBlock? : List Char → Option (TagKind × List Char)
  | '#' :: rest =>
    match skipSpace rest with
    | '>' :: rest =>
      (inclusion? (skipSpace rest)).map fun ((closing, inclusion), rest) =>
        (.openInclusion closing inclusion, rest)
    | '*' :: rest =>
      (blockCall? (skipSpace rest)).map fun ((call, _), rest) =>
        (.openDirective call, rest)
    | rest => (blockCall? rest).map fun ((call, names), rest) => (.openBlock call names, rest)
  | _ => none

def directive? : List Char → Option (TagKind × List Char)
  | '>' :: rest =>
    (inclusion? (skipSpace rest)).map fun ((_, inclusion), rest) => (.inclusion inclusion, rest)
  | '*' :: rest =>
    (blockCall? (skipSpace rest)).map fun ((call, _), rest) => (.directive call, rest)
  | _ => none

def closeBlock? : List Char → Option (TagKind × List Char)
  | '/' :: rest =>
    (closingName? (skipSpace rest)).map fun (name, rest) => (.closeBlock name, rest)
  | _ => none

/-- Does the white space on its line go with a tag that stands alone there? -/
def Tag.takesIndent (tag : Tag) : Bool :=
  match tag.kind with
  | .inclusion _ => false
  | _ => true

/-- The tag of an inclusion with its lines indented. -/
def Tag.indented (tag : Tag) (indent : List Char) : Tag :=
  match tag.kind with
  | .inclusion inclusion =>
    { tag with kind := .inclusion { inclusion with indent := String.ofList indent } }
  | _ => tag

/-! ### Whole tags -/

/-- Drops a tilde and the blanks behind it. -/
def tilde (text : List Char) : Bool × List Char :=
  match text with
  | '~' :: rest => (true, skipSpace rest)
  | _ => (false, text)

/-- A tag whose content is read by `kind?`, up to its closing braces. -/
def tagUpTo? (closing : List Char) (kind? : List Char → Option (TagKind × List Char))
    (text : List Char) : Option (Tag × List Char) := do
  let (trimBefore, rest) := tilde (skipSpace text)
  let (kind, rest) ← kind? rest
  let (trimBehind, rest) := tilde (skipSpace rest)
  let rest ← Text.after? closing rest
  return ({ kind, trimBefore, trimBehind }, rest)

def closingBraces : List Char :=
  ['\x7d', '\x7d']

/-- A comment, read from behind its exclamation mark. One that begins with two dashes may hold
braces. -/
def comment? (text : List Char) : Option (Tag × List Char) :=
  let dashed := (Text.after? ['-', '-'] (skipSpace text)).bind
    (Text.splitFirst? ('-' :: '-' :: closingBraces))
  (dashed.or (Text.splitFirst? closingBraces text)).map fun (_, rest) =>
    ({ kind := .comment }, rest)

/-- A tag with three braces on either side. -/
def tripleBraced? : List Char → Option (Tag × List Char)
  | '\x7b' :: rest => tagUpTo? ('\x7d' :: closingBraces) (shown? false) rest
  | _ => none

/-- A tag, read from behind its opening braces. What may divide a block does so, and is a value
only if it cannot. -/
def tag? (text : List Char) : Option (Tag × List Char) :=
  match text with
  | '!' :: rest => comment? rest
  | _ =>
    let first := [otherwiseBlock?, otherwise?, shown? true].findSome? fun kind? =>
      tagUpTo? closingBraces kind? text
    (first.or (tripleBraced? text)).or <|
      [bracedValue?, plainValue?, openBlock?, directive?, closeBlock?].findSome? fun kind? =>
        tagUpTo? closingBraces kind? text

/-! ### Raw blocks -/

/-- A block whose body is text: its opening tag, that text and its closing tag, read from behind
its opening braces. -/
def rawBlock? (text : List Char) : Option ((Tag × List Char × Tag) × List Char) := do
  let opening := ['\x7b', '\x7b']
  let closing := closingBraces ++ closingBraces
  let rest ← Text.after? opening text
  let openTag (rest : List Char) : Option (TagKind × List Char) :=
    (blockCall? rest).map fun ((call, names), rest) => (.openBlock call names, rest)
  let (start, rest) ← tagUpTo? closing openTag rest
  let (body, rest) ← Text.splitFirst? (opening ++ opening) rest
  let (finish, rest) ← tagUpTo? closing closeBlock? rest
  return ((start, body, finish), rest)

end SiteTree.Template
