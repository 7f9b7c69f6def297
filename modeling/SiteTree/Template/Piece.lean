import SiteTree.Template.Tag
import SiteTree.Text.Blank

/-!
# Text between tags

A template falls into tags and the runs of text between them. A backslash in front of opening
braces takes their meaning away. White space next to a tag goes away where the tag asks for
it, and with a tag that stands alone on a line the rest of the line goes.
-/

namespace SiteTree.Template

/-- A part of a template: a run of text, as it is written and as it is shown, or a tag. -/
inductive Piece where
  | text (written shown : List Char)
  | tag (tag : Tag)

/-! ### Cutting a template into pieces -/

/-- The run of text up to the next tag, as it is written and as it is shown, and the rest. -/
def textRun : Nat → List Char → List Char × List Char × List Char
  | 0, text => ([], [], text)
  | _, [] => ([], [], [])
  | _, '\x7b' :: '\x7b' :: rest => ([], [], '\x7b' :: '\x7b' :: rest)
  | fuel + 1, '\\' :: '\x7b' :: '\x7b' :: '\x7b' :: '\x7b' :: rest =>
    let braces := ['\x7b', '\x7b', '\x7b', '\x7b']
    let (written, shown, rest) := textRun fuel rest
    ('\\' :: braces ++ written, braces ++ shown, rest)
  | fuel + 1, '\\' :: '\x7b' :: '\x7b' :: rest =>
    let braces := ['\x7b', '\x7b']
    let (written, shown, rest) := textRun fuel rest
    ('\\' :: braces ++ written, braces ++ shown, rest)
  | fuel + 1, '\\' :: rest =>
    let more := rest.takeWhile (· == '\\')
    let behind := rest.dropWhile (· == '\\')
    if (Text.after? ['\x7b', '\x7b'] behind).isSome then ('\\' :: more, more, behind)
    else
      let (written, shown, rest) := textRun fuel rest
      ('\\' :: written, '\\' :: shown, rest)
  | fuel + 1, c :: rest =>
    let (written, shown, rest) := textRun fuel rest
    (c :: written, c :: shown, rest)

/-- The pieces of a template; no two runs of text are next to each other. -/
def pieces : Nat → List Char → Except String (List Piece)
  | 0, _ => .error "expected a shorter template"
  | _, [] => .ok []
  | fuel + 1, '\x7b' :: '\x7b' :: rest =>
    match rawBlock? rest with
    | some ((start, body, finish), rest) => do
      -- white space at the start of such a body is never shown
      let piece := Piece.text body (skipSpace body)
      return .tag start :: piece :: .tag finish :: (← pieces fuel rest)
    | none =>
      match tag? rest with
      | some (tag, rest) => do return .tag tag :: (← pieces fuel rest)
      | none => .error "expected a tag"
  | fuel + 1, text => do
    let (written, shown, rest) := textRun (fuel + 1) text
    return .text written shown :: (← pieces fuel rest)

/-! ### White space next to tags -/

def isLineSpace (c : Char) : Bool :=
  c == ' ' || c == '\t'

def isBreak (c : Char) : Bool :=
  c == '\n' || c == '\r'

def trimLineEnd (text : List Char) : List Char :=
  (text.reverse.dropWhile isLineSpace).reverse

/-- The text without the rest of the line that it begins in, if that is blank. -/
def trimLine (text : List Char) : List Char :=
  match text.dropWhile isLineSpace with
  | '\n' :: rest => rest
  | '\r' :: '\n' :: rest => rest
  | rest => rest

/-- What is before a tag in its template: nothing, a run of text and whether that comes
first, or another tag. -/
inductive Before where
  | start
  | text (written : List Char) (first : Bool)
  | tag

/-- Is there nothing before the tag on its line? -/
def Before.endsLine : Before → Bool
  | .start => true
  | .text written first =>
    match (trimLineEnd written).getLast? with
    | some c => isBreak c
    | none => first
  | .tag => false

/-- The white space right before the tag, if it is no end of a line. -/
def Before.indent : Before → List Char
  | .text written _ => (written.reverse.takeWhile isLineSpace).reverse
  | _ => []

/-- Is there nothing behind the tag on its line? -/
def startsLine : List Piece → Bool
  | [] => true
  | .text written _ :: _ => (written.dropWhile isLineSpace).head?.any isBreak
  | .tag _ :: _ => false

/-- Does the tag stand alone on its line? -/
def Tag.standsAlone (tag : Tag) (before : Before) (behind : List Piece) : Bool :=
  tag.canStandAlone && before.endsLine && startsLine behind

/-- What the tags before ask for: that white space goes, and that the rest of the line goes. -/
structure Trimming where
  space : Bool := false
  line : Bool := false

/-- A run of text as the tags before it and the one behind it leave it. -/
def trimmed (trimming : Trimming) (before : Before) (shown : List Char) (behind : List Piece) :
    List Char :=
  let shown :=
    if trimming.space then Text.trimStart shown
    else if trimming.line then trimLine shown
    else shown
  match behind with
  | .tag tag :: rest =>
    let shown := if tag.trimBefore then Text.trimEnd shown else shown
    if tag.standsAlone before rest ∧ tag.takesIndent then trimLineEnd shown else shown
  | _ => shown

/-- What is asked for behind a run of text. White space that has gone leaves open what was
asked for the line. -/
def Trimming.behindText (trimming : Trimming) (written : List Char) : Trimming :=
  if trimming.space ∧ written.all isSpace then trimming else { trimming with line := false }

def Trimming.behindTag (trimming : Trimming) (tag : Tag) (alone : Bool) : Trimming where
  space :=
    match tag.kind with
    | .comment => trimming.space
    | _ => tag.trimBehind
  line := if tag.canStandAlone then alone else trimming.line

/-- The pieces with the white space next to tags taken away: runs of text as they are shown,
and tags. -/
def trimPieces (trimming : Trimming) (before : Before) : List Piece → List (String ⊕ Tag)
  | [] => []
  | .text written shown :: rest =>
    let here := Before.text written (before matches .start)
    .inl (String.ofList (trimmed trimming here shown rest)) ::
      trimPieces (trimming.behindText written) here rest
  | .tag tag :: rest =>
    let alone := tag.standsAlone before rest
    .inr (tag.indented before.indent) :: trimPieces (trimming.behindTag tag alone) .tag rest

end SiteTree.Template
