import SiteTree.Shell.Arithmetic
import SiteTree.Shell.Machine
import SiteTree.Shell.Pattern

/-!
# Expanding words

What a word stands for is found when its command runs: parameters and the output of commands
are put in, values are split at separators, and patterns are replaced by the names of files
that they fit.
-/

namespace SiteTree.Shell

/-- A character of an expanded word, or a mark between characters. -/
inductive Glyph where
  | char (c : Char) (quoted : Bool)
  /-- a character of a value, which can be split there -/
  | loose (c : Char)
  /-- something quoted stands here, even if it is nothing -/
  | quote
  /-- the end of a field -/
  | stop
  deriving DecidableEq

/-! ### Fields -/

/-- The marks of a text that is not split. -/
def marksOf : List Glyph → List Mark
  | [] => []
  | .char c quoted :: glyphs => ⟨c, quoted⟩ :: marksOf glyphs
  | .loose c :: glyphs => ⟨c, false⟩ :: marksOf glyphs
  | _ :: glyphs => marksOf glyphs

def textOf (marks : List Mark) : String :=
  String.ofList (marks.map Mark.char)

/-- Splits values at separators. Blank separators count once, and not at all next to another
separator; each of the others ends a field. `spaced` says that blanks have just ended one. -/
def splitFields (separators : List Char) (current : Option (List Mark)) (spaced : Bool) :
    List Glyph → List (List Mark)
  | [] => current.toList
  | .char c quoted :: glyphs =>
    splitFields separators (some (current.getD [] ++ [⟨c, quoted⟩])) false glyphs
  | .quote :: glyphs => splitFields separators (some (current.getD [])) false glyphs
  | .stop :: glyphs => current.toList ++ splitFields separators none false glyphs
  | .loose c :: glyphs =>
    if !separators.contains c then
      splitFields separators (some (current.getD [] ++ [⟨c, false⟩])) false glyphs
    else if c = ' ' ∨ c = '\t' ∨ c = '\n' then
      current.toList ++ splitFields separators none (spaced || current.isSome) glyphs
    else if spaced then splitFields separators none false glyphs
    else current.getD [] :: splitFields separators none false glyphs

/-! ### Names of files -/

/-- The parts of a field between slashes. -/
def pathParts : List Mark → List (List Mark)
  | [] => [[]]
  | mark :: marks =>
    match pathParts marks with
    | part :: parts => if mark.char = '/' then [] :: part :: parts else (mark :: part) :: parts
    | [] => [[mark]]

/-- The names in a directory. -/
def namesIn (disk : Disk) (directory : String) : List String :=
  match disk.find ⟨if directory.isEmpty then "." else toText directory⟩ with
  | .ok (location, .directory) =>
    "." :: ".." :: disk.entries.filterMap fun entry =>
      if entry.1.length = location.length + 1 ∧ location.isPrefixOf entry.1 then
        entry.1.getLast?.map ofText
      else none
  | _ => []

/-- The paths that begin as `written` and go on as the parts say. -/
def pathsFitting (disk : Disk) (written : String) : List (List Mark) → List String
  | [] => []
  | [part] => (extend part).filter fun path => (disk.entryAt ⟨toText path⟩).isOk
  | part :: parts => (extend part).flatMap fun path => pathsFitting disk (path ++ "/") parts
where
  extend (part : List Mark) : List String :=
    if isPattern part then
      let pattern := Pattern.ofMarks part
      let fitting := (namesIn disk written).filter fun name =>
        pattern.fits name.toList
          && (name.toList.head? != some '.' || part.head?.any fun mark => mark.char == '.')
      fitting.map (written ++ ·)
    else [written ++ textOf part]

/-- The field, or the names of files that it fits, if there are any. -/
def fileNames (disk : Disk) (field : List Mark) : List String :=
  if isPattern field then
    match pathsFitting disk "" (pathParts field) with
    | [] => [textOf field]
    | paths => paths.mergeSort fun a b => a ≤ b
  else [textOf field]

namespace Effect

/-! ### Home directories -/

/-- The directory that a name behind a tilde stands for. -/
def homeOf (user : String) : Effect (Option String) := do
  if user = "" then valueOf? "HOME"
  else if user = "root" then return some "/root"
  else return none

/-- Characters that begin with a tilde, as a word. `last` says that nothing follows them. -/
def tildeText (assignment last : Bool) (chars : List Char) : Effect Word := do
  match chars with
  | '~' :: rest =>
    let ends (c : Char) : Bool := c == '/' || (assignment && c == ':')
    let user := rest.takeWhile fun c => !ends c
    let behind := rest.dropWhile fun c => !ends c
    if behind.isEmpty ∧ !last then return [.text false chars]
    else
      match ← homeOf (String.ofList user) with
      | some home => return [.text true home.toList, .text false behind]
      | none => return [.text false chars]
  | _ => return [.text false chars]

/-- Stretches that each end behind a colon. -/
def splitColons : List Char → List (List Char)
  | [] => [[]]
  | c :: chars =>
    match splitColons chars with
    | first :: more => if c = ':' then [c] :: first :: more else (c :: first) :: more
    | [] => [[c]]

/-- The word with tildes replaced, at its start and in assignments behind colons. -/
def withHomes (assignment : Bool) (word : Word) : Effect Word := do
  match word with
  | .text false chars :: rest =>
    if !chars.contains '~' then return word
    else if assignment then
      let stretches := splitColons chars
      let words ← stretches.zipIdx.mapM fun (stretch, i) =>
        tildeText true (rest.isEmpty || i + 1 < stretches.length) stretch
      return words.flatten ++ rest
    else return (← tildeText false rest.isEmpty chars) ++ rest
  | _ => return word

/-! ### Arithmetic -/

/-- The number that the value of a variable writes. -/
def numberIn (text : String) : Effect Int := do
  let isSpace (c : Char) : Bool := c == ' ' || (9 ≤ c.toNat && c.toNat ≤ 13)
  let trimmed := text.toList.dropWhile isSpace
  let (negative, unsigned) :=
    match trimmed with
    | '-' :: rest => (true, rest)
    | '+' :: rest => (false, rest)
    | _ => (false, trimmed)
  if trimmed.isEmpty then return 0
  else
    let (value, behind) := Arithmetic.number unsigned
    if unsigned.head?.any Char.isDigit ∧ behind.all isSpace then
      return if negative then -value else value
    else giveUp ("Illegal number: " ++ text)

/-- The value of an expression; `text` is how it is written. -/
def compute (text : String) : Arithmetic.Expression → Effect Int
  | .number value => return value
  | .name name => do numberIn ((← valueOf? name).getD "")
  | .negated operand => do return Arithmetic.truth ((← compute text operand) == 0)
  | .complement operand => do return -(← compute text operand) - 1
  | .opposite operand => do return Arithmetic.wrap (-(← compute text operand))
  | .binary operator left right => do
    let a ← compute text left
    let b ← compute text right
    applied operator a b
  | .both left right => do
    if (← compute text left) = 0 then return 0
    else return Arithmetic.truth ((← compute text right) != 0)
  | .either left right => do
    if (← compute text left) = 0 then return Arithmetic.truth ((← compute text right) != 0)
    else return 1
  | .choice condition first second => do
    if (← compute text condition) = 0 then compute text second else compute text first
  | .assign name operator value => do
    let right ← compute text value
    let result ←
      match operator with
      | none => pure right
      | some operator => do applied operator (← numberIn ((← valueOf? name).getD "")) right
    setVariable name (toString result)
    return result
where
  /-- The value of an operation. -/
  applied (operator : String) (a b : Int) : Effect Int := do
    match Arithmetic.apply operator a b with
    | .ok value => return value
    | .error fault =>
      giveUp ("arithmetic expression: " ++ fault.message ++ ": \"" ++ text ++ "\"")

/-- The value of an expression that is given as text. -/
def computeText (text : String) : Effect Int := do
  match Arithmetic.parse text.toList with
  | .ok expression => compute text expression
  | .error fault => giveUp ("arithmetic expression: " ++ fault.message ++ ": \"" ++ text ++ "\"")

/-! ### Parameters -/

def looseGlyphs (text : String) : List Glyph :=
  text.toList.map Glyph.loose

def quotedGlyphs (text : String) : List Glyph :=
  text.toList.map fun c => .char c true

def glyphsOf (quoted : Bool) (text : String) : List Glyph :=
  if quoted then quotedGlyphs text else looseGlyphs text

/-- What stands between the arguments where they make one text. -/
def joint : Effect String := do
  match ← valueOf? "IFS" with
  | some separators => return String.ofList (separators.toList.take 1)
  | none => return " "

/-- The list of all arguments. It makes several fields if it is split, or is quoted as the kind
of list that keeps them apart. -/
def argumentGlyphs (full quoted apart : Bool) : Effect (List Glyph) := do
  let arguments := (← get).arguments
  if full ∧ (apart ∨ !quoted) then
    let fields := arguments.map fun argument =>
      if quoted then .quote :: quotedGlyphs argument else looseGlyphs argument
    return [Glyph.stop].intercalate fields
  else return glyphsOf quoted ((← joint).intercalate arguments)

/-- The value of a parameter; the list of all arguments is one text. -/
def wholeValue (name : String) : Effect (Option String) := do
  if name = "@" ∨ name = "*" then
    return some ((← joint).intercalate (← get).arguments)
  else parameter? name

/-- The value of a parameter that ought to have one. -/
def neededValue (name : String) : Effect String := do
  match ← wholeValue name with
  | some value => return value
  | none =>
    if ← hasOption "nounset" then
      giveUp (name ++ ": parameter not set")
    else return ""

def valueGlyphs (full quoted : Bool) (name : String) : Effect (List Glyph) := do
  if name = "@" ∨ name = "*" then argumentGlyphs full quoted (name == "@")
  else return glyphsOf quoted (← neededValue name)

/-- Characters of a word that stands in the place of a value can be split. -/
def loosened (quoted : Bool) : Glyph → Glyph
  | .char c false => if quoted then .char c false else .loose c
  | glyph => glyph

/-! ### Words -/

/-- What a command writes, without the ends of lines behind it. -/
def outputText (bytes : List UInt8) : String :=
  let kept := (bytes.reverse.dropWhile (· == 0x0A)).reverse
  ofBytes (kept.filter (· != 0))

mutual

/-- The glyphs of a piece of a word. `output` answers what a command writes; where the word
can make several fields the expansion is `full`. -/
def pieceGlyphs (output : Command → Effect (List UInt8)) (full : Bool) :
    Piece → Effect (List Glyph)
  | .text true [] => return [.quote]
  | .text quoted chars => do
    let glyphs := chars.map fun c => Glyph.char c quoted
    return if quoted then .quote :: glyphs else glyphs
  | .output quoted command => do return glyphsOf quoted (outputText (← output command))
  | .arithmetic quoted expression => do
    let text := textOf (marksOf (← wordGlyphs output false expression))
    return glyphsOf quoted (toString (← computeText text))
  | .parameter quoted name use => useGlyphs output full quoted name use

def useGlyphs (output : Command → Effect (List UInt8)) (full quoted : Bool) (name : String) :
    Use → Effect (List Glyph)
  | .value => valueGlyphs full quoted name
  | .bad => giveUp "Bad substitution"
  | .length => do return glyphsOf quoted (toString (← neededValue name).length)
  | .trimmed atEnd longest pattern => do
    let value ← neededValue name
    let pattern := Pattern.ofMarks (marksOf (← wordGlyphs output false pattern))
    return glyphsOf quoted (String.ofList (pattern.trim atEnd longest value.toList))
  | .instead form emptyToo word => do
    let value ← wholeValue name
    let there := value.isSome && !(emptyToo && value == some "")
    match form, there with
    | '+', true => return (← wordGlyphs output full word).map (loosened quoted)
    | '+', false => return []
    | _, true => valueGlyphs full quoted name
    | '-', false => return (← wordGlyphs output full word).map (loosened quoted)
    | '=', false =>
      let value := textOf (marksOf (← wordGlyphs output false word))
      if !isName name.toList then giveUp (name ++ ": bad variable name")
      else
        setVariable name value
        return glyphsOf quoted value
    | _, false =>
      let message := textOf (marksOf (← wordGlyphs output false word))
      let missing := if emptyToo then "parameter not set or null" else "parameter not set"
      giveUp (name ++ ": " ++ (if message.isEmpty then missing else message))

def wordGlyphs (output : Command → Effect (List UInt8)) (full : Bool) :
    List Piece → Effect (List Glyph)
  | [] => return []
  | piece :: word => do
    let glyphs ← pieceGlyphs output full piece
    return glyphs ++ (← wordGlyphs output full word)

end

/-- The fields of a word. -/
def fieldsOf (output : Command → Effect (List UInt8)) (word : Word) : Effect (List String) := do
  let glyphs ← wordGlyphs output true (← withHomes false word)
  let fields := splitFields (← separators) none false glyphs
  if ← hasOption "noglob" then return fields.map textOf
  else
    let disk ← disk
    return fields.flatMap (fileNames disk)

/-- The text of a word that is not split. -/
def textOfWord (output : Command → Effect (List UInt8)) (assignment : Bool) (word : Word) :
    Effect String := do
  return textOf (marksOf (← wordGlyphs output false (← withHomes assignment word)))

/-- The pattern that a word is. -/
def patternOf (output : Command → Effect (List UInt8)) (word : Word) : Effect Pattern := do
  return Pattern.ofMarks (marksOf (← wordGlyphs output false (← withHomes false word)))

end Effect

end SiteTree.Shell
