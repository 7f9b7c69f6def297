import SiteTree.Stylesheet.Lexical

/-!
# Short stylesheets

A stylesheet is written as short as its rules allow: without comments, without white space
that separates nothing, and without rules that hold no declaration. What can be shortened is
a list of style rules and of groups of them.
-/

namespace SiteTree.Stylesheet

/-- A character, and whether it is code. What is not code belongs to a string. -/
abbrev Glyph := Char × Bool

/-- The characters of a stylesheet with a blank in place of every comment. -/
def withoutComments : Place → List Char → List Glyph
  | _, [] => []
  | .code, '/' :: '*' :: rest => (' ', true) :: withoutComments .comment rest
  | .code, c :: rest =>
    if isQuote c then (c, false) :: withoutComments (.string c) rest
    else (c, true) :: withoutComments .code rest
  | .comment, '*' :: '/' :: rest => withoutComments .code rest
  | .comment, _ :: rest => withoutComments .comment rest
  | .string quote, '\\' :: c :: rest =>
    ('\\', false) :: (c, false) :: withoutComments (.string quote) rest
  | .string quote, c :: rest =>
    (c, false) :: withoutComments (if c = quote then .code else .string quote) rest

def Glyph.isBlank (glyph : Glyph) : Bool :=
  glyph.2 && Text.isBlank glyph.1

def Glyph.isCode (chars : List Char) (glyph : Glyph) : Bool :=
  glyph.2 && chars.contains glyph.1

/-- The characters without blanks at the ends and next to the characters of code given, and
with one blank for every other run of them. The flag says whether a blank here would count
for nothing. -/
def squeeze (tight : List Char) : Bool → List Glyph → List Char
  | _, [] => []
  | loose, glyph :: rest =>
    if glyph.isBlank then
      match rest with
      | [] => []
      | next :: _ =>
        if loose || next.isBlank || next.isCode tight then squeeze tight loose rest
        else ' ' :: squeeze tight true rest
    else glyph.1 :: squeeze tight (glyph.isCode tight) rest

/-- A rule with its declarations, a group of rules, or a statement. -/
inductive Rule where
  | style (selector : List Glyph) (declarations : List (List Glyph))
  | group (condition : List Glyph) (rules : List Rule)
  | statement (text : List Glyph)

/-! ### Reading -/

/-- The text up to the first of the characters of code given, and the text from there on. -/
def upTo (stops : List Char) (text : List Glyph) : List Glyph × List Glyph :=
  (text.takeWhile fun g => !g.isCode stops, text.dropWhile fun g => !g.isCode stops)

def allBlank (text : List Glyph) : Bool :=
  text.all Glyph.isBlank

def beginsWith (start : List Char) (text : List Glyph) : Bool :=
  start.isPrefixOf ((text.dropWhile Glyph.isBlank).map Prod.fst)

/-- The words that begin a group of rules. -/
def groupWords : List (List Char) :=
  ["@media".toList, "@supports".toList, "@layer".toList, "@container".toList]

/-- The declarations up to the end of their block, and the text behind it. A block may be
left open at the end of the text. -/
def declarations : Nat → List Glyph → Except String (List (List Glyph) × List Glyph)
  | 0, _ => .error "expected a shorter block"
  | fuel + 1, text => do
    let (declaration, rest) := upTo ['\x7b', '\x7d', ';'] text
    let keep (more : List (List Glyph)) : Except String (List (List Glyph)) :=
      if allBlank declaration then .ok more
      else if declaration.any (Glyph.isCode [':']) then .ok (declaration :: more)
      else .error "expected a declaration"
    match rest with
    | [] => return (← keep [], [])
    | (';', _) :: rest =>
      let (more, rest) ← declarations fuel rest
      return (← keep more, rest)
    | ('\x7d', _) :: rest => return (← keep [], rest)
    | _ => throw "unexpected block"

/-- The rules up to the end of the group that they are in, or up to the end of the text. -/
def rules : (fuel : Nat) → (inGroup : Bool) → List Glyph → Except String (List Rule × List Glyph)
  | 0, _, _ => .error "expected a shorter stylesheet"
  | fuel + 1, inGroup, text => do
    let (start, rest) := upTo ['\x7b', '\x7d', ';'] text
    match rest with
    | [] =>
      if allBlank start then return ([], [])
      else if beginsWith ['@'] start then return ([.statement start], [])
      else throw "unexpected end of the text"
    | ('\x7d', _) :: rest =>
      if inGroup && allBlank start then return ([], rest)
      else throw "unexpected closing brace"
    | (';', _) :: rest =>
      if beginsWith ['@'] start then
        let (more, rest) ← rules fuel inGroup rest
        return (.statement start :: more, rest)
      else throw "unexpected semicolon"
    | _ :: rest =>
      if groupWords.any fun word => beginsWith word start then
        let (inner, rest) ← rules fuel true rest
        let (more, rest) ← rules fuel inGroup rest
        return (.group start inner :: more, rest)
      else
        let (inner, rest) ← declarations (rest.length + 1) rest
        let (more, rest) ← rules fuel inGroup rest
        return (.style start inner :: more, rest)

/-! ### Writing -/

/-- A declaration without its colon's surroundings. -/
def writeDeclaration (declaration : List Glyph) : List Char :=
  let (name, value) := upTo [':'] declaration
  squeeze [] true name ++ ':' :: squeeze [',', '!'] true value.tail

def braced (start body : List Char) : List Char :=
  if body.isEmpty then [] else start ++ '\x7b' :: (body ++ ['\x7d'])

mutual

def Rule.write : Rule → List Char
  | .style selector declarations =>
    braced (squeeze [',', '>', '+', '~'] true selector)
      ([';'].intercalate (declarations.map writeDeclaration))
  | .group condition rules => braced (squeeze [',', ':'] true condition) (writeAll rules)
  | .statement text => squeeze [','] true text ++ [';']

def writeAll : List Rule → List Char
  | [] => []
  | rule :: rules => rule.write ++ writeAll rules

end

/-- A stylesheet written as short as its rules allow. -/
def minify (css : String) : Except String String := do
  let glyphs := withoutComments .code css.toList
  let (rules, _) ← rules (glyphs.length + 1) false glyphs
  return String.ofList (writeAll rules)

end SiteTree.Stylesheet
