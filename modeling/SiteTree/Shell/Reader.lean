import SiteTree.Shell.Script

/-!
# Reading scripts

A script is read command by command, so that what stands before a mistake has run when the
mistake is found. The readers of commands and of words need each other; here each is given
the other for what is nested, and `Reader.read` ties them together.
-/

namespace SiteTree.Shell

inductive Token where
  | ending
  | newline
  | sign (text : String)
  | word (word : Word)
  | redirection (redirection : Redirection)

/-- What is left of a script. -/
structure Source where
  text : List Char
  line : Nat := 1
  /-- lines that have been read ahead of the end of the line at hand -/
  owed : Nat := 0
  /-- a token that stands before the text -/
  ahead : Option Token := none
  /-- texts that are read in the place of words where commands begin -/
  aliases : List (String × List Char) := []
  /-- the aliases in whose texts the reading is, and how much text stands behind each -/
  replaced : List (String × Nat) := []

/-- A mistake in a script, and the line it is found in. -/
structure Mistake where
  line : Nat
  message : String

abbrev Reader (α : Type) := StateT Source (Except Mistake) α

namespace Reader

def fail {α : Type} (message : String) : Reader α := do
  throw ⟨(← get).line, "Syntax error: " ++ message⟩

def rest : Reader (List Char) := do
  return (← get).text

/-- Goes on behind some characters, none of which ends a line. -/
def goOn (text : List Char) : Reader Unit :=
  modify fun source => { source with text }

/-- Goes on behind the end of a line. -/
def nextLine (text : List Char) : Reader Unit :=
  modify fun source => { source with text, line := source.line + 1 + source.owed, owed := 0 }

/-- Goes on behind a character. -/
def goOnBehind (c : Char) (text : List Char) : Reader Unit :=
  if c = '\n' then nextLine text else goOn text

/-! ### Words -/

/-- Where a word or a part of one stands. -/
inductive Place where
  | bare
  | doubleQuotes
  /-- within the braces of a parameter -/
  | braces
  | bracesInQuotes
  /-- a text in the script -/
  | document
  /-- within so many parentheses of an arithmetic expression -/
  | arithmetic (depth : Nat)
  deriving DecidableEq, Repr

def Place.isQuoted : Place → Bool
  | .bare => false
  | .braces => false
  | _ => true

def isBlank (c : Char) : Bool :=
  c == ' ' || c == '\t'

/-- Does the character end a word? -/
def isMeta (c : Char) : Bool :=
  " \t\n;&|<>()".toList.contains c

/-- Does a backslash in quotes take the meaning of the character away? -/
def Place.escapes (place : Place) (c : Char) : Bool :=
  c == '$' || c == '\\' || c == '\x60'
    || (c == '"' && place != .document)
    || (c == '\x7d' && place == .bracesInQuotes)

/-- Puts a character in front of a word. -/
def consChar (quoted : Bool) (c : Char) : Word → Word
  | .text quoted' chars :: word =>
    if quoted = quoted' ∧ !(quoted && chars.isEmpty) then .text quoted (c :: chars) :: word
    else .text quoted [c] :: .text quoted' chars :: word
  | word => .text quoted [c] :: word

/-- The characters up to the quote that ends them. -/
def singleQuoted (chars : List Char) : Reader (List Char) := do
  match chars.dropWhile (· != '\'') with
  | [] =>
    modify fun source => { source with text := [], line := source.line + chars.count '\n' }
    fail "Unterminated quoted string"
  | _ :: rest =>
    let inside := chars.takeWhile (· != '\'')
    modify fun source =>
      { source with text := rest, line := source.line + inside.count '\n' }
    return inside

/-- The characters up to the mark that ends a command in the old style, with its backslashes
undone. -/
def backquoted (inQuotes : Bool) : List Char → Option (List Char × List Char)
  | [] => none
  | '\x60' :: rest => some ([], rest)
  | '\\' :: c :: rest =>
    let undone := c == '\\' || c == '$' || c == '\x60' || (inQuotes && c == '"')
    (backquoted inQuotes rest).map fun (inside, rest) =>
      (if undone then c :: inside else '\\' :: c :: inside, rest)
  | c :: rest => (backquoted inQuotes rest).map fun (inside, rest) => (c :: inside, rest)

/-- Is this, in double quotes alone, the list of all arguments? It then has as many fields as
there are arguments, be it none. -/
def isAllArguments : Word → Bool
  | [.parameter true "@" .value] => true
  | _ => false

/-- The name of a parameter in braces and whether its length is asked for; `none` for what
names no parameter. -/
def bracedName (text : List Char) : Option (String × Bool × List Char) :=
  let isSpecial (c : Char) : Bool := "@*#?-$!".toList.contains c || c.isDigit
  let plain (text : List Char) : Option (String × List Char) :=
    match text with
    | c :: rest =>
      if isNameStart c then
        some (String.ofList (text.takeWhile isNameChar), text.dropWhile isNameChar)
      else if c.isDigit then
        some (String.ofList (text.takeWhile Char.isDigit), text.dropWhile Char.isDigit)
      else if isSpecial c then some (String.ofList [c], rest)
      else none
    | [] => none
  match text with
  | '#' :: '\x7d' :: rest => some ("#", false, '\x7d' :: rest)
  | '#' :: c :: rest =>
    if isNameChar c then (plain (c :: rest)).map fun (name, rest) => (name, true, rest)
    else if rest.head? = some '\x7d' then
      if isSpecial c then some (String.ofList [c], true, rest) else none
    else some ("#", false, c :: rest)
  | _ => (plain text).map fun (name, rest) => (name, false, rest)

/-- A parameter in braces of which the closing brace stands behind a colon; it does not close
them. The answer is the name and what follows the brace. -/
def unfinished? (text : List Char) : Option (String × List Char) :=
  match bracedName text with
  | some (name, false, ':' :: '\x7d' :: behind) => some (name, behind)
  | _ => none

/-- The place within the braces of a parameter. -/
def innerPlace (place : Place) : Place :=
  if place.isQuoted then .bracesInQuotes else .braces

/-- Counts the ends of lines in the characters between two points of the source. -/
def goTo (text : List Char) : Reader Unit :=
  modify fun source =>
    let passed := source.text.take (source.text.length - text.length)
    { source with text, line := source.line + passed.count '\n' }

/-- Reads the pieces of a word up to the end of the place it stands in, which is left there.
`command` reads a nested command with the parenthesis behind it. -/
def pieces (command : Reader Command) : Nat → Place → Reader Word
  | 0, _ => fail "script too long"
  | fuel + 1, place => do
    match ← rest with
    | [] =>
      match place with
      | .bare => return []
      | .document => return []
      | .doubleQuotes => fail "Unterminated quoted string"
      | .arithmetic _ => fail "Missing '))'"
      | _ => fail "Missing '\x7d'"
    | '\\' :: '\n' :: text =>
      nextLine text
      pieces command fuel place
    | '\\' :: c :: text =>
      goOnBehind c text
      let word ← pieces command fuel place
      if !place.isQuoted then return .text true [c] :: word
      else if place.escapes c then return consChar true c word
      else return consChar true '\\' (consChar true c word)
    | '$' :: '(' :: '(' :: text =>
      goOn text
      let expression ← pieces command fuel (.arithmetic 0)
      let text ← rest
      goOn (text.drop 2)
      return .arithmetic place.isQuoted expression :: (← pieces command fuel place)
    | '$' :: '(' :: text =>
      goOn text
      let inner ← command
      return .output place.isQuoted inner :: (← pieces command fuel place)
    | '$' :: '\x7b' :: text =>
      match unfinished? text with
      | some (name, behind) =>
        goOn behind
        let inside ← pieces command fuel (innerPlace place)
        goOn (← rest).tail
        -- what stands behind such a parameter is lost
        let _ ← pieces command fuel place
        return .parameter place.isQuoted name .value :: inside
      | none =>
        goOn text
        let piece ← braced fuel place
        return piece :: (← pieces command fuel place)
    | '$' :: c :: text =>
      if isNameStart c then
        goOn (text.dropWhile isNameChar)
        let name := String.ofList (c :: text.takeWhile isNameChar)
        return .parameter place.isQuoted name .value :: (← pieces command fuel place)
      else if "@*#?-$!".toList.contains c || c.isDigit then
        goOn text
        return .parameter place.isQuoted (String.ofList [c]) .value
          :: (← pieces command fuel place)
      else
        goOn (c :: text)
        return consChar place.isQuoted '$' (← pieces command fuel place)
    | '\x60' :: text =>
      match backquoted place.isQuoted text with
      | none => fail "EOF in backquote substitution"
      | some (inside, behind) =>
        goTo behind
        let outer ← get
        set { outer with text := inside ++ [')'] }
        let inner ← command
        set outer
        return .output place.isQuoted inner :: (← pieces command fuel place)
    | c :: text =>
      match place with
      | .bare =>
        if isMeta c then return []
        else if c = '\'' then
          goOn text
          let inside ← singleQuoted text
          return .text true inside :: (← pieces command fuel place)
        else if c = '"' then doubleQuoted fuel place text
        else
          goOn text
          return consChar false c (← pieces command fuel place)
      | .braces =>
        if c = '\x7d' then return []
        else if c = '\'' then
          goOn text
          let inside ← singleQuoted text
          return .text true inside :: (← pieces command fuel place)
        else if c = '"' then doubleQuoted fuel place text
        else
          goOnBehind c text
          return consChar false c (← pieces command fuel place)
      | .doubleQuotes =>
        if c = '"' then return []
        else
          goOnBehind c text
          return consChar true c (← pieces command fuel place)
      | .bracesInQuotes =>
        if c = '\x7d' then return []
        else
          goOnBehind c text
          let word ← pieces command fuel place
          return if c = '"' then word else consChar true c word
      | .document =>
        goOnBehind c text
        return consChar true c (← pieces command fuel place)
      | .arithmetic depth =>
        match c, depth, text with
        | ')', 0, ')' :: _ => return []
        | ')', depth, _ =>
          goOn text
          return consChar true c (← pieces command fuel (.arithmetic (depth - 1)))
        | '(', depth, _ =>
          goOn text
          return consChar true c (← pieces command fuel (.arithmetic (depth + 1)))
        | _, _, _ =>
          goOnBehind c text
          return consChar true c (← pieces command fuel place)
where
  /-- Reads on behind a double quote. -/
  doubleQuoted (fuel : Nat) (place : Place) (text : List Char) : Reader Word := do
    goOn text
    let inside ← pieces command fuel .doubleQuotes
    goOn (← rest).tail
    let behind ← pieces command fuel place
    return if isAllArguments inside then inside ++ behind
      else .text true [] :: (inside ++ behind)
  /-- Reads a parameter on behind its opening brace. -/
  braced (fuel : Nat) (place : Place) : Reader Piece := do
    let quoted := place.isQuoted
    let inner := innerPlace place
    let text ← rest
    let close (name : String) (use : Use) : Reader Piece := do
      goOn (← rest).tail
      return .parameter quoted name use
    match bracedName text with
    | none =>
      let _ ← pieces command fuel inner
      close "" .bad
    | some (name, length, text) =>
      goOn text
      match length, text with
      | true, '\x7d' :: _ => close name .length
      | true, _ =>
        let _ ← pieces command fuel inner
        close "" .bad
      | false, '\x7d' :: _ => close name .value
      | false, ':' :: c :: text =>
        if "-+?=".toList.contains c then
          goOn text
          close name (.instead c true (← pieces command fuel inner))
        else
          let _ ← pieces command fuel inner
          close "" .bad
      | false, c :: text =>
        if "-+?=".toList.contains c then
          goOn text
          close name (.instead c false (← pieces command fuel inner))
        else if c = '#' ∨ c = '%' then
          let longest := text.head? = some c
          goOn (if longest then text.tail else text)
          close name (.trimmed (c = '%') longest (← pieces command fuel .braces))
        else
          let _ ← pieces command fuel inner
          close "" .bad
      | false, [] => fail "Missing '\x7d'"

/-! ### Tokens -/

def keywords : List String :=
  ["!", "case", "do", "done", "elif", "else", "esac", "fi", "for", "if", "in", "then",
    "until", "while", "\x7b", "\x7d"]

/-- The keyword that a token is where keywords are looked for. -/
def keyword? : Token → Option String
  | .word [.text false chars] =>
    let text := String.ofList chars
    if keywords.contains text then some text else none
  | _ => none

/-- How a message names a token. -/
def shown (token : Token) : String :=
  match token, keyword? token with
  | _, some keyword => "\"" ++ keyword ++ "\""
  | .ending, _ => "end of file"
  | .newline, _ => "newline"
  | .sign text, _ => "\"" ++ text ++ "\""
  | .word _, _ => "word"
  | .redirection _, _ => "redirection"

def unexpected {α : Type} (token : Token) : Reader α :=
  fail (shown token ++ " unexpected")

/-- A token other than the one that is needed. -/
def unexpectedFor {α : Type} (token : Token) (needed : String) : Reader α :=
  fail (shown token ++ " unexpected (expecting " ++ needed ++ ")")

/-- Reads past blanks, joined lines and a comment. -/
def skipBlanks : Nat → Reader Unit
  | 0 => pure ()
  | fuel + 1 => do
    match ← rest with
    | '\\' :: '\n' :: text =>
      nextLine text
      skipBlanks fuel
    | '#' :: text => goOn (text.dropWhile (· != '\n'))
    | c :: text =>
      if isBlank c then
        goOn text
        skipBlanks fuel
    | [] => pure ()

/-- Complains about the sign that a text begins with. -/
def misplacedSign {α : Type} (text : List Char) : Reader α :=
  match text with
  | '<' :: _ => fail "redirection unexpected"
  | '>' :: _ => fail "redirection unexpected"
  | '&' :: '&' :: _ => unexpected (.sign "&&")
  | '|' :: '|' :: _ => unexpected (.sign "||")
  | ';' :: ';' :: _ => unexpected (.sign ";;")
  | text => unexpected (.sign (String.ofList (text.take 1)))

/-- A bare word; there must be one. -/
def bareWord (command : Reader Command) : Reader Word := do
  let text ← rest
  skipBlanks (text.length + 1)
  match ← rest with
  | [] => unexpected .ending
  | '\n' :: _ => unexpected .newline
  | c :: _ =>
    if isMeta c then misplacedSign (← rest)
    else pieces command (text.length + 1) .bare

/-- The text that a word is written with, its quoting undone, and whether it had any. -/
def plainText : Word → List Char × Bool
  | [] => ([], false)
  | piece :: word =>
    let (more, quoted) := plainText word
    match piece with
    | .text quoted' chars => (chars ++ more, quoted || quoted')
    | _ => (more, quoted)

/-- A text in the script up to the line that ends it, and what follows that. -/
def documentText (tabs : Bool) (ending : List Char) : Nat → List Char → List Char × List Char
  | 0, text => ([], text)
  | _, [] => ([], [])
  | fuel + 1, text =>
    let line := text.takeWhile (· != '\n')
    let behind := text.dropWhile (· != '\n')
    let line := if tabs then line.dropWhile (· == '\t') else line
    if line = ending then ([], behind.tail)
    else if behind.isEmpty then (line, [])
    else
      let (more, behind) := documentText tabs ending fuel behind.tail
      (line ++ '\n' :: more, behind)

/-- Takes the text that begins on the next line out of the script. -/
def document (command : Reader Command) (stream : Nat) (tabs : Bool) : Reader Redirection := do
  let (ending, quoted) := plainText (← bareWord command)
  let text ← rest
  let here := text.takeWhile (· != '\n')
  let below := (text.dropWhile (· != '\n')).tail
  let (content, behind) := documentText tabs ending (below.length + 1) below
  let passed := (below.take (below.length - behind.length)).count '\n'
  let outer ← get
  let onward : Source :=
    { outer with text := here ++ '\n' :: behind, owed := outer.owed + passed }
  if quoted then
    set onward
    return .document stream [.text true content]
  else
    set { outer with text := content, line := outer.line + outer.owed + 1, owed := 0 }
    let word ← pieces command (content.length + 1) .document
    set onward
    return .document stream word

/-- Reads a redirection from behind its stream. -/
def redirection (command : Reader Command) (stream : Option Nat) (text : List Char) :
    Reader Redirection := do
  let file (mode : FileMode) (default : Nat) (text : List Char) : Reader Redirection := do
    goOn text
    return .file mode (stream.getD default) (← bareWord command)
  let copy (default : Nat) (text : List Char) : Reader Redirection := do
    goOn text
    let source ← bareWord command
    match source with
    | [.text _ [c]] =>
      if c.isDigit ∨ c = '-' then return .copy (stream.getD default) source
      else fail "Bad fd number"
    | [.text _ _] => fail "Bad fd number"
    | _ => return .copy (stream.getD default) source
  match text with
  | '<' :: '<' :: '-' :: text =>
    goOn text
    document command (stream.getD 0) true
  | '<' :: '<' :: text =>
    goOn text
    document command (stream.getD 0) false
  | '<' :: '&' :: text => copy 0 text
  | '<' :: '>' :: text => file .readWrite 0 text
  | '<' :: text => file .read 0 text
  | '>' :: '>' :: text => file .append 1 text
  | '>' :: '&' :: text => copy 1 text
  | '>' :: '|' :: text => file .write 1 text
  | '>' :: text => file .write 1 text
  | _ => fail "redirection expected"

def token (command : Reader Command) : Reader Token := do
  skipBlanks ((← rest).length + 1)
  let sign (name : String) (text : List Char) : Reader Token := do
    goOn text
    return .sign name
  match ← rest with
  | [] => return .ending
  | '\n' :: text =>
    nextLine text
    return .newline
  | '&' :: '&' :: text => sign "&&" text
  | '&' :: text => sign "&" text
  | '|' :: '|' :: text => sign "||" text
  | '|' :: text => sign "|" text
  | ';' :: ';' :: text => sign ";;" text
  | ';' :: text => sign ";" text
  | '(' :: text => sign "(" text
  | ')' :: text => sign ")" text
  | c :: text =>
    if c = '<' ∨ c = '>' then return .redirection (← redirection command none (c :: text))
    else
      let stream :=
        match c.isDigit, text.head? with
        | true, some d => if d = '<' ∨ d = '>' then some (c.toNat - '0'.toNat) else none
        | _, _ => none
      match stream with
      | some stream => return .redirection (← redirection command (some stream) text)
      | none => return .word (← pieces command (text.length + 2) .bare)

def next (command : Reader Command) : Reader Token := do
  match (← get).ahead with
  | some token =>
    modify fun source => { source with ahead := none }
    return token
  | none => token command

def putBack (token : Token) : Reader Unit :=
  modify fun source => { source with ahead := some token }

/-- The next token that is no end of a line. -/
def nextPastLines (command : Reader Command) : Nat → Reader Token
  | 0 => return .ending
  | fuel + 1 => do
    match ← next command with
    | .newline => nextPastLines command fuel
    | token => return token

/-- A token where a command begins, with the text of an alias read in its place. -/
def withoutAlias (command : Reader Command) : Nat → Token → Reader Token
  | 0, token => return token
  | fuel + 1, token => do
    match token, keyword? token with
    | .word [.text false chars], none =>
      let source ← get
      let name := String.ofList chars
      let left := source.text.length
      let inside := source.replaced.filter fun entry => entry.2 < left
      match source.aliases.lookup name with
      | none => return token
      | some text =>
        if inside.any fun entry => entry.1 == name then return token
        else
          set { source with text := text ++ source.text, replaced := (name, left) :: inside }
          withoutAlias command fuel (← next command)
    | _, _ => return token

/-! ### Commands -/

/-- What can be read. -/
inductive Goal where
  /-- the commands of a line; a command that goes on is read to its end -/
  | line
  /-- commands up to a word or sign that ends them -/
  | body
  /-- such commands, of which there can be none -/
  | optional
  /-- such commands with a parenthesis behind them -/
  | nested
  | command
  deriving DecidableEq, Repr

/-- The readers of what is nested. At the end of a script there are no more commands. -/
abbrev Again := Goal → Reader (Option Command)

def Again.one (again : Again) (goal : Goal) : Reader Command := do
  return (← again goal).getD .nothing

/-- Reads past ends of lines. -/
def Again.pastLines (again : Again) : Reader Token := do
  nextPastLines (again.one .nested) ((← rest).length + 2)

def Again.next (again : Again) : Reader Token :=
  Reader.next (again.one .nested)

/-- The token that a command begins with. -/
def Again.first (again : Again) (token : Token) : Reader Token := do
  withoutAlias (again.one .nested) ((← get).aliases.length + 1) token

/-- Reads a token that must be a given keyword. -/
def Again.expect (again : Again) (keyword : String) : Reader Unit := do
  let token ← again.next
  if keyword? token != some keyword then unexpectedFor token ("\"" ++ keyword ++ "\"")

/-- Does the token end the commands before it? -/
def endsCommands (token : Token) : Bool :=
  match token, keyword? token with
  | _, some keyword =>
    ["do", "done", "elif", "else", "esac", "fi", "then", "\x7d"].contains keyword
  | .ending, _ => true
  | .sign text, _ => text == ")" || text == ";;"
  | _, _ => false

/-- An assignment: the name and the word for its value. -/
def assignment? : Word → Option (String × Word)
  | .text false chars :: word =>
    let name := chars.takeWhile isNameChar
    match chars.dropWhile isNameChar with
    | '=' :: value =>
      if isName name then
        some (String.ofList name, if value.isEmpty then word else .text false value :: word)
      else none
    | _ => none
  | _ => none

/-- The commands that no function can have the name of. -/
def specialCommands : List String :=
  [".", ":", "break", "continue", "eval", "exec", "exit", "export", "local", "readonly",
    "return", "set", "shift", "times", "trap", "unset"]

/-- A name that stands for itself. -/
def plainName? : Word → Option String
  | [.text false chars] => if isName chars then some (String.ofList chars) else none
  | _ => none

/-- Reads a simple command, or the definition of a function. All parts read so far are given,
the last first. -/
def simple (again : Again) (line : Nat) : Nat → List (String × Word) → List Word →
    List Redirection → Reader Command
  | 0, _, _, _ => fail "script too long"
  | fuel + 1, assignments, words, redirections => do
    let finish : Reader Command :=
      return .simple line assignments.reverse words.reverse redirections.reverse
    let token ← again.next
    let token ← if words.isEmpty then again.first token else pure token
    match token with
    | .word word =>
      match words, assignment? word with
      | [], some assignment =>
        simple again line fuel (assignment :: assignments) words redirections
      | _, _ => simple again line fuel assignments (word :: words) redirections
    | .redirection redirection =>
      simple again line fuel assignments words (redirection :: redirections)
    | .sign "(" =>
      match assignments, words, redirections with
      | [], [word], [] =>
        match ← again.next with
        | .sign ")" =>
          match plainName? word with
          | some name =>
            if specialCommands.contains name then fail "Bad function name"
            else return .define name (← again.one .command)
          | none => fail "Bad function name"
        | token => unexpectedFor token "\")\""
      | _, _, _ =>
        putBack token
        finish
    | _ =>
      putBack token
      finish

/-- Reads redirections behind a command. -/
def redirections (again : Again) : Nat → Reader (List Redirection)
  | 0 => return []
  | fuel + 1 => do
    match ← again.next with
    | .redirection redirection => return redirection :: (← redirections again fuel)
    | token =>
      putBack token
      return []

/-- Reads the rest of a branch behind its first keyword. -/
def branch (again : Again) : Nat → Reader Command
  | 0 => fail "script too long"
  | fuel + 1 => do
    let condition ← again.one .body
    again.expect "then"
    let body ← again.one .body
    let token ← again.next
    match keyword? token with
    | some "elif" => return .branch condition body (← branch again fuel)
    | some "else" =>
      let otherwise ← again.one .body
      again.expect "fi"
      return .branch condition body otherwise
    | some "fi" => return .branch condition body .nothing
    | _ => unexpectedFor token "\"fi\""

/-- Reads words up to another token. -/
def wordsUpTo (again : Again) : Nat → Reader (List Word × Token)
  | 0 => return ([], .ending)
  | fuel + 1 => do
    match ← again.next with
    | .word word =>
      let (words, token) ← wordsUpTo again fuel
      return (word :: words, token)
    | token => return ([], token)

/-- Reads a loop over words behind its keyword. -/
def each (again : Again) (line : Nat) : Reader Command := do
  let variableName ←
    match ← again.next with
    | .word word => pure (plainName? word)
    | _ => pure none
  match variableName with
  | none => fail "Bad for loop variable"
  | some name =>
    let token ← again.pastLines
    let words ←
      if keyword? token = some "in" then do
        let (words, token) ← wordsUpTo again ((← rest).length + 2)
        match token with
        | .newline => pure words
        | .sign ";" => pure words
        | token => unexpected token
      else do
        match token with
        | .sign ";" => pure ()
        | token => putBack token
        pure [[.parameter true "@" .value]]
    let token ← again.pastLines
    if keyword? token != some "do" then unexpectedFor token "\"do\""
    let body ← again.one .body
    again.expect "done"
    return .each line name words body

/-- Reads the patterns of an arm, of which the first token has been read. -/
def patterns (again : Again) (token : Token) : Nat → Reader (List Word)
  | 0 => fail "script too long"
  | fuel + 1 => do
    let pattern : Word :=
      match token with
      | .word word => word
      | _ => []
    match ← again.next with
    | .sign "|" => return pattern :: (← patterns again (← again.next) fuel)
    | .sign ")" => return [pattern]
    | token => unexpectedFor token "\")\""

/-- Reads the arms of a selection and the keyword behind them. -/
def arms (again : Again) : Nat → Reader (List (List Word × Command))
  | 0 => fail "script too long"
  | fuel + 1 => do
    let token ← again.pastLines
    if keyword? token = some "esac" then return []
    else
      let first ←
        match token with
        | .sign "(" => again.next
        | token => pure token
      let patterns ← patterns again first ((← rest).length + 2)
      let body ← again.one .optional
      let token ← again.pastLines
      match keyword? token, token with
      | some "esac", _ => return [(patterns, body)]
      | _, .sign ";;" => return (patterns, body) :: (← arms again fuel)
      | _, token => unexpectedFor token "\";;\""

def select (again : Again) (line : Nat) : Reader Command := do
  match ← again.next with
  | .word subject =>
    let token ← again.pastLines
    if keyword? token != some "in" then unexpectedFor token "\"in\""
    return .select line subject (← arms again ((← rest).length + 2))
  | token => unexpectedFor token "word"

/-- Reads a command of which the first token has been read. -/
def commandFrom (again : Again) (token : Token) : Reader Command := do
  let line := (← get).line
  let size := (← rest).length + 2
  let redirected (body : Reader Command) : Reader Command := do
    let body ← body
    match ← redirections again size with
    | [] => return body
    | redirections => return .redirected line body redirections
  let loop (untilSuccess : Bool) : Reader Command := do
    let condition ← again.one .body
    again.expect "do"
    let body ← again.one .body
    again.expect "done"
    return .loop untilSuccess condition body
  match keyword? token, token with
  | some "if", _ => redirected (branch again size)
  | some "while", _ => redirected (loop false)
  | some "until", _ => redirected (loop true)
  | some "for", _ => redirected (each again line)
  | some "case", _ => redirected (select again line)
  | some "\x7b", _ => redirected do
    let body ← again.one .body
    again.expect "\x7d"
    return body
  | some _, _ => unexpected token
  | none, .sign "(" => redirected do
    let body ← again.one .body
    match ← again.next with
    | .sign ")" => return .subshell line body
    | token => unexpectedFor token "\")\""
  | none, .word _ =>
    putBack token
    simple again line size [] [] []
  | none, .redirection _ =>
    putBack token
    simple again line size [] [] []
  | none, _ => unexpected token

/-- Reads the commands behind the first one of a pipeline. -/
def pipelineRest (again : Again) : Nat → Reader (List Command)
  | 0 => return []
  | fuel + 1 => do
    match ← again.next with
    | .sign "|" =>
      let command ← commandFrom again (← again.first (← again.pastLines))
      return command :: (← pipelineRest again fuel)
    | token =>
      putBack token
      return []

/-- Reads a pipeline of which the first token has been read. -/
def pipelineFrom (again : Again) (token : Token) : Reader Command := do
  let pipeline (token : Token) : Reader Command := do
    let first ← commandFrom again token
    match ← pipelineRest again ((← rest).length + 2) with
    | [] => return first
    | more => return .pipeline (first :: more)
  if keyword? token = some "!" then
    return .negation (← pipeline (← again.first (← again.next)))
  else pipeline token

/-- Reads on behind a pipeline, as long as others follow under a condition. -/
def andOrRest (again : Again) : Nat → Command → Reader Command
  | 0, first => return first
  | fuel + 1, first => do
    match ← again.next with
    | .sign "&&" =>
      let second ← pipelineFrom again (← again.first (← again.pastLines))
      andOrRest again fuel (.both first second)
    | .sign "||" =>
      let second ← pipelineFrom again (← again.first (← again.pastLines))
      andOrRest again fuel (.either first second)
    | token =>
      putBack token
      return first

def inSequence : Option Command → Command → Command
  | none, second => second
  | some first, second => .sequence first second

/-- Reads commands one after the other; `read` are those that have been read. -/
def commands (again : Again) (goal : Goal) : Nat → Option Command → Reader (Option Command)
  | 0, _ => fail "script too long"
  | fuel + 1, read => do
    let token ← again.first (← if goal = .line then again.next else again.pastLines)
    match token, goal with
    | .newline, _ => return some (read.getD .nothing)
    | .ending, .line =>
      putBack .ending
      return read
    | .ending, _ =>
      putBack .ending
      return some (read.getD .nothing)
    | _, _ =>
      if goal ≠ .line ∧ (read.isSome ∨ goal = .optional) ∧ endsCommands token then
        putBack token
        return read
      else
        let first ← pipelineFrom again token
        let command ← andOrRest again ((← rest).length + 2) first
        match ← again.next with
        | .sign ";" => commands again goal fuel (some (inSequence read command))
        | .sign "&" =>
          commands again goal fuel (some (inSequence read (.background command)))
        | .newline =>
          putBack .newline
          commands again goal fuel (some (inSequence read command))
        | .ending =>
          putBack .ending
          return some (inSequence read command)
        | token =>
          if goal = .line then unexpected token
          else
            putBack token
            return some (inSequence read command)

/-- The readers, with fuel for what is nested. -/
def read : Nat → Again
  | 0, _ => fail "script too long"
  | fuel + 1, goal => do
    let again := read fuel
    let size := (← rest).length + 2
    match goal with
    | .nested =>
      let command ← commands again .optional size none
      match ← again.next with
      | .sign ")" => return some (command.getD .nothing)
      | token => unexpectedFor token "\")\""
    | .command => return some (← commandFrom again (← again.pastLines))
    | goal => commands again goal size none

/-- The commands of the next line; `none` at the end of the script. -/
def nextCommand (source : Source) : Except Mistake (Option Command × Source) :=
  (read (source.text.length + 2) .line).run source

/-- The word that a text is within quotes that end with the text. -/
def documentWord (text : String) : Option Word :=
  let chars := text.toList
  let command := (read (chars.length + 2)).one .nested
  match (pieces command (chars.length + 1) .document).run { text := chars } with
  | .ok (word, _) => some word
  | .error _ => none

end Reader

end SiteTree.Shell
