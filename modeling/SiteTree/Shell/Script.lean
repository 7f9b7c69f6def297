import SiteTree.Text.Utf8

/-!
# Shell scripts

A script works on bytes. They are written as the characters with the same numbers, so that
text that is no UTF-8 has its place among names and values.

A word keeps its quoting, and what is to be put in its place, until the script runs.
-/

namespace SiteTree.Shell

/-! ### Bytes as characters -/

def ofBytes (bytes : List UInt8) : String :=
  String.ofList (bytes.map Char.ofUInt8)

def toBytes (text : String) : List UInt8 :=
  text.toList.map fun c => c.toNat.toUInt8

/-- The bytes of a text from outside. -/
def ofText (text : String) : String :=
  ofBytes (Text.encodeUtf8 text)

/-- The text that bytes are read as outside. -/
def toText (text : String) : String :=
  Text.decodeUtf8Lossy (toBytes text)

/-! ### Commands and words -/

/-- What a file is opened for. -/
inductive FileMode where
  | read
  | write
  | append
  | readWrite
  deriving DecidableEq, Repr

mutual

/-- A stretch of a word. -/
inductive Piece where
  | text (quoted : Bool) (chars : List Char)
  | parameter (quoted : Bool) (name : String) (use : Use)
  /-- what a command writes -/
  | output (quoted : Bool) (command : Command)
  | arithmetic (quoted : Bool) (expression : List Piece)

/-- What is made of a parameter. -/
inductive Use where
  | value
  | length
  /-- a word for when the parameter has no value, or is empty and that counts as well; the
  form says what happens with the word -/
  | instead (form : Char) (emptyToo : Bool) (word : List Piece)
  /-- the value without what fits a pattern at its start or end -/
  | trimmed (atEnd longest : Bool) (pattern : List Piece)
  | bad

/-- Where a stream comes from or goes. -/
inductive Redirection where
  | file (mode : FileMode) (stream : Nat) (name : List Piece)
  /-- to where another stream goes, or nowhere -/
  | copy (stream : Nat) (source : List Piece)
  /-- from a text in the script -/
  | document (stream : Nat) (content : List Piece)

inductive Command where
  | nothing
  | simple (line : Nat) (assignments : List (String × List Piece)) (words : List (List Piece))
      (redirections : List Redirection)
  | redirected (line : Nat) (body : Command) (redirections : List Redirection)
  | subshell (line : Nat) (body : Command)
  | background (body : Command)
  | pipeline (commands : List Command)
  | negation (body : Command)
  | sequence (first second : Command)
  | both (first second : Command)
  | either (first second : Command)
  | branch (condition body otherwise : Command)
  /-- repeats its body while its condition succeeds, or until it does -/
  | loop (untilSuccess : Bool) (condition body : Command)
  | each (line : Nat) (name : String) (words : List (List Piece)) (body : Command)
  | select (line : Nat) (subject : List Piece) (arms : List (List (List Piece) × Command))
  | define (name : String) (body : Command)

end

instance : Inhabited Command := ⟨.nothing⟩

abbrev Word := List Piece

/-! ### Characters -/

def isNameStart (c : Char) : Bool :=
  c.isAlpha || c == '_'

def isNameChar (c : Char) : Bool :=
  c.isAlphanum || c == '_'

/-- Is the text the name of a binding? -/
def isName (text : List Char) : Bool :=
  text.head?.any isNameStart && text.all isNameChar

end SiteTree.Shell
