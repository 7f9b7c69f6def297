import SiteTree.Toml.Basic
import SiteTree.Text.Hex

/-!
# TOML strings, keys and comments

Readers of the smallest parts of a document. A reader takes its part off the front of a text
and answers it with the rest, or says what it expected.
-/

namespace SiteTree.Toml

/-- Takes a value off the front of a text, or fails with what was expected. -/
abbrev Reader (α : Type) := List Char → Except String (α × List Char)

/-! ### Blanks and comments -/

def isSpace (c : Char) : Bool :=
  c == ' ' || c == '\t'

def skipSpace (text : List Char) : List Char :=
  text.dropWhile isSpace

/-- May the character stand in comments and strings as it is? -/
def isPlain (c : Char) : Bool :=
  c == '\t' || (0x20 ≤ c.toNat && c.toNat != 0x7F)

/-- The text without a comment in front. -/
def skipComment : List Char → List Char
  | '#' :: rest => rest.dropWhile isPlain
  | text => text

/-- The text behind a line break, if it begins with one. -/
def afterBreak? : List Char → Option (List Char)
  | '\n' :: rest => some rest
  | '\r' :: '\n' :: rest => some rest
  | _ => none

/-- What follows the end of a line: blanks, a comment, and a line break or the end. -/
def endLine (text : List Char) : Except String (List Char) :=
  match skipComment (skipSpace text) with
  | [] => .ok []
  | text =>
    match afterBreak? text with
    | some rest => .ok rest
    | none => .error "expected the end of the line"

/-- Drops blanks, comments and line breaks. -/
def skipLines : Nat → List Char → List Char
  | 0, text => text
  | fuel + 1, text =>
    let text := skipComment (skipSpace text)
    match afterBreak? text with
    | some rest => skipLines fuel rest
    | none => text

/-! ### Strings -/

/-- The character with the given hexadecimal digits. -/
def codePoint (digits : List Char) : Except String Char := do
  let value ← digits.foldlM (fun n c =>
    match Text.hexValue? c with
    | some d => .ok (16 * n + d)
    | none => .error "expected a hexadecimal digit") 0
  if value < 0xD800 ∨ (0xDFFF < value ∧ value < 0x110000) then .ok (Char.ofNat value)
  else .error "expected a Unicode scalar value"

/-- The character that a letter behind a backslash stands for. -/
def simpleEscape (c : Char) : Except String Char :=
  match c with
  | 'b' => .ok '\x08'
  | 't' => .ok '\t'
  | 'n' => .ok '\n'
  | 'f' => .ok '\x0c'
  | 'r' => .ok '\r'
  | '"' => .ok '"'
  | '\\' => .ok '\\'
  | _ => .error "expected an escape sequence"

/-- Puts a character in front of what a reader of characters answers. -/
def consRead (c : Char) (read : Except String (List Char × List Char)) :
    Except String (List Char × List Char) :=
  read.map fun (text, rest) => (c :: text, rest)

/-- The rest of a string between double quotes on one line. -/
def basicRest : Reader (List Char)
  | [] => .error "expected a closing quote"
  | '"' :: rest => .ok ([], rest)
  | '\\' :: 'u' :: a :: b :: c :: d :: rest => do
    consRead (← codePoint [a, b, c, d]) (basicRest rest)
  | '\\' :: 'U' :: a :: b :: c :: d :: e :: f :: g :: h :: rest => do
    consRead (← codePoint [a, b, c, d, e, f, g, h]) (basicRest rest)
  | '\\' :: c :: rest => do consRead (← simpleEscape c) (basicRest rest)
  | c :: rest => if isPlain c then consRead c (basicRest rest) else .error "expected a character"

/-- The rest of a string between single quotes on one line. -/
def literalRest : Reader (List Char)
  | [] => .error "expected a closing quote"
  | '\'' :: rest => .ok ([], rest)
  | c :: rest =>
    if isPlain c then consRead c (literalRest rest) else .error "expected a character"

/-- Does the text go on with a line break, blanks apart? -/
def breaksLine (text : List Char) : Bool :=
  (afterBreak? (skipSpace text)).isSome

/-- The rest of a string between triple double quotes. Up to two quotes may stand in front of
the closing ones. While `trimming`, blanks and line breaks are left out: that is so behind a
backslash at the end of a line. -/
def basicLines : Bool → Reader (List Char)
  | _, [] => .error "expected closing quotes"
  | _, '"' :: '"' :: '"' :: '"' :: '"' :: rest => .ok (['"', '"'], rest)
  | _, '"' :: '"' :: '"' :: '"' :: rest => .ok (['"'], rest)
  | _, '"' :: '"' :: '"' :: rest => .ok ([], rest)
  | trimming, '\r' :: '\n' :: rest =>
    if trimming then basicLines true rest else consRead '\n' (basicLines false rest)
  | _, '\\' :: 'u' :: a :: b :: c :: d :: rest => do
    consRead (← codePoint [a, b, c, d]) (basicLines false rest)
  | _, '\\' :: 'U' :: a :: b :: c :: d :: e :: f :: g :: h :: rest => do
    consRead (← codePoint [a, b, c, d, e, f, g, h]) (basicLines false rest)
  | _, '\\' :: c :: rest => do
    if breaksLine (c :: rest) then basicLines true (c :: rest)
    else consRead (← simpleEscape c) (basicLines false rest)
  | trimming, c :: rest =>
    if trimming ∧ (isSpace c ∨ c = '\n') then basicLines true rest
    else if isPlain c ∨ c = '\n' then consRead c (basicLines false rest)
    else .error "expected a character"

/-- The rest of a string between triple single quotes. -/
def literalLines : Reader (List Char)
  | [] => .error "expected closing quotes"
  | '\'' :: '\'' :: '\'' :: '\'' :: '\'' :: rest => .ok (['\'', '\''], rest)
  | '\'' :: '\'' :: '\'' :: '\'' :: rest => .ok (['\''], rest)
  | '\'' :: '\'' :: '\'' :: rest => .ok ([], rest)
  | '\r' :: '\n' :: rest => consRead '\n' (literalLines rest)
  | c :: rest =>
    if isPlain c ∨ c = '\n' then consRead c (literalLines rest)
    else .error "expected a character"

/-- A line break right behind opening triple quotes does not count. -/
def afterOpening (text : List Char) : List Char :=
  (afterBreak? text).getD text

/-- A string in any of the four notations; `none` for a text that begins with no quote. -/
def quoted? (text : List Char) : Option (Except String (String × List Char)) :=
  let finish (read : Except String (List Char × List Char)) :=
    some (read.map fun (chars, rest) => (String.ofList chars, rest))
  match text with
  | '"' :: '"' :: '"' :: rest => finish (basicLines false (afterOpening rest))
  | '"' :: rest => finish (basicRest rest)
  | '\'' :: '\'' :: '\'' :: rest => finish (literalLines (afterOpening rest))
  | '\'' :: rest => finish (literalRest rest)
  | _ => none

/-! ### Keys -/

def isBareKeyChar (c : Char) : Bool :=
  c.isAlphanum || c == '_' || c == '-'

/-- One part of a key: bare, or a string on one line. -/
def keyPart : Reader String
  | '"' :: rest => (basicRest rest).map fun (chars, rest) => (String.ofList chars, rest)
  | '\'' :: rest => (literalRest rest).map fun (chars, rest) => (String.ofList chars, rest)
  | text =>
    match text.takeWhile isBareKeyChar with
    | [] => .error "expected a key"
    | chars => .ok (String.ofList chars, text.dropWhile isBareKeyChar)

/-- The parts of a key between dots, at least one, and the text behind it and its blanks. -/
def keyParts : Nat → Reader (List String)
  | 0, _ => .error "expected a shorter key"
  | fuel + 1, text => do
    let (part, rest) ← keyPart (skipSpace text)
    match skipSpace rest with
    | '.' :: rest =>
      let (parts, rest) ← keyParts fuel rest
      return (part :: parts, rest)
    | rest => return ([part], rest)

end SiteTree.Toml
