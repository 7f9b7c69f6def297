import SiteTree.Json.Reader
import SiteTree.Template.Reference

/-!
# Reading expressions

Blanks may stand between any two parts of an expression, but not within a reference. All
readers answer what they have read and the text behind it; `fuel` bounds their nesting and is
never used up when it is twice the length of the text.
-/

namespace SiteTree.Template

/-! ### Literals

A literal is found by its outline, and must then be JSON; text in single quotes is JSON once
the quotes are exchanged. -/

/-- The text behind the quote that ends a string; a character behind a backslash ends
nothing. -/
def behindQuote? (quote : Char) : List Char → Option (List Char)
  | [] => none
  | '\\' :: _ :: rest => behindQuote? quote rest
  | c :: rest => if c = quote then some rest else behindQuote? quote rest

/-- The text behind a run of at least one digit. -/
def behindDigits? (text : List Char) : Option (List Char) :=
  if text.head?.any Char.isDigit then some (text.dropWhile Char.isDigit) else none

def skipMinus (text : List Char) : List Char :=
  (Text.after? ['-'] text).getD text

/-- The text behind a number, which no name character may follow. -/
def behindNumber? (text : List Char) : Option (List Char) := do
  let whole ← behindDigits? (skipMinus text)
  let fraction := ((Text.after? ['.'] whole).getD whole).dropWhile Char.isDigit
  let rest :=
    match fraction with
    | 'E' :: more => (behindDigits? (skipMinus more)).getD fraction
    | _ => fraction
  if rest.head?.any isNameChar then none else some rest

/-- The text behind a keyword, if the text begins with that and the keyword ends there. -/
def behindKeyword? (keyword : String) (text : List Char) : Option (List Char) :=
  (Text.after? keyword.toList text).filter fun rest => !(rest.head?.any isNameChar)

mutual

def behindLiteral? : Nat → List Char → Option (List Char)
  | 0, _ => none
  | fuel + 1, text =>
    match text with
    | '"' :: rest => behindQuote? '"' rest
    | '\'' :: rest => behindQuote? '\'' rest
    | '[' :: rest =>
      let items := skipSpace rest
      behindItems? fuel ((behindLiteral? fuel items).getD items)
    | '{' :: rest =>
      let fields := skipSpace rest
      behindFields? fuel ((behindField? fuel fields).getD fields)
    | _ =>
      (behindNumber? text).or <| (behindKeyword? "null" text).or <|
        (behindKeyword? "true" text).or (behindKeyword? "false" text)

/-- The text behind the items that follow the first one, and the closing bracket. -/
def behindItems? : Nat → List Char → Option (List Char)
  | 0, _ => none
  | fuel + 1, text =>
    match skipSpace text with
    | ']' :: rest => some rest
    | ',' :: rest => (behindLiteral? fuel (skipSpace rest)).bind (behindItems? fuel)
    | _ => none

def behindField? : Nat → List Char → Option (List Char)
  | 0, _ => none
  | fuel + 1, text => do
    let name ← match text with
      | '"' :: rest => behindQuote? '"' rest
      | '\'' :: rest => behindQuote? '\'' rest
      | _ => none
    let colon ← Text.after? [':'] (skipSpace name)
    behindLiteral? fuel (skipSpace colon)

/-- The text behind the fields that follow the first one, and the closing brace. -/
def behindFields? : Nat → List Char → Option (List Char)
  | 0, _ => none
  | fuel + 1, text =>
    match skipSpace text with
    | '}' :: rest => some rest
    | ',' :: rest => (behindField? fuel (skipSpace rest)).bind (behindFields? fuel)
    | _ => none

end

/-- Text between single quotes as it is written between double ones. -/
def exchangeQuotes : List Char → List Char
  | [] => []
  | '\\' :: '\'' :: rest => '\'' :: exchangeQuotes rest
  | '"' :: rest => '\\' :: '"' :: exchangeQuotes rest
  | c :: rest => c :: exchangeQuotes rest

/-- The value of a literal. -/
def literalValue? : List Char → Option Json
  | '\'' :: rest => Json.parse? (String.ofList ('"' :: exchangeQuotes rest.dropLast ++ ['"']))
  | text => Json.parse? (String.ofList text)

/-! ### Arguments and calls -/

/-- Does a keyword of the tags stand here? One that a further word follows is a name. -/
def atKeyword (text : List Char) : Bool :=
  ["as", "else"].any fun keyword =>
    (Text.after? keyword.toList text).any fun rest => !((skipSpace rest).head?.any isNameChar)

def Call.addArgument (call : Call) (argument : Expression) : Call :=
  { call with arguments := call.arguments ++ [argument] }

/-- Adds an argument that is given by name; of two with one name the last one counts. -/
def Call.addOption (call : Call) (name : String) (argument : Expression) : Call :=
  { call with options := (name, argument) :: call.options }

def Call.isBare (call : Call) : Bool :=
  call.arguments.isEmpty && call.options.isEmpty

mutual

def argument? : Nat → List Char → Option (Expression × List Char)
  | 0, _ => none
  | fuel + 1, text =>
    if atKeyword text then none
    else
      match behindLiteral? fuel text with
      | some rest =>
        (literalValue? (text.take (text.length - rest.length))).map fun value =>
          (.literal value, rest)
      | none =>
        match text with
        | '(' :: rest => nested? fuel rest
        | _ => (reference? text).map fun (reference, rest) => (.reference reference, rest)

/-- An argument with its name. -/
def option? : Nat → List Char → Option ((String × Expression) × List Char)
  | 0, _ => none
  | fuel + 1, text => do
    let (name, rest) ← word? text
    let rest ← Text.after? ['='] (skipSpace rest)
    let (argument, rest) ← argument? fuel (skipSpace rest)
    return ((name, argument), rest)

/-- Adds the arguments at the front of a text to a call. -/
def withArguments : Nat → Call → List Char → Call × List Char
  | 0, call, text => (call, text)
  | fuel + 1, call, text =>
    match option? fuel text with
    | some ((name, argument), rest) =>
      withArguments fuel (call.addOption name argument) (skipSpace rest)
    | none =>
      match argument? fuel text with
      | some (argument, rest) => withArguments fuel (call.addArgument argument) (skipSpace rest)
      | none => (call, text)

/-- A call between parentheses, of which the first has been read. The helper of a call without
arguments is written as a reference. -/
def nested? : Nat → List Char → Option (Expression × List Char)
  | 0, _ => none
  | fuel + 1, text => do
    let (call, rest) ← (callWithArguments? fuel (skipSpace text)).or <|
      (reference? (skipSpace text)).map fun (reference, rest) =>
        ({ helper := reference.word.getD "" }, rest)
    let rest ← Text.after? [')'] (skipSpace rest)
    return (call.expression, rest)

/-- A helper and at least one argument. -/
def callWithArguments? : Nat → List Char → Option (Call × List Char)
  | 0, _ => none
  | fuel + 1, text => do
    let (helper, rest) ← word? text
    let (call, rest) := withArguments fuel { helper } (skipSpace rest)
    if call.isBare then none else return (call, rest)

end

/-- Fuel for all that a text may hold. -/
def enough (text : List Char) : Nat :=
  2 * text.length + 2

/-- A helper and its arguments. -/
def call? (text : List Char) : Option (Call × List Char) := do
  let (helper, rest) ← word? text
  return withArguments (enough rest) { helper } (skipSpace rest)

/-- What names a value to be shown: a reference, or a call between parentheses. -/
def subject? (text : List Char) : Option (Expression × List Char) :=
  match text with
  | '(' :: rest => nested? (enough rest) rest
  | _ => (reference? text).map fun (reference, rest) => (.reference reference, rest)

/-! ### Names for what a block is shown for -/

/-- The names that a block gives: none, one or two. -/
def blockNames (text : List Char) : List String × List Char :=
  let named : Option (List String × List Char) := do
    let rest ← Text.after? "as".toList text
    let rest ← Text.after? ['|'] (skipSpace rest)
    let (first, rest) ← word? (skipSpace rest)
    match word? (skipSpace rest) with
    | some (second, rest) =>
      let rest ← Text.after? ['|'] (skipSpace rest)
      return ([first, second], rest)
    | none =>
      let rest ← Text.after? ['|'] (skipSpace rest)
      return ([first], rest)
  named.getD ([], text)

def blockCall? (text : List Char) : Option ((Call × List String) × List Char) := do
  let (call, rest) ← call? text
  let (names, rest) := blockNames rest
  return ((call, names), skipSpace rest)

end SiteTree.Template
