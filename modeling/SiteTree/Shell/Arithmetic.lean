import SiteTree.Shell.Script

/-!
# Arithmetic

Expressions over numbers of 64 bits with a sign. Reading one and computing it are two steps;
a name stands for the number that the variable of this name writes.
-/

namespace SiteTree.Shell.Arithmetic

inductive Expression where
  | number (value : Int)
  | name (name : String)
  | negated (operand : Expression)
  | complement (operand : Expression)
  | opposite (operand : Expression)
  | binary (operator : String) (left right : Expression)
  | both (left right : Expression)
  | either (left right : Expression)
  | choice (condition first second : Expression)
  /-- gives a variable a value, computed from the one it has if there is an operator -/
  | assign (name : String) (operator : Option String) (value : Expression)

/-! ### Reading -/

inductive Token where
  | number (value : Int)
  | name (name : String)
  | sign (text : String)
  deriving DecidableEq, Repr

/-- Why an expression is none. -/
inductive Fault where
  | primary
  | ending
  | colon
  | parenthesis
  | zero
  deriving DecidableEq, Repr

def Fault.message : Fault → String
  | .primary => "expecting primary"
  | .ending => "expecting EOF"
  | .colon => "expecting ':'"
  | .parenthesis => "expecting ')'"
  | .zero => "division by zero"

/-- The number of 64 bits with the same lowest bits. -/
def wrap (n : Int) : Int :=
  Int.bmod n (1 <<< 64)

def maxNumber : Int := (1 <<< 63) - 1

def minNumber : Int := -(1 <<< 63)

/-- A number that is too large becomes the largest one. -/
def clamp (n : Int) : Int :=
  min maxNumber (max minNumber n)

def digitValue (c : Char) : Nat :=
  if c.isDigit then c.toNat - '0'.toNat
  else if c.isLower then c.toNat - 'a'.toNat + 10
  else if c.isUpper then c.toNat - 'A'.toNat + 10
  else 36

/-- The value of the digits at the front of a text, and the text behind them. -/
def digits (base : Nat) (text : List Char) : Int × List Char :=
  let isDigit (c : Char) : Bool := digitValue c < base
  let value := (text.takeWhile isDigit).foldl (fun n c => n * base + digitValue c) 0
  (clamp value, text.dropWhile isDigit)

/-- A number at the front of a text: octal behind a zero, hexadecimal behind a zero and an x. -/
def number (text : List Char) : Int × List Char :=
  match text with
  | '0' :: x :: c :: rest =>
    if (x = 'x' ∨ x = 'X') ∧ digitValue c < 16 then digits 16 (c :: rest)
    else digits 8 text
  | '0' :: _ => digits 8 text
  | _ => digits 10 text

/-- Signs, those first that others begin with. -/
def signs : List String :=
  ["<<=", ">>=", "<<", ">>", "<=", ">=", "==", "!=", "&&", "||", "+=", "-=", "*=", "/=", "%=",
    "&=", "^=", "|=", "<", ">", "+", "-", "*", "/", "%", "&", "^", "|", "=", "!", "~", "?", ":",
    "(", ")"]

/-- The tokens of a text; one that no expression has stands for all that is none. -/
def tokens : Nat → List Char → List Token
  | 0, _ => []
  | _, [] => []
  | fuel + 1, c :: rest =>
    if c = ' ' ∨ c = '\t' ∨ c = '\n' then tokens fuel rest
    else if c.isDigit then
      let (value, rest) := number (c :: rest)
      .number value :: tokens fuel rest
    else if isNameStart c then
      let name := (c :: rest).takeWhile isNameChar
      .name (String.ofList name) :: tokens fuel ((c :: rest).dropWhile isNameChar)
    else
      match signs.find? fun sign => sign.toList.isPrefixOf (c :: rest) with
      | some sign => .sign sign :: tokens fuel ((c :: rest).drop sign.length)
      | none => [.sign ""]

/-- Binary operators, with those that bind closest first. -/
def levels : List (List String) :=
  [["*", "/", "%"], ["+", "-"], ["<<", ">>"], ["<", "<=", ">", ">="], ["==", "!="], ["&"],
    ["^"], ["|"]]

/-- The sign at the front, if it is one of those given. -/
def oneOf? (among : List String) : List Token → Option (String × List Token)
  | .sign text :: rest => if among.contains text then some (text, rest) else none
  | _ => none

abbrev Parsed := Except Fault (Expression × List Token)

/-- Reads operands with operators of one level between them. -/
def chain (operand : List Token → Parsed) (operators : List String)
    (build : String → Expression → Expression → Expression) :
    Nat → Expression → List Token → Parsed
  | 0, left, rest => .ok (left, rest)
  | fuel + 1, left, rest =>
    match oneOf? operators rest with
    | none => .ok (left, rest)
    | some (operator, rest) => do
      let (right, rest) ← operand rest
      chain operand operators build fuel (build operator left right) rest

/-- Reads operands of one level, given the reader for what binds closer. -/
def level (operators : List String) (build : String → Expression → Expression → Expression)
    (operand : List Token → Parsed) (text : List Token) : Parsed := do
  let (first, rest) ← operand text
  chain operand operators build rest.length first rest

/-- The operators that assign. -/
def assigning : List (String × Option String) :=
  [("=", none), ("+=", some "+"), ("-=", some "-"), ("*=", some "*"), ("/=", some "/"),
    ("%=", some "%"), ("<<=", some "<<"), (">>=", some ">>"), ("&=", some "&"),
    ("^=", some "^"), ("|=", some "|")]

mutual

/-- Reads what an operator can be applied to. -/
def primary : Nat → List Token → Parsed
  | 0, _ => .error .primary
  | fuel + 1, text =>
    match text with
    | .number value :: rest => .ok (.number value, rest)
    | .name name :: rest => .ok (.name name, rest)
    | .sign "(" :: rest => do
      let (inner, rest) ← assignment fuel rest
      match rest with
      | .sign ")" :: rest => return (inner, rest)
      | _ => throw .parenthesis
    | .sign "+" :: rest => primary fuel rest
    | .sign "-" :: rest => do
      let (operand, rest) ← primary fuel rest
      return (.opposite operand, rest)
    | .sign "!" :: rest => do
      let (operand, rest) ← primary fuel rest
      return (.negated operand, rest)
    | .sign "~" :: rest => do
      let (operand, rest) ← primary fuel rest
      return (.complement operand, rest)
    | _ => .error .primary

/-- Reads a choice or anything that binds closer. -/
def choice : Nat → List Token → Parsed
  | 0, _ => .error .primary
  | fuel + 1, text => do
    let binary := levels.foldl (fun operand operators => level operators .binary operand)
      (primary fuel)
    let conjunction := level ["&&"] (fun _ => .both) binary
    let disjunction := level ["||"] (fun _ => .either) conjunction
    let (condition, rest) ← disjunction text
    match rest with
    | .sign "?" :: rest =>
      let (first, rest) ← assignment fuel rest
      match rest with
      | .sign ":" :: rest =>
        let (second, rest) ← choice fuel rest
        return (.choice condition first second, rest)
      | _ => throw .colon
    | _ => return (condition, rest)

def assignment : Nat → List Token → Parsed
  | 0, _ => .error .primary
  | fuel + 1, text =>
    match text with
    | .name name :: .sign sign :: rest =>
      match assigning.lookup sign with
      | some operator => do
        let (value, rest) ← assignment fuel rest
        return (.assign name operator value, rest)
      | none => choice fuel text
    | _ => choice fuel text

end

/-- Reads a whole expression. -/
def parse (text : List Char) : Except Fault Expression := do
  let tokens := tokens (text.length + 1) text
  let (expression, rest) ← assignment (3 * tokens.length + 3) tokens
  if rest.isEmpty then return expression else throw .ending

/-! ### Computing -/

def truth (condition : Bool) : Int :=
  if condition then 1 else 0

/-- The bits of a number. -/
def bits (n : Int) : Nat :=
  (n % (1 <<< 64)).toNat

/-- Applies a binary operator. -/
def apply (operator : String) (a b : Int) : Except Fault Int :=
  match operator with
  | "*" => .ok (wrap (a * b))
  | "/" => if b = 0 then .error .zero else .ok (wrap (a.tdiv b))
  | "%" => if b = 0 then .error .zero else .ok (wrap (a.tmod b))
  | "+" => .ok (wrap (a + b))
  | "-" => .ok (wrap (a - b))
  | "<<" => .ok (wrap (a * (1 <<< (bits b % 64))))
  | ">>" => .ok (a >>> (bits b % 64))
  | "<" => .ok (truth (a < b))
  | "<=" => .ok (truth (a ≤ b))
  | ">" => .ok (truth (b < a))
  | ">=" => .ok (truth (b ≤ a))
  | "==" => .ok (truth (a = b))
  | "!=" => .ok (truth (a ≠ b))
  | "&" => .ok (wrap (bits a &&& bits b))
  | "^" => .ok (wrap (bits a ^^^ bits b))
  | "|" => .ok (wrap (bits a ||| bits b))
  | _ => .error .primary

end SiteTree.Shell.Arithmetic
