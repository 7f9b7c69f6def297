import SiteTree.Disk.Change
import SiteTree.Shell.Arithmetic

/-!
# Conditions

Conditions on texts, numbers and files, joined by words. Where a word could be read in two ways,
those that follow it decide.
-/

namespace SiteTree.Shell.Condition

inductive Kind where
  | unary
  | binary
  | negation
  | conjunction
  | disjunction
  | opening
  | closing
  deriving DecidableEq, Repr

/-- The operators. -/
def operators : List (String × Kind) :=
  let unary := ["-r", "-w", "-x", "-e", "-f", "-d", "-c", "-b", "-p", "-u", "-g", "-k", "-s",
    "-t", "-z", "-n", "-h", "-O", "-G", "-L", "-S"]
  let binary := ["=", "!=", "<", ">", "-eq", "-ne", "-ge", "-gt", "-le", "-lt", "-nt", "-ot",
    "-ef"]
  unary.map (·, .unary) ++ binary.map (·, .binary)
    ++ [("!", .negation), ("-a", .conjunction), ("-o", .disjunction), ("(", .opening),
      (")", .closing)]

def kindOf? (word : String) : Option Kind :=
  operators.lookup word

/-- Is the first word an operand although it looks like an operator? -/
def isOperand : List String → Bool
  | [_] => true
  | [_, _] => false
  | _ :: second :: _ => kindOf? second == some .binary
  | [] => false

/-- What the first word is: an operator, or `none` for an operand. -/
def operator? (words : List String) : Option Kind :=
  match words with
  | [] => none
  | word :: rest =>
    match kindOf? word with
    | some .unary => if isOperand words then none else some .unary
    | some .opening => if rest.isEmpty then none else some .opening
    | kind => kind

/-! ### Single conditions -/

/-- The number that an operand writes. -/
def number (text : String) : Except String Int :=
  let isSpace (c : Char) : Bool := c == ' ' || (9 ≤ c.toNat && c.toNat ≤ 13)
  let trimmed := text.toList.dropWhile isSpace
  let (negative, digits) :=
    match trimmed with
    | '-' :: rest => (true, rest)
    | '+' :: rest => (false, rest)
    | _ => (false, trimmed)
  let behind := digits.dropWhile Char.isDigit
  let size : Int :=
    (digits.takeWhile Char.isDigit).foldl (fun n c => 10 * n + (c.toNat - '0'.toNat : Nat)) 0
  let value := if negative then -size else size
  let limit : Int := 1 <<< 63
  if digits.head?.any Char.isDigit ∧ behind.all isSpace ∧ -limit ≤ value ∧ value < limit then
    .ok value
  else .error ("Illegal number: " ++ text)

/-- Programs that can be run, where they stand. -/
def isProgram (path : String) : Bool :=
  ["/bin/", "/usr/bin/"].any fun directory =>
    ["cat", "tr", "sh", "false"].any fun name => directory ++ name == path

def fileCondition (disk : Disk) (operator path : String) : Bool :=
  let device := path == "/dev/null"
  let entry := disk.find ⟨toText path⟩
  match operator with
  | "-e" => device || isProgram path || entry.isOk
  | "-r" => device || isProgram path || entry.isOk
  | "-w" => device || isProgram path || entry.isOk
  | "-O" => device || isProgram path || entry.isOk
  | "-G" => device || isProgram path || entry.isOk
  | "-c" => device
  | "-f" =>
    isProgram path ||
      match entry with
      | .ok (_, .file _) => true
      | _ => false
  | "-d" => disk.isDirectory? ⟨toText path⟩
  | "-x" => isProgram path || disk.isDirectory? ⟨toText path⟩
  | "-s" =>
    isProgram path ||
      match entry with
      | .ok (_, .file content) => !content.isEmpty
      | .ok (_, .directory) => true
      | _ => false
  | "-h" => isLink
  | "-L" => isLink
  | _ => false
where
  isLink : Bool :=
    match disk.entryAt ⟨toText path⟩ with
    | .ok (_, .link _) => true
    | _ => false

def unaryCondition (disk : Disk) (operator operand : String) : Except String Bool :=
  match operator with
  | "-z" => .ok operand.isEmpty
  | "-n" => .ok !operand.isEmpty
  | "-t" => (number operand).map fun _ => false
  | _ => .ok (fileCondition disk operator operand)

def binaryCondition (disk : Disk) (operator a b : String) : Except String Bool :=
  let numbers (holds : Int → Int → Bool) : Except String Bool := do
    return holds (← number a) (← number b)
  match operator with
  | "=" => .ok (a == b)
  | "!=" => .ok (a != b)
  | "<" => .ok (decide (a < b))
  | ">" => .ok (decide (b < a))
  | "-eq" => numbers (· == ·)
  | "-ne" => numbers (· != ·)
  | "-ge" => numbers fun a b => decide (b ≤ a)
  | "-gt" => numbers fun a b => decide (b < a)
  | "-le" => numbers fun a b => decide (a ≤ b)
  | "-lt" => numbers fun a b => decide (a < b)
  | "-ef" =>
    match disk.find ⟨toText a⟩, disk.find ⟨toText b⟩ with
    | .ok (a, _), .ok (b, _) => .ok (a == b)
    | _, _ => .ok false
  | _ => .ok false

/-! ### Joined conditions

Each reader answers what holds and the words from its last one on. -/

abbrev Answer := Except String (Bool × List String)

mutual

def disjunction (disk : Disk) : Nat → List String → Answer
  | 0, words => .ok (false, words)
  | fuel + 1, words => do
    let (first, rest) ← conjunction disk fuel words
    if operator? rest.tail = some .disjunction then
      let (second, rest) ← disjunction disk fuel (rest.drop 2)
      return (first || second, rest)
    else return (first, rest)

def conjunction (disk : Disk) : Nat → List String → Answer
  | 0, words => .ok (false, words)
  | fuel + 1, words => do
    let (first, rest) ← negation disk fuel words
    if operator? rest.tail = some .conjunction then
      let (second, rest) ← conjunction disk fuel (rest.drop 2)
      return (first && second, rest)
    else return (first, rest)

def negation (disk : Disk) : Nat → List String → Answer
  | 0, words => .ok (false, words)
  | fuel + 1, words => do
    if operator? words = some .negation then
      -- what does not stand there does not hold
      if words.tail.isEmpty then return (true, words)
      let (holds, rest) ← negation disk fuel words.tail
      return (!holds, rest)
    else primary disk fuel words

def primary (disk : Disk) : Nat → List String → Answer
  | 0, words => .ok (false, words)
  | fuel + 1, words =>
    match operator? words, words with
    | _, [] => .ok (false, [])
    | some .opening, _ :: rest =>
      if operator? rest = some .closing then .ok (false, rest)
      else do
        let (holds, rest) ← disjunction disk fuel rest
        if operator? rest.tail = some .closing then return (holds, rest.tail)
        else throw "closing paren expected"
    | some .unary, [operator] => .error (operator ++ ": argument expected")
    | some .unary, operator :: operand :: rest =>
      (unaryCondition disk operator operand).map (·, operand :: rest)
    | _, operand :: rest =>
      match operator? rest, rest with
      | some .binary, [operator] => .error (operator ++ ": argument expected")
      | some .binary, operator :: second :: rest =>
        (binaryCondition disk operator operand second).map (·, second :: rest)
      | _, _ => .ok (!operand.isEmpty, words)

end

/-- Does the condition hold that some words write? -/
def evaluate (disk : Disk) : Nat → List String → Except String Bool
  | 0, _ => .ok false
  | fuel + 1, words =>
    let whole (words : List String) : Except String Bool := do
      let (holds, rest) ← disjunction disk (4 * words.length + 4) words
      match rest with
      | last :: _ :: _ => throw (last ++ ": unexpected operator")
      | _ => return holds
    let outer (words : List String) : Except String Bool :=
      if words.head? = some "(" ∧ words.getLast? = some ")" then whole words.tail.dropLast
      else if words.head? = some "!" then (evaluate disk fuel words.tail).map (!·)
      else whole words
    match words with
    | [] => .ok false
    | [a, operator, b] =>
      if kindOf? operator = some .binary then binaryCondition disk operator a b
      else outer words
    | [_, _, _, _] => outer words
    | _ => whole words

end SiteTree.Shell.Condition
