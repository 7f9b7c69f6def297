import SiteTree.Command.Switch

/-!
# Passing files on

`cat` writes files one after the other. It can number their lines, leave out repeated blank ones
and show what is not printed.
-/

namespace SiteTree.Command

def catSwitches : List Switch :=
  [⟨'b', "number-nonblank"⟩, ⟨'n', "number"⟩, ⟨'s', "squeeze-blank"⟩,
    ⟨'v', "show-nonprinting"⟩, ⟨'E', "show-ends"⟩, ⟨'T', "show-tabs"⟩, ⟨'A', "show-all"⟩,
    ⟨'e', ""⟩, ⟨'t', ""⟩, ⟨'u', ""⟩]

/-- How lines are shown. -/
structure LineStyle where
  number : Bool
  numberFilled : Bool
  squeeze : Bool
  ends : Bool
  tabs : Bool
  nonprinting : Bool

def LineStyle.ofLetters (letters : List Char) : LineStyle where
  number := letters.contains 'n'
  numberFilled := letters.contains 'b'
  squeeze := letters.contains 's'
  ends := letters.any "AEe".toList.contains
  tabs := letters.any "ATt".toList.contains
  nonprinting := letters.any "Avet".toList.contains

namespace LineStyle

/-- A byte below 128 that stands within a line. -/
def lowByte (style : LineStyle) (b : UInt8) : List UInt8 :=
  if b = 9 then if style.tabs then [0x5E, 0x49] else [9]
  else if b < 0x20 then [0x5E, b + 0x40]
  else if b = 0x7F then [0x5E, 0x3F]
  else [b]

/-- A byte that stands within a line. -/
def byte (style : LineStyle) (b : UInt8) : List UInt8 :=
  if !style.nonprinting then
    if b = 9 ∧ style.tabs then [0x5E, 0x49] else [b]
  else if b < 0x80 then style.lowByte b
  else
    let low := b - 0x80
    let shown : List UInt8 :=
      if low < 0x20 then [0x5E, low + 0x40] else if low = 0x7F then [0x5E, 0x3F] else [low]
    0x4D :: 0x2D :: shown

/-- The end of a line. A return in front of it is shown along with it. -/
def lineEnd (style : LineStyle) : List UInt8 :=
  if style.ends then [0x24, 0x0A] else [0x0A]

/-- The content of a line that ends. -/
def content (style : LineStyle) (line : List UInt8) : List UInt8 :=
  if style.ends ∧ line.getLast? = some 0x0D then
    line.dropLast.flatMap style.byte ++ [0x5E, 0x4D]
  else line.flatMap style.byte

/-- The number of a line, in a column of its own. -/
def numeral (n : Nat) : List UInt8 :=
  let digits := Text.encodeUtf8 (toString n)
  List.replicate (6 - digits.length) 0x20 ++ digits ++ [9]

/-- The number in front of a line, and the number of the next one. -/
def numbered (style : LineStyle) (n : Nat) (blank : Bool) : List UInt8 × Nat :=
  if style.numberFilled then if blank then ([], n) else (numeral n, n + 1)
  else if style.number then (numeral n, n + 1)
  else ([], n)

/-- Shows lines. Of the lines given all but the last one end; the last one is not there if it
is blank. `n` is the number of the next line, and `behindBlank` says whether the line before
was a blank one. -/
def lines (style : LineStyle) (n : Nat) (behindBlank : Bool) : List (List UInt8) → List UInt8
  | [] => []
  | [line] =>
    if line.isEmpty then [] else (style.numbered n false).1 ++ line.flatMap style.byte
  | line :: rest =>
    if style.squeeze ∧ line.isEmpty ∧ behindBlank then style.lines n true rest
    else
      let (number, n) := style.numbered n line.isEmpty
      number ++ style.content line ++ style.lineEnd ++ style.lines n line.isEmpty rest

end LineStyle

/-- The stretches between line ends. -/
def splitLines : List UInt8 → List (List UInt8)
  | [] => [[]]
  | b :: rest =>
    match splitLines rest with
    | line :: lines => if b = 0x0A then [] :: line :: lines else (b :: line) :: lines
    | [] => [[b]]

/-- The names of the input. -/
def inputNames : List String :=
  ["-", "/dev/stdin", "/dev/fd/0"]

/-- The content of a file, or why there is none; a dash is the input. -/
def contentOf (invocation : Invocation) (name : String) (input : List UInt8) :
    Except String (List UInt8) :=
  if inputNames.contains name then
    match invocation.inputFault with
    | some fault => .error fault.reason
    | none => unlessOutput invocation.inputFile input
  else if name = "/dev/null" then .ok []
  else
    match invocation.disk.readBytes ⟨name⟩ with
    | .error error => .error error.reason
    | .ok content =>
      let file :=
        match invocation.disk.find ⟨name⟩ with
        | .ok (location, _) => some location
        | .error _ => none
      unlessOutput file content
where
  /-- The content, unless it is that of the file that the output is added to. -/
  unlessOutput (file : Option Location) (content : List UInt8) : Except String (List UInt8) :=
    if file.isSome ∧ file = invocation.outputFile then .error "input file is output file"
    else .ok content

/-- The files named, one after the other. -/
def concatenate (invocation : Invocation) : List String → List UInt8 → Outcome
  | [], input => { unread := input }
  | name :: names, input =>
    let rest := concatenate invocation names (if inputNames.contains name then [] else input)
    match contentOf invocation name input with
    | .ok content => { rest with output := content ++ rest.output }
    | .error reason =>
      { rest with
        errors := Text.encodeUtf8 (invocation.name ++ ": ")
          ++ shellQuoted (Text.encodeUtf8 name)
          ++ Text.encodeUtf8 (": " ++ reason ++ "\n") ++ rest.errors
        ending := .exited 1 }

def cat : Program := fun invocation =>
  match readSwitches catSwitches true invocation.arguments with
  | .error message => usageError invocation.name message
  | .ok (letters, names) =>
    let names := if names.isEmpty then ["-"] else names
    let complaint (reason : String) : List UInt8 :=
      Text.encodeUtf8 (invocation.name ++ ": " ++ reason ++ "\n")
    if invocation.outputFault = some .closed then
      { errors := complaint ("standard output: " ++ StreamFault.closed.reason)
        ending := .exited 1
        unread := invocation.input }
    else
      let outcome := concatenate invocation names invocation.input
      let outcome :=
        if invocation.inputFault = some .closed ∧ names.any inputNames.contains then
          { outcome with errors := outcome.errors
              ++ complaint ("closing standard input: " ++ StreamFault.closed.reason) }
        else outcome
      let outcome :=
        if letters.all (· == 'u') then outcome
        else
          let shown := (LineStyle.ofLetters letters).lines 1 false (splitLines outcome.output)
          { outcome with output := shown }
      match invocation.outputFault with
      | some fault =>
        if outcome.output.isEmpty then outcome
        else
          { outcome with
            errors := complaint ("write error: " ++ fault.reason)
            ending := .exited 1 }
      | none => outcome

end SiteTree.Command
