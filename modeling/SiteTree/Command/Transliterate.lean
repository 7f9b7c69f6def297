import SiteTree.Command.ByteSet
import SiteTree.Command.Switch

/-!
# Replacing bytes

`tr` replaces the bytes of one set by those of another, or deletes them, and can leave one of
each run of equal bytes.
-/

namespace SiteTree.Command

def trSwitches : List Switch :=
  [⟨'A', ""⟩, ⟨'c', "complement"⟩, ⟨'C', ""⟩, ⟨'d', "delete"⟩, ⟨'s', "squeeze-repeats"⟩,
    ⟨'t', "truncate-set1"⟩]

/-- What is to be done with the bytes of sets. -/
structure ByteTask where
  complement : Bool
  delete : Bool
  squeeze : Bool
  truncate : Bool

def ByteTask.ofLetters (letters : List Char) : ByteTask where
  complement := letters.any "cC".toList.contains
  delete := letters.contains 'd'
  squeeze := letters.contains 's'
  truncate := letters.contains 't'

def allByteValues : List UInt8 :=
  (List.range 256).map Nat.toUInt8

/-- One of each run of equal bytes of a set. -/
def squeezeRuns (set : UInt8 → Bool) : List UInt8 → List UInt8
  | [] => []
  | [b] => [b]
  | a :: b :: rest =>
    if a = b ∧ set a then squeezeRuns set (b :: rest) else a :: squeezeRuns set (b :: rest)

/-- The classes of letters of one case in a set, with the number of bytes in front of each. -/
def casePlaces (open' : Nat) : Nat → List SetPart → List Nat
  | _, [] => []
  | n, part :: parts =>
    let rest := casePlaces open' (n + (part.bytes open').length) parts
    if part.isCase then n :: rest else rest

namespace ByteTask

/-- The bytes of the first set, which may be given by those that are not in it. -/
def source (task : ByteTask) (first : List SetPart) : List UInt8 :=
  let bytes := allBytes 0 first
  if task.complement then allByteValues.filter fun b => !bytes.contains b else bytes

/-- The bytes of the second set, lengthened to the length of the first one where that is longer,
or what is wrong with the sets. -/
def target (task : ByteTask) (first second : List SetPart) : Except String (List UInt8) :=
  let source := task.source first
  let fixed := allBytes 0 second
  let fill := source.length - fixed.length
  let target := allBytes fill second
  let misplaced := (casePlaces fill 0 second).any fun n =>
    n ≤ source.length && !(casePlaces 0 0 first).contains n
  if second.any SetPart.isSame then
    .error "[=c=] expressions may not appear in string2 when translating"
  else if second.any fun part => part.isGroup && !part.isCase then
    .error ("when translating, the only character classes that may appear in\n"
      ++ "string2 are 'upper' and 'lower'")
  else if !task.complement ∧ misplaced then
    .error "misaligned [:upper:] and/or [:lower:] construct"
  else if target.length < source.length ∧ !task.truncate ∧ target.isEmpty then
    .error "when not truncating set1, string2 must be non-empty"
  else if target.length < source.length ∧ !task.truncate ∧
      (second.getLast?.any SetPart.isGroup) then
    .error ("when translating with string1 longer than string2,\n"
      ++ "the latter string must not end with a character class")
  else
    let lengthened :=
      if task.truncate then target
      else target ++ List.replicate (source.length - target.length) (target.getLast?.getD 0)
    let uniform := lengthened.length == source.length
      && lengthened.all fun b => some b == lengthened.head?
    if task.complement ∧ first.any SetPart.isGroup ∧ !uniform then
      .error ("when translating with complemented character classes,\n"
        ++ "string2 must map all characters in the domain to one")
    else .ok lengthened

/-- What is done to the bytes, or what is wrong with the sets. -/
def perform (task : ByteTask) (first : List SetPart) (second : Option (List SetPart))
    (input : List UInt8) : Except String (List UInt8) :=
  let source := task.source first
  if first.any SetPart.isOpen then
    .error "the [c*] repeat construct may not appear in string1"
  else
    match second with
    | none =>
      if task.delete then .ok (input.filter fun b => !source.contains b)
      else .ok (squeezeRuns source.contains input)
    | some second =>
      if 1 < second.countP SetPart.isOpen then
        .error "only one [c*] repeat construct may appear in string2"
      else if task.delete then
        if second.any SetPart.isOpen then
          .error "the [c*] construct may appear in string2 only when translating"
        else
          let kept := input.filter fun b => !source.contains b
          .ok (squeezeRuns (allBytes 0 second).contains kept)
      else do
        let target ← task.target first second
        -- of the places at which the first set has a byte the last one counts
        let pairs := (source.zip target).reverse
        let replaced := input.map fun b => (pairs.lookup b).getD b
        if task.squeeze then return squeezeRuns target.contains replaced
        else return replaced

end ByteTask

/-- The parts of a set as it is written, and warnings. -/
def readSet (text : String) : Except (List UInt8) (List SetPart) × List (List UInt8) :=
  let written := Text.encodeUtf8 text
  let (bytes, warnings) := setBytes (written.length + 1) written
  (setParts (bytes.length + 1) bytes, warnings)

/-- The parts of several sets, up to the first that is wrong, and warnings. -/
def readSets : List String → Except (List UInt8) (List (List SetPart)) × List (List UInt8)
  | [] => (.ok [], [])
  | text :: texts =>
    match readSet text with
    | (.error message, warnings) => (.error message, warnings)
    | (.ok parts, warnings) =>
      let (rest, more) := readSets texts
      (rest.map (parts :: ·), warnings ++ more)

/-- What is wrong with the number of sets. -/
def setCountError? (task : ByteTask) (arguments operands : List String) : Option (List UInt8) :=
  let least := if task.delete = task.squeeze then 2 else 1
  let most := if task.delete ∧ !task.squeeze then 1 else 2
  let because (line : String) : List UInt8 := Text.encodeUtf8 ("\n" ++ line)
  let last := Text.encodeUtf8 ((arguments.getLast?).getD "")
  if operands.isEmpty then some (Text.encodeUtf8 "missing operand")
  else if operands.length < least then
    some (Text.encodeUtf8 "missing operand after " ++ quoted last ++ because
      (if task.squeeze then
        "Two strings must be given when both deleting and squeezing repeats."
      else "Two strings must be given when translating."))
  else
    (operands[most]?).map fun extra =>
      Text.encodeUtf8 "extra operand " ++ quoted (Text.encodeUtf8 extra) ++
        (if operands.length = 2 then
          because "Only one string may be given when deleting without squeezing repeats."
        else [])

def tr : Program := fun invocation =>
  let name := invocation.name
  let line (message : List UInt8) : List UInt8 :=
    Text.encodeUtf8 (name ++ ": ") ++ message ++ [0x0A]
  match readSwitches trSwitches false invocation.arguments with
  | .error message => usageError name message
  | .ok (letters, operands) =>
    let task := ByteTask.ofLetters letters
    match setCountError? task invocation.arguments operands with
    | some message => usageError name message
    | none =>
      let (sets, warnings) := readSets operands
      let errors := warnings.flatMap line
      let outcome := do
        match ← sets with
        | first :: rest =>
          match task.perform first rest.head? invocation.input, invocation.inputFault with
          | .ok output, none => return output
          | .ok _, some fault => throw (Text.encodeUtf8 ("read error: " ++ fault.reason))
          | .error message, _ => throw (Text.encodeUtf8 message)
        | [] => throw []
      match outcome with
      | .ok output =>
        match invocation.outputFault with
        | some fault =>
          if output.isEmpty then { errors }
          else
            { errors := errors ++ line (Text.encodeUtf8 ("write error: " ++ fault.reason))
              ending := .exited 1 }
        | none => { output, errors }
      | .error message =>
        { errors := errors ++ line message, ending := .exited 1, unread := invocation.input }

end SiteTree.Command
