import SiteTree.Text.Search

/-!
# Command lines

A command line is a list of options, a subcommand, and the options of the subcommand. An
option is written out behind two dashes or as one letter behind one; short options may be
run together. The value of an option follows behind an equals sign or as the next argument.
-/

namespace SiteTree.CommandLine

/-- Why a command line is refused, or what it asks for in place of a run. -/
inductive UsageError where
  /-- help on a subcommand, or on the program -/
  | help (subcommand : Option String)
  | version
  /-- nothing was asked for at all -/
  | nothingAsked
  | missingSubcommand
  | unknownArgument
  | unknownSubcommand
  | invalidValue
  /-- an option that is given twice -/
  | repeated
  /-- a value for an option that takes none -/
  | unneededValue
  deriving DecidableEq, Repr

/-- What an option takes. -/
inductive Arity where
  | nothing
  | path
  /-- a truth value that may be left out -/
  | truth
  /-- nothing: the option asks for something else in place of a run -/
  | instead (request : UsageError)
  deriving DecidableEq, Repr

def Arity.takesValue : Arity → Bool
  | .nothing => false
  | .path => true
  | .truth => true
  | .instead _ => false

structure Flag where
  long : String
  short : Option Char := none
  arity : Arity
  deriving DecidableEq, Repr

/-- The options that can be given in one place, and the subcommands that can follow them. -/
structure Grammar where
  flags : List Flag
  subcommands : List String := []

/-- What was read so far: the settled options with their values, and one that may still get
its value from the next argument. -/
structure Reading where
  settled : List (String × String) := []
  pending : Option (Flag × Option String) := none

namespace Reading

/-- Settles an option with a value, if it has one. -/
def settle (reading : Reading) (flag : Flag) (value : Option String) :
    Except UsageError Reading := do
  let again := reading.settled.any (·.1 == flag.long)
  let put (value : String) : Except UsageError Reading :=
    .ok { settled := reading.settled ++ [(flag.long, value)], pending := none }
  match flag.arity, value with
  | .instead request, _ => throw request
  | .path, none => throw .invalidValue
  | .path, some value =>
    if again then throw .repeated
    else if value.isEmpty then throw .invalidValue
    else put value
  | .truth, value =>
    let value := value.getD "true"
    if again then throw .repeated
    else if ["true", "false"].contains value then put value
    else throw .invalidValue
  | .nothing, _ => if again then throw .repeated else put "true"

/-- Settles the option that may still get a value. -/
def finish (reading : Reading) : Except UsageError Reading :=
  match reading.pending with
  | none => .ok reading
  | some (flag, value) => { reading with pending := none }.settle flag value

/-- Is the option at hand still without a value? -/
def wantsValue (reading : Reading) : Option Flag :=
  match reading.pending with
  | some (flag, none) => some flag
  | _ => none

/-- Takes an option with the value that is attached to it, if there is one. -/
def take (reading : Reading) (flag : Flag) (attached : Option String) :
    Except UsageError Reading := do
  let reading ← reading.finish
  if flag.arity.takesValue ∧ attached.isNone then
    return { reading with pending := some (flag, none) }
  else reading.settle flag attached

end Reading

/-! ### Arguments -/

/-- An option behind two dashes. -/
def Grammar.takeLong (grammar : Grammar) (reading : Reading) (text : List Char) :
    Except UsageError Reading :=
  let name := text.takeWhile (· ≠ '=')
  let attached := (text.dropWhile (· ≠ '=')).tail?
  match grammar.flags.find? fun flag => flag.long.toList == name with
  | none => .error .unknownArgument
  | some flag =>
    if attached.isSome ∧ !flag.arity.takesValue then .error .unneededValue
    else reading.take flag (attached.map String.ofList)

/-- Options of one letter each, up to the first one that takes a value. -/
def Grammar.takeShort (grammar : Grammar) (reading : Reading) :
    List Char → Except UsageError Reading
  | [] => .ok reading
  | c :: rest =>
    match grammar.flags.find? fun flag => flag.short == some c with
    | none => .error .unknownArgument
    | some flag =>
      if flag.arity.takesValue then
        let attached :=
          match rest with
          | [] => none
          | '=' :: value => some value
          | value => some value
        reading.take flag (attached.map String.ofList)
      else do grammar.takeShort (← reading.take flag none) rest

/-- A subcommand and the arguments behind it. -/
abbrev Subcommand := String × List String

/-- Arguments behind two dashes alone: there is no place for any. -/
def Grammar.takeTrailing (grammar : Grammar) (reading : Reading) :
    List String → Except UsageError (Reading × Option Subcommand)
  | [] => .ok (reading, none)
  | argument :: _ =>
    if grammar.subcommands.isEmpty || grammar.subcommands.contains argument then
      .error .unknownArgument
    else .error .unknownSubcommand

/-- Reads arguments up to a subcommand or to the end. -/
def Grammar.read (grammar : Grammar) (reading : Reading) :
    List String → Except UsageError (Reading × Option Subcommand)
  | [] => .ok (reading, none)
  | argument :: rest => do
    if reading.wantsValue.isNone && grammar.subcommands.contains argument then
      return (reading, some (argument, rest))
    else
      match argument.toList with
      | ['-', '-'] => grammar.takeTrailing reading rest
      | '-' :: '-' :: text => grammar.read (← grammar.takeLong reading text) rest
      | '-' :: c :: text => grammar.read (← grammar.takeShort reading (c :: text)) rest
      | _ =>
        match reading.wantsValue with
        | some flag => grammar.read { reading with pending := some (flag, some argument) } rest
        | none =>
          if grammar.subcommands.isEmpty then throw .unknownArgument
          else throw .unknownSubcommand

end SiteTree.CommandLine
