import SiteTree.Command.Filter
import SiteTree.Shell.Reader

/-!
# The state of a shell

A shell has variables, functions, options and streams. What it starts in a copy of itself
changes the files and what has been written and read, but nothing else.
-/

namespace SiteTree.Shell

open SiteTree.Command

structure Variable where
  /-- nothing for one that is only marked -/
  value : Option String
  exported : Bool := false
  fixed : Bool := false

/-- Where a stream leads. -/
inductive Channel where
  /-- to what is collected under a number -/
  | sink (id : Nat)
  /-- from what was given under a number, which may be the content of a file -/
  | source (id : Nat) (file : Option Location)
  /-- to the end of a file, which may have had content before -/
  | file (location : Location) (adding : Bool)
  | directory
  | nowhere
  /-- to a device that has no space left -/
  | full
  deriving DecidableEq

/-- What all shells of a run share. -/
structure World where
  entries : List (Location × Entry)
  /-- what has been written, the last part first -/
  sinks : List (Nat × List (List UInt8)) := []
  /-- what is left to be read -/
  sources : List (Nat × List UInt8) := []
  fresh : Nat := 100

/-- What was collected under a number. -/
def World.collected (world : World) (id : Nat) : List UInt8 :=
  ((world.sinks.lookup id).getD []).reverse.flatten

structure Machine where
  world : World
  workDir : Location
  /-- the name in messages -/
  name : String
  arguments : List String := []
  bindings : List (String × Variable) := []
  /-- the variables that functions have hidden, the innermost function first -/
  hidden : List (List (String × Option Variable)) := []
  functions : List (String × Command) := []
  streams : List (Nat × Channel) := []
  /-- the names of the options that are set -/
  options : List String := []
  traps : List (Nat × String) := []
  /-- signals that have arrived and are to be dealt with -/
  pending : List Nat := []
  status : Nat := 0
  /-- how the last command ended whose output was put into the command at hand -/
  substituted : Option Nat := none
  line : Nat := 1
  loops : Nat := 0
  process : Nat
  /-- commands that were started in the background and how they ended, the last one first -/
  jobs : List (Nat × Nat) := []
  /-- how far the argument has been read from which switches are taken at the moment -/
  letterPlace : Nat := 0
  /-- texts that are read in the place of words -/
  aliases : List (String × List Char) := []
  /-- the command whose name messages carry -/
  speaker : Option String := none
  /-- has output gone to a stream that cannot be written to? -/
  lost : Bool := false
  /-- the permissions that new files do not get -/
  mask : Nat := 18

/-- Ways out of what is being run. -/
inductive Leave where
  | exit (status : Nat)
  /-- a mistake has been complained about -/
  | fault
  | killed (signal : Nat)
  | leaveLoops (count : Nat)
  | nextRound (count : Nat)
  | leaveFunction (status : Nat)

/-- What a shell does: it changes the machine, and may leave what is being run. -/
abbrev Effect (α : Type) := ExceptT Leave (StateM Machine) α

namespace Effect

/-! ### Streams -/

def disk : Effect Disk := do
  let machine ← get
  return ⟨machine.world.entries, machine.workDir⟩

def changeWorld (change : World → World) : Effect Unit :=
  modify fun machine => { machine with world := change machine.world }

/-- A number that has not been used. -/
def fresh : Effect Nat := do
  let id := (← get).world.fresh
  changeWorld fun world => { world with fresh := id + 1 }
  return id

/-- Puts a value in the place of the one under a number. -/
def put {κ α : Type} [BEq κ] (id : κ) (value : α) (values : List (κ × α)) : List (κ × α) :=
  (id, value) :: values.filter fun entry => entry.1 != id

def channel? (stream : Nat) : Effect (Option Channel) := do
  return (← get).streams.lookup stream

/-- Why a channel cannot be written to. -/
def outputFault? : Option Channel → Option StreamFault
  | none => some .closed
  | some (.source _ _) => some .opposite
  | some .directory => some .opposite
  | some .full => some .full
  | some _ => none

/-- Why a channel cannot be read from. -/
def inputFault? : Option Channel → Option StreamFault
  | none => some .closed
  | some (.sink _) => some .opposite
  | some (.file _ _) => some .opposite
  | some .directory => some .directory
  | some _ => none

def write (stream : Nat) (bytes : List UInt8) : Effect Unit := do
  if bytes.isEmpty then return
  let channel ← channel? stream
  if (outputFault? channel).isSome then modify fun machine => { machine with lost := true }
  match channel with
  | some (.sink id) =>
    changeWorld fun world =>
      { world with sinks := put id (bytes :: (world.sinks.lookup id).getD []) world.sinks }
  | some (.file location _) =>
    let disk ← disk
    let before :=
      match disk.get? location with
      | some (.file content) => content
      | _ => []
    changeWorld fun world =>
      { world with entries := (disk.set location (.file (before ++ bytes))).entries }
  | _ => pure ()

/-- What a stream has left to be read. -/
def unread (stream : Nat) : Effect (List UInt8) := do
  match ← channel? stream with
  | some (.source id _) => return ((← get).world.sources.lookup id).getD []
  | _ => return []

def setUnread (stream : Nat) (bytes : List UInt8) : Effect Unit := do
  match ← channel? stream with
  | some (.source id _) =>
    changeWorld fun world => { world with sources := put id bytes world.sources }
  | _ => pure ()

def newSource (bytes : List UInt8) (file : Option Location) : Effect Channel := do
  let id ← fresh
  changeWorld fun world => { world with sources := put id bytes world.sources }
  return .source id file

/-! ### Messages -/

/-- Writes a message with the place it comes from. -/
def complain (message : String) : Effect Unit := do
  let machine ← get
  let speaker := (machine.speaker.map (· ++ ": ")).getD ""
  let line := toString machine.line
  write 2 (toBytes (machine.name ++ ": " ++ line ++ ": " ++ speaker ++ message ++ "\n"))
  modify fun now => { now with lost := machine.lost }

/-- Complains and leaves what is being run. -/
def giveUp {α : Type} (message : String) : Effect α := do
  complain message
  throw .fault

/-- Runs something in whose messages a command speaks. -/
def speaking {α : Type} (speaker : Option String) (body : Effect α) : Effect α := do
  let before := (← get).speaker
  let restore : Effect Unit := modify fun machine => { machine with speaker := before }
  modify fun machine => { machine with speaker }
  let value ← tryCatch body fun leave => do
    restore
    throw leave
  restore
  return value

def setStatus (status : Nat) : Effect Unit :=
  modify fun machine => { machine with status }

def hasOption (option : String) : Effect Bool := do
  return (← get).options.contains option

/-! ### Variables -/

def binding? (name : String) : Effect (Option Variable) := do
  return (← get).bindings.lookup name

def putVariable (name : String) (held : Option Variable) : Effect Unit :=
  modify fun machine =>
    let others := machine.bindings.filter fun entry => entry.1 != name
    { machine with bindings := (held.map (name, ·)).toList ++ others }

/-- Gives a variable a value. -/
def setVariable (name value : String) : Effect Unit := do
  let old := (← binding? name).getD { value := none }
  if old.fixed then giveUp (name ++ ": is read only")
  else
    let exported := old.exported || (← hasOption "allexport")
    putVariable name (some { old with value := some value, exported })

/-- The value of a variable. -/
def valueOf? (name : String) : Effect (Option String) := do
  return (← binding? name).bind (·.value)

/-- The characters at which values are split, if that is not the usual ones. -/
def separators : Effect (List Char) := do
  return ((← valueOf? "IFS").map String.toList).getD [' ', '\t', '\n']

/-- The variables that are handed on. -/
def environment : Effect (List (String × String)) := do
  return (← get).bindings.filterMap fun (name, held) =>
    match held with
    | ⟨some value, true, _⟩ => some (name, value)
    | _ => none

/-- The options, with their letters if they have any. -/
def optionNames : List (String × Option Char) :=
  [("errexit", 'e'), ("noglob", 'f'), ("ignoreeof", 'I'), ("interactive", 'i'), ("monitor", 'm'),
    ("noexec", 'n'), ("stdin", 's'), ("xtrace", 'x'), ("verbose", 'v'), ("vi", 'V'),
    ("emacs", 'E'), ("noclobber", 'C'), ("allexport", 'a'), ("notify", 'b'), ("nounset", 'u'),
    ("privileged", 'p'), ("nolog", none), ("debug", none)]

/-- The option of a letter. -/
def optionOf? (letter : Char) : Option String :=
  (optionNames.find? fun entry => entry.2 == some letter).map Prod.fst

/-- The letters of the options that are set, in the order in which they are shown. -/
def optionLetters (machine : Machine) : String :=
  String.ofList (optionNames.reverse.filterMap fun (name, letter) =>
    letter.filter fun _ => machine.options.contains name)

/-- The value of a parameter, other than the list of all arguments. -/
def parameter? (name : String) : Effect (Option String) := do
  let machine ← get
  match name with
  | "#" => return some (toString machine.arguments.length)
  | "?" => return some (toString machine.status)
  | "$" => return some (toString machine.process)
  | "!" => return machine.jobs.head?.map fun job => toString job.1
  | "-" => return some (optionLetters machine)
  | _ =>
    match name.toNat? with
    | some 0 => return some machine.name
    | some i => return machine.arguments[i - 1]?
    | none => valueOf? name

end Effect

end SiteTree.Shell
