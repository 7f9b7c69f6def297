import SiteTree.Disk.Change
import SiteTree.Job
import SiteTree.Text.Blank

/-!
# External commands

A program is a filter: it is started with arguments and an input, and ends with an output,
error messages and a status. It can change files as well. `Command.pipe` runs one and answers
its output as text, or says why there is none.
-/

namespace SiteTree

/-! ### Programs -/

/-- How a program ended. -/
inductive Ending where
  | exited (status : Nat)
  | signalled (signal : Nat)
  deriving DecidableEq, Repr

namespace Ending

/-- The signals by name. -/
def signals : List (String × Nat) :=
  [("HUP", 1), ("INT", 2), ("QUIT", 3), ("ILL", 4), ("TRAP", 5), ("ABRT", 6), ("BUS", 7),
    ("FPE", 8), ("KILL", 9), ("USR1", 10), ("SEGV", 11), ("USR2", 12), ("PIPE", 13),
    ("ALRM", 14), ("TERM", 15), ("STKFLT", 16), ("CHLD", 17), ("CONT", 18), ("STOP", 19),
    ("TSTP", 20), ("TTIN", 21), ("TTOU", 22), ("URG", 23), ("XCPU", 24), ("XFSZ", 25),
    ("VTALRM", 26), ("PROF", 27), ("WINCH", 28), ("IO", 29), ("PWR", 30), ("SYS", 31)]

def signalName? (signal : Nat) : Option String :=
  (signals.find? fun entry => entry.2 == signal).map Prod.fst

def message : Ending → String
  | exited status => "exit status: " ++ toString status
  | signalled signal =>
    let name := (signalName? signal).map fun name => " (SIG" ++ name ++ ")"
    "signal: " ++ toString signal ++ name.getD ""

end Ending

/-- Why a stream of a program cannot be used. -/
inductive StreamFault where
  /-- there is no stream -/
  | closed
  /-- the stream leads the other way -/
  | opposite
  | directory
  | full
  deriving DecidableEq, Repr

def StreamFault.reason : StreamFault → String
  | closed => "Bad file descriptor"
  | opposite => "Bad file descriptor"
  | directory => "Is a directory"
  | full => "No space left on device"

/-- What a program is started with. -/
structure Invocation where
  /-- the name it is started under -/
  name : String
  arguments : List String
  input : List UInt8
  /-- variables that are handed on from program to program -/
  environment : List (String × String) := []
  /-- the files that it sees, from the directory that it works in -/
  disk : Disk
  inputFault : Option StreamFault := none
  outputFault : Option StreamFault := none
  /-- the file that the input comes from -/
  inputFile : Option Location := none
  /-- a file that the output is added to -/
  outputFile : Option Location := none

/-- What a program leaves behind. -/
structure Outcome where
  output : List UInt8 := []
  errors : List UInt8 := []
  ending : Ending := .exited 0
  /-- the part of the input that was not read -/
  unread : List UInt8 := []
  /-- what the disk holds in the end, if that has changed -/
  entries : Option (List (Location × Entry)) := none

abbrev Program := Invocation → Outcome

/-- What surrounds the site: the user's home directory and the programs that can be run. -/
structure Host where
  home : Path
  program? : String → Option Program

namespace Command

/-! ### Running a command -/

/-- A command that cannot be started. -/
def cannotStart (program detail : String) : Failure :=
  (Failure.plain detail).within ("failed to start " ++ ticked program)

/-- The disk as it is seen from another of its directories. -/
def enter (disk : Disk) (directory : Path) : Except DiskError Disk := do
  match ← disk.find directory with
  | (location, .directory) => .ok { disk with workDir := location }
  | _ => .error .notDirectory

/-- Why a program that is not installed cannot be run: there is none of its name, or what has
the name is no program. -/
def missingProgram (disk : Disk) (name : String) : String :=
  if !name.toList.contains '/' then DiskError.notFound.message
  else
    match disk.find ⟨name⟩ with
    | .ok _ => "Permission denied (os error 13)"
    | .error error => error.message

/-- The outcome of the program of a name, if it can be started. -/
def start (host : Host) (invocation : Invocation) (directory : Option Path) :
    Except Failure Outcome :=
  let name := invocation.name
  if (name :: invocation.arguments).any fun text => text.toList.contains '\x00' then
    .error (cannotStart name "nul byte found in provided data")
  else
    let entered :=
      match directory with
      | some directory => enter invocation.disk directory
      | none => .ok invocation.disk
    match host.program? name, entered with
    | _, .error error => .error (cannotStart name error.message)
    | some program, .ok disk => .ok (program { invocation with disk })
    | none, .ok disk => .error (cannotStart name (missingProgram disk name))

/-- The number of bytes that can be written to a program that reads none of them. -/
def pipeCapacity : Nat := 65536

/-- The output of a program that ended well and took its input, as text. -/
def outputOf (name : String) (outcome : Outcome) : Except Failure String :=
  match outcome.ending with
  | .exited 0 =>
    if pipeCapacity < outcome.unread.length then
      .error ((Failure.plain "Broken pipe (os error 32)").within
        ("failed to write to " ++ ticked name))
    else
      match Text.decodeUtf8 outcome.output with
      | .ok text => .ok text
      | .error error =>
        .error ((Failure.plain error.message).within (ticked name ++ " printed invalid UTF-8"))
  | ending =>
    let errors := Text.trim (Text.decodeUtf8Lossy outcome.errors).toList
    .error (.plain (ticked name ++ " exited with " ++ ending.message ++ ": "
      ++ String.ofList errors))

/-- Runs a command, given as a program and its first arguments, on an input. It runs in
`directory`, or else where the run itself takes place. What it does to files stays done,
however it ends. -/
def pipe (host : Host) (directory : Option Path) (command arguments : List String)
    (input : String) : Job String := do
  match command with
  | [] => throw (.plain "command must have at least one element")
  | name :: leading =>
    let disk ← Job.disk
    let invocation : Invocation :=
      { name, arguments := leading ++ arguments, input := Text.encodeUtf8 input, disk }
    let outcome ← Job.ofExcept (start host invocation directory)
    let entries := outcome.entries.getD disk.entries
    modify fun session => { session with disk := { disk with entries } }
    Job.ofExcept (outputOf name outcome)

end Command

end SiteTree
