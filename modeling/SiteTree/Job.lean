import SiteTree.Console
import SiteTree.Failure

/-!
# Jobs

A job reads and changes the disk, writes lines to the console, and ends with a result or a
failure. What it did before a failure stays done.
-/

namespace SiteTree

/-- What jobs change. -/
structure Session where
  disk : Disk
  /-- the lines written so far -/
  console : List String := []

abbrev Job (α : Type) := ExceptT Failure (StateM Session) α

namespace Job

variable {α : Type}

/-- The job with its failures seen from one context further out. -/
def within (context : String) (job : Job α) : Job α :=
  ExceptT.adapt (Failure.within context) job

def ofExcept (result : Except Failure α) : Job α :=
  match result with
  | .ok value => pure value
  | .error failure => throw failure

/-- Writes a line to the console. -/
def log (module message : String) : Job Unit :=
  modify fun session =>
    { session with console := session.console ++ [Console.line false module message] }

/-- What the disk holds. -/
def disk : Job Disk := do
  return (← get).disk

/-- Changes the disk in one step that can be refused. -/
def change (step : Disk → Except DiskError Disk) (refused : DiskError → Failure) : Job Unit := do
  match step (← disk) with
  | .ok disk => modify fun session => { session with disk }
  | .error error => throw (refused error)

/-- Changes the disk in several steps; what was done before one of them is refused stays. -/
def changeAnyway (steps : Disk → Option DiskError × Disk) (refused : DiskError → Failure) :
    Job Unit := do
  let (error?, disk) := steps (← disk)
  modify fun session => { session with disk }
  match error? with
  | none => pure ()
  | some error => throw (refused error)

end Job

end SiteTree
