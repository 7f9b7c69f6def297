import SiteTree.Disk.Change
import SiteTree.Job

/-!
# Files of a build

Reading, writing, deleting and copying, with failures that name the path they are about.
-/

namespace SiteTree.Files

/-! ### Reading -/

/-- The text of a file. -/
def read (disk : Disk) (path : Path) : Except Failure String :=
  match disk.readText path with
  | .ok text => .ok text
  | .error error => .error (.of (.build (.read path error)))

/-- The texts of several files, one behind the other. -/
def readAll (disk : Disk) (paths : List Path) : Except Failure String := do
  return String.join (← paths.mapM (read disk))

/-! ### Writing -/

/-- Writes a file, in place of what the file held before. -/
def write (path : Path) (text : String) : Job Unit :=
  Job.change (fun disk => disk.writeBytes path (Text.encodeUtf8 text)) fun error =>
    .of (.build (.write path error))

/-- Makes a directory with its parents; one that is there already is fine. -/
def makeDirectory (path : Path) : Job Unit :=
  Job.changeAnyway (fun disk => disk.makeDirectories path) fun error =>
    .of (.build (.write path error))

/-! ### Deleting -/

/-- Deletes a directory with all that is in it. The root of the file system is refused; what
is not there need not be deleted. -/
def removeDirectory (path : Path) : Job Unit := do
  let disk ← Job.disk
  let resolved := (disk.canonical path).toOption.getD path
  let message := "could not delete " ++ ticked path.text
  if resolved.parent?.isNone then throw (.of (.build (.rootPath resolved)))
  else if disk.exists? path then
    Job.changeAnyway (fun disk => disk.removeTree path) fun error =>
      (Failure.plain error.message).within message
    if (← Job.disk).exists? path then throw (.plain message)

/-! ### Copying -/

/-- Copies a file; the directory it is copied into is made if it is missing. -/
def copyFile (source target : Path) : Job Unit := do
  match target.parent? with
  | some parent => makeDirectory parent
  | none => pure ()
  Job.change (fun disk => disk.copyFile source target) fun error =>
    (Failure.plain error.message).within
      ("could not copy " ++ ticked source.text ++ " to " ++ ticked target.text)

/-- Makes a link like another one, in place of the file or link that is there. -/
def copyLink (source target : Path) : Job Unit := do
  let pointee ←
    match (← Job.disk).readLink source with
    | .ok pointee => pure pointee
    | .error error =>
      throw ((Failure.plain error.message).within ("could not read link " ++ ticked source.text))
  if ((← Job.disk).entryAt target).isOk then
    Job.change (fun disk => disk.removeFile target) fun error =>
      (Failure.plain error.message).within ("could not replace " ++ ticked target.text)
  Job.change (fun disk => disk.makeLink target pointee) fun error =>
    (Failure.plain error.message).within ("could not link " ++ ticked target.text)

/-- Copies what stands at a location below a directory to the same place below another
directory. -/
def copyEntry (source target : Path) (relative : Location) (entry : Entry) : Job Unit :=
  let place (directory : Path) : Path := directory.join (Path.ofSegments false relative)
  match entry with
  | .directory => makeDirectory (place target)
  | .link _ => copyLink (place source) (place target)
  | .file _ => copyFile (place source) (place target)

/-- What is below a directory, as the names that lead there and what they lead to. Links
below it are not followed. -/
def contents (disk : Disk) (directory : Path) : Except Failure (List (Location × Entry)) :=
  match disk.find directory with
  | .ok (location, _) =>
    .ok ((disk.below location).map fun (below, entry) => (below.drop location.length, entry))
  | .error error =>
    let detail := error.message
    .error (((Failure.plain detail).within
      ("IO error for operation on " ++ directory.text ++ ": " ++ detail)).within
        ("could not walk " ++ ticked directory.text))

/-- Copies everything that is in a directory into another one, and answers how much that
was. -/
def copyContents (source target : Path) : Job Nat := do
  makeDirectory target
  let entries ← Job.ofExcept (contents (← Job.disk) source)
  for (relative, entry) in entries do
    copyEntry source target relative entry
  return entries.length

/-- Copies a directory itself into another one, and answers where it went. -/
def copyDirectory (source target : Path) : Job Path := do
  match source.fileName? with
  | none => throw (.plain (ticked source.text ++ " has no directory name"))
  | some name =>
    let target := target.join ⟨name⟩
    let _ ← copyContents source target
    return target

end SiteTree.Files
