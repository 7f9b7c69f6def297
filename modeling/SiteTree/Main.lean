import SiteTree.Shell.Host
import SiteTree.CommandLine.Usage
import SiteTree.Run

/-!
# The command line program

The program takes the directory that it is started in, and that of the project, as its disk,
runs on that, and then carries the changes out. It sees directories and files, and a link to a
file as the file.
-/

namespace SiteTree.Main

/-- An entry of a directory and all that is below it. -/
partial def readEntry (directory : Location) (entry : IO.FS.DirEntry) :
    IO (List (Location × Entry)) := do
  let location := directory ++ [entry.fileName]
  match (← entry.path.symlinkMetadata).type with
  | .dir =>
    let inner ← (← entry.path.readDir).toList.mapM (readEntry location)
    return (location, .directory) :: inner.flatten
  | _ =>
    try return [(location, .file (← IO.FS.readBinFile entry.path).data.toList)]
    catch _ => return []

/-- A directory with all that is in it and the directories above it. -/
def readDirectory (location : Location) : IO (List (Location × Entry)) := do
  let above := (List.range location.length).map fun i => (location.take (i + 1), Entry.directory)
  let inner ← (← (← IO.FS.realPath location.path.text).readDir).toList.mapM (readEntry location)
  return above ++ inner.flatten

/-- The names that lead to a directory, once its links are followed. -/
def realLocation (directory : String) : IO Location := do
  return (Disk.names ⟨(← IO.FS.realPath directory).toString⟩).1

/-- A disk with the directory that the program is started in and the one of the project. -/
def readDisk (root : Option Path) : IO Disk := do
  let workDir ← realLocation "."
  let project ← try realLocation (root.getD ⟨"."⟩).text catch _ => pure workDir
  let directories :=
    if workDir.isPrefixOf project then [workDir]
    else if project.isPrefixOf workDir then [project]
    else [workDir, project]
  let mut disk : Disk := { entries := [], workDir }
  for directory in directories do
    for (location, entry) in ← readDirectory directory do
      disk := disk.set location entry
  return disk

/-- Carries out what changed between two disks. -/
def carryOut (before after : Disk) : IO Unit := do
  for (location, entry) in (before.below []).reverse do
    if (after.get? location).map Entry.isDirectory != some entry.isDirectory then
      if entry.isDirectory then IO.FS.removeDir location.path.text
      else IO.FS.removeFile location.path.text
  for (location, entry) in after.below [] do
    if before.get? location != some entry then
      match entry with
      | .directory => IO.FS.createDirAll location.path.text
      | .file content => IO.FS.writeBinFile location.path.text ⟨content.toArray⟩
      | .link _ => pure ()

end SiteTree.Main

open SiteTree in
/-- Runs the program on the directory that it is started in. -/
def main (arguments : List String) : IO UInt32 := do
  match CommandLine.parse arguments with
  | .error error =>
    match error.answer? with
    | some lines => for line in lines do IO.println line
    | none => IO.eprintln ("error: " ++ error.message)
    return error.status.toUInt32
  | .ok options =>
    let disk ← Main.readDisk options.root
    let home := (← IO.getEnv "HOME").getD "/"
    let (result, session) := (Run.main (Host.withFilters ⟨home⟩) options).run.run { disk }
    for line in session.console do IO.print line
    Main.carryOut disk session.disk
    let (status, message) := Run.report result
    IO.eprint message
    return status.toUInt32
