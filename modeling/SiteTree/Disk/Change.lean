import SiteTree.Disk.Locate
import SiteTree.Text.Utf8

/-!
# Reading and changing files

The single steps that the file system offers. A step that is refused leaves the disk as it
was; making a directory with its parents is several steps, so the parents made before a
refusal stay.
-/

namespace SiteTree.Disk

/-! ### Reading -/

def readBytes (disk : Disk) (path : Path) : Except DiskError (List UInt8) := do
  match ← disk.find path with
  | (_, .file content) => .ok content
  | _ => .error .isDirectory

def readText (disk : Disk) (path : Path) : Except DiskError String := do
  match Text.decodeUtf8 (← disk.readBytes path) with
  | .ok text => .ok text
  | .error _ => .error .notText

/-- The target of a link. -/
def readLink (disk : Disk) (path : Path) : Except DiskError Path := do
  match ← disk.entryAt path with
  | (_, .link target) => .ok target
  | _ => .error .invalid

/-! ### Writing -/

/-- Writes a file, in place of what the file held before. A link at the end of the path is
followed, also when there is nothing behind it yet. -/
def writeBytes (disk : Disk) (path : Path) (content : List UInt8) : Except DiskError Disk := do
  match ← disk.locate .write path with
  | ⟨_, some .directory⟩ => .error .isDirectory
  | ⟨location, _⟩ => .ok (disk.set location (.file content))

/-- What the end of a path stands for, in a directory that is there. -/
inductive Place where
  /-- a name, which may stand for nothing -/
  | named (location : Location)
  /-- no name at all -/
  | root
  /-- `.` -/
  | here
  /-- `..` -/
  | up

def placeOf (disk : Disk) (route : Route) : Except DiskError Place := do
  match ← disk.walk .reach maxLinks route.start route.names.dropLast true with
  | ⟨_, none⟩ => .error .notFound
  | ⟨directory, some _⟩ =>
    match route.names.getLast? with
    | none => .ok .root
    | some "." => .ok .here
    | some ".." => .ok .up
    | some name =>
      if maxName < name.utf8ByteSize then .error .nameTooLong
      else .ok (.named (directory ++ [name]))

/-- The location that a path gives to something new. -/
def vacancy (disk : Disk) (route : Route) : Except DiskError Location := do
  match ← disk.placeOf route with
  | .named location =>
    if (disk.get? location).isSome then .error .exists else .ok location
  | _ => .error .exists

def makeDirectory (disk : Disk) (path : Path) : Except DiskError Disk := do
  return disk.set (← disk.vacancy (← disk.route path)) .directory

def makeLink (disk : Disk) (path target : Path) : Except DiskError Disk := do
  let route ← disk.route path
  let location ← disk.vacancy route
  if route.slash ∨ target.text.isEmpty then .error .notFound
  else .ok (disk.set location (.link target))

/-- Removes a file or a link. -/
def removeFile (disk : Disk) (path : Path) : Except DiskError Disk := do
  match ← disk.entryAt path with
  | (_, .directory) => .error .isDirectory
  | (location, _) => .ok (disk.eraseTree location)

/-! ### Whole directories -/

/-- The disk with nothing left in a directory. -/
def emptyDirectory (disk : Disk) (location : Location) : Disk :=
  { disk with
    entries := disk.entries.filter fun e => !(location.isPrefixOf e.1 && e.1 != location) }

/-- Removes an empty directory, which a path names by its own name. -/
def removeDirectory (disk : Disk) (path : Path) : Except DiskError Disk := do
  match ← disk.placeOf (← disk.route path) with
  | .root => .error .busy
  | .here => .error .invalid
  | .up => .error .notEmpty
  | .named location =>
    match disk.get? location with
    | none => .error .notFound
    | some .directory => .ok (disk.eraseTree location)
    | some _ => .error .notDirectory

/-- Removes a directory with everything below it, or a link. A directory that cannot be
removed itself is left empty. The path may lead through what it removes; then it leads nowhere
in the end, and that is fine. -/
def removeTree (disk : Disk) (path : Path) : Option DiskError × Disk :=
  match disk.entryAt path with
  | .error error => (some error, disk)
  | .ok (_, .file _) => (some .notDirectory, disk)
  | .ok (location, .link _) => (none, disk.eraseTree location)
  | .ok (location, .directory) =>
    let emptied := disk.emptyDirectory location
    match emptied.removeDirectory path with
    | .ok disk => (none, disk)
    | .error .notFound => (none, emptied)
    | .error error => (some error, emptied)

/-- Makes a directory where the answer to the first try is known, its parents being made by
`parents` if they are missing. -/
def makeDirectoryWith (disk : Disk) (path : Path) (parents : Disk → Option DiskError × Disk) :
    Option DiskError × Disk :=
  let settle (disk : Disk) (error : DiskError) : Option DiskError × Disk :=
    if disk.isDirectory? path then (none, disk) else (some error, disk)
  match disk.makeDirectory path with
  | .ok disk => (none, disk)
  | .error .notFound =>
    match parents disk with
    | (some error, disk) => (some error, disk)
    | (none, disk) =>
      match disk.makeDirectory path with
      | .ok disk => (none, disk)
      | .error error => settle disk error
  | .error error => settle disk error

/-- Makes the first of some paths, each of which is the parent of the one before it. -/
def makeChain : List Path → Disk → Option DiskError × Disk
  | [], disk => (some .notFound, disk)
  | path :: parents, disk =>
    if path.text.isEmpty then (none, disk)
    else disk.makeDirectoryWith path (makeChain parents)

/-- Makes a directory with all its parents; a directory that is there already is fine. -/
def makeDirectories (disk : Disk) (path : Path) : Option DiskError × Disk :=
  makeChain (path :: path.parents) disk

/-- Copies a file's content. Links at the end of either path are followed; a file copied
onto itself ends up empty, because its content is read only after it was emptied. -/
def copyFile (disk : Disk) (source target : Path) : Except DiskError Disk := do
  match ← disk.find source with
  | (_, .file _) =>
    let emptied ← disk.writeBytes target []
    let content ← emptied.readBytes source
    emptied.writeBytes target content
  | _ => .error .notFile

end SiteTree.Disk
