import SiteTree.Disk.Basic

/-!
# Following paths

A path is followed name by name. Every name but the last must lead to a directory, `..` goes
to the parent of the directory reached, and a link is replaced by the path it holds. At most
forty links are followed.
-/

namespace SiteTree.Disk

/-! ### Routes -/

/-- A path as it is followed: where it begins, its names, and whether a slash comes behind
the last of them. The names can be `.` and `..`. -/
structure Route where
  start : Location
  names : List String
  slash : Bool
  deriving DecidableEq, Repr

/-- The names of a path, and whether it ends in a slash. -/
def names (path : Path) : List String × Bool :=
  let segments := path.segments
  (segments.filter fun s => s != "", segments.getLast? == some "")

/-- The route of a path, seen from the directory `here`. -/
def routeFrom (here : Location) (path : Path) : Route :=
  let (names, slash) := names path
  ⟨if path.isAbsolute then [] else here, names, slash⟩

/-- The longest path that is followed, in bytes. -/
def maxPath : Nat := 4095

/-- The route of a path that a program hands over. -/
def route (disk : Disk) (path : Path) : Except DiskError Route :=
  if path.text.toList.contains '\x00' then .error .zeroInPath
  else if path.text.isEmpty then .error .notFound
  else if maxPath < path.text.utf8ByteSize then .error .nameTooLong
  else .ok (routeFrom disk.workDir path)

/-! ### Walking -/

/-- What a path is followed for. -/
inductive Purpose where
  /-- to see what stands at its end; a link there is followed only if a slash comes behind it -/
  | look
  /-- to see what it leads to -/
  | reach
  /-- to write a file, behind whose name there can be no slash -/
  | write
  deriving DecidableEq, Repr

/-- Where a path leads, and what stands there, if anything. -/
structure Spot where
  location : Location
  entry : Option Entry

/-- The longest name that an entry can have, in bytes. -/
def maxName : Nat := 255

/-- The number of links that are followed on the way along one path. -/
def maxLinks : Nat := 40

/-- Follows names from a directory. -/
def walk (disk : Disk) (purpose : Purpose) (links : Nat) (here : Location)
    (names : List String) (slash : Bool) : Except DiskError Spot :=
  match names with
  | [] => .ok ⟨here, some .directory⟩
  | name :: rest =>
    if name = "." then disk.walk purpose links here rest slash
    else if name = ".." then disk.walk purpose links here.dropLast rest slash
    else if purpose = .write ∧ rest.isEmpty ∧ slash then .error .isDirectory
    else if maxName < name.utf8ByteSize then .error .nameTooLong
    else
      let location := here ++ [name]
      match disk.get? location with
      | none => if rest.isEmpty then .ok ⟨location, none⟩ else .error .notFound
      | some .directory => disk.walk purpose links location rest slash
      | some (.file content) =>
        if rest.isEmpty ∧ !slash then .ok ⟨location, some (.file content)⟩
        else .error .notDirectory
      | some (.link target) =>
        if purpose = .look ∧ rest.isEmpty ∧ !slash then .ok ⟨location, some (.link target)⟩
        else
          match links with
          | 0 => .error .tooManyLinks
          | links + 1 =>
            let route := routeFrom here target
            disk.walk purpose links route.start (route.names ++ rest)
              (slash || (rest.isEmpty && route.slash))
termination_by (links, names.length)

/-- What a path leads to. -/
def locate (disk : Disk) (purpose : Purpose) (path : Path) : Except DiskError Spot := do
  let route ← disk.route path
  disk.walk purpose maxLinks route.start route.names route.slash

/-- The location and entry that a path leads to, links being followed. -/
def find (disk : Disk) (path : Path) : Except DiskError (Location × Entry) := do
  match ← disk.locate .reach path with
  | ⟨location, some entry⟩ => .ok (location, entry)
  | ⟨_, none⟩ => .error .notFound

/-- Does the path lead to anything? -/
def exists? (disk : Disk) (path : Path) : Bool :=
  (disk.find path).isOk

/-- Does the path lead to a directory? -/
def isDirectory? (disk : Disk) (path : Path) : Bool :=
  match disk.find path with
  | .ok (_, entry) => entry.isDirectory
  | .error _ => false

/-- The entry that a path names, a link at its end not being followed. -/
def entryAt (disk : Disk) (path : Path) : Except DiskError (Location × Entry) := do
  match ← disk.locate .look path with
  | ⟨location, some entry⟩ => .ok (location, entry)
  | ⟨_, none⟩ => .error .notFound

/-- The absolute path without links, dots and extra slashes that leads to the same place. -/
def canonical (disk : Disk) (path : Path) : Except DiskError Path := do
  let (location, _) ← disk.find path
  return location.path

/-- The canonical path where there is one, and else the path made absolute. -/
def normalize (disk : Disk) (path : Path) : Path :=
  match disk.canonical path with
  | .ok path => path
  | .error _ => if path.isAbsolute then path else disk.workDir.path.join path

/-- A path that is written in the directory `base`, made absolute; a leading `~` stands for
the home directory. -/
def resolve (disk : Disk) (home base path : Path) : Path :=
  let path := path.expandHome home
  disk.normalize (if path.isAbsolute then path else base.join path)

end SiteTree.Disk
