import SiteTree.Path

/-!
# The file system

A disk is a finite map from locations to entries. A location is the list of names that leads
from the root to an entry; a link holds the path it points to, which is read only when
something follows the link.

A directory keeps the order in which its entries were made.

* `get?_set`, `get?_eraseTree` — what one change does to every location.
* `perm_below` — listing what is below a location leaves nothing out and adds nothing.
-/

namespace SiteTree

/-- The names that lead from the root to an entry. -/
abbrev Location := List String

/-- The path that spells a location out. -/
def Location.path (location : Location) : Path :=
  Path.ofSegments true location

/-- What can stand at a location. -/
inductive Entry where
  | directory
  | file (content : List UInt8)
  | link (target : Path)
  deriving DecidableEq, Inhabited

def Entry.isDirectory : Entry → Bool
  | .directory => true
  | _ => false

/-- Why the file system refuses. -/
inductive DiskError where
  | notFound
  | notDirectory
  | isDirectory
  | exists
  | tooManyLinks
  | nameTooLong
  | busy
  | notEmpty
  /-- an operation that does not apply to what it was asked of -/
  | invalid
  /-- a path with a zero character -/
  | zeroInPath
  /-- a file that is not UTF-8 was to be read as text -/
  | notText
  /-- a copy was to be made of something other than a file -/
  | notFile
  deriving DecidableEq, Repr

def DiskError.message : DiskError → String
  | .notFound => "No such file or directory (os error 2)"
  | .notDirectory => "Not a directory (os error 20)"
  | .isDirectory => "Is a directory (os error 21)"
  | .exists => "File exists (os error 17)"
  | .tooManyLinks => "Too many levels of symbolic links (os error 40)"
  | .nameTooLong => "File name too long (os error 36)"
  | .busy => "Device or resource busy (os error 16)"
  | .notEmpty => "Directory not empty (os error 39)"
  | .invalid => "Invalid argument (os error 22)"
  | .zeroInPath => "file name contained an unexpected NUL byte"
  | .notText => "stream did not contain valid UTF-8"
  | .notFile => "the source path is neither a regular file nor a symlink to a regular file"

/-- The reason alone, without its number. -/
def DiskError.reason (error : DiskError) : String :=
  (error.message.splitOn " (os error").headD ""

/-- A file system as a program sees it that works in one of its directories. The entries are
in the order in which they were made; the root is always a directory and is not listed. -/
structure Disk where
  entries : List (Location × Entry)
  workDir : Location
  deriving Inhabited

namespace Disk

/-- The entry at a location. -/
def get? (disk : Disk) : Location → Option Entry
  | [] => some .directory
  | location => disk.entries.lookup location

/-- Puts an entry in the place of the one at its location, or behind all others. -/
def putEntry (location : Location) (entry : Entry) :
    List (Location × Entry) → List (Location × Entry)
  | [] => [(location, entry)]
  | e :: entries =>
    if e.1 = location then (location, entry) :: entries
    else e :: putEntry location entry entries

/-- The disk with an entry at a location, in place of what was there. -/
def set (disk : Disk) (location : Location) (entry : Entry) : Disk :=
  { disk with entries := putEntry location entry disk.entries }

/-- The disk without a location and everything below it. -/
def eraseTree (disk : Disk) (location : Location) : Disk :=
  { disk with entries := disk.entries.filter fun e => !location.isPrefixOf e.1 }

/-- How many entries were made before the one at a location. -/
def age (disk : Disk) (location : Location) : Nat :=
  disk.entries.findIdx fun e => e.1 == location

/-- The ages of the entries on the way to a location, its own among them. -/
def ages (disk : Disk) (location : Location) : List Nat :=
  (List.range location.length).map fun i => disk.age (location.take (i + 1))

/-- The order in which directories are listed: each comes before what it holds, and what was
made earlier comes first. -/
def isListedBefore : List Nat → List Nat → Bool
  | [], _ => true
  | _ :: _, [] => false
  | a :: as, b :: bs => if a = b then isListedBefore as bs else decide (a ≤ b)

/-- The locations strictly below a location with their entries, in the order in which
directories are listed. -/
def below (disk : Disk) (location : Location) : List (Location × Entry) :=
  let inside := disk.entries.filter fun e => location.isPrefixOf e.1 && e.1 != location
  let aged := inside.map fun e => (disk.ages e.1, e)
  (aged.mergeSort fun a b => isListedBefore a.1 b.1).map Prod.snd

/-! ### Lemmas -/

theorem lookup_cons_ite {α β : Type} [BEq α] (key a : α) (value : β) (entries : List (α × β)) :
    ((key, value) :: entries).lookup a = if a == key then some value else entries.lookup a := by
  cases h : a == key <;> simp [List.lookup_cons, h]

/-- Leaving out keys changes a look-up of those keys only. -/
theorem lookup_filter {α β : Type} [BEq α] [LawfulBEq α] (keep : α → Bool) (a : α)
    (entries : List (α × β)) :
    (entries.filter fun e => keep e.1).lookup a
      = if keep a then entries.lookup a else none := by
  induction entries with
  | nil => simp
  | cons e entries ih =>
    obtain ⟨key, value⟩ := e
    rw [lookup_cons_ite, List.filter_cons]
    cases ha : a == key with
    | true =>
      obtain rfl := eq_of_beq ha
      cases hkeep : keep a <;> simp [ih, hkeep]
    | false => cases hkeep : keep key <;> simp [ih, lookup_cons_ite, ha]

theorem lookup_putEntry (location other : Location) (entry : Entry)
    (entries : List (Location × Entry)) :
    (putEntry location entry entries).lookup other
      = if other = location then some entry else entries.lookup other := by
  induction entries with
  | nil => simp [putEntry, lookup_cons_ite]
  | cons e entries ih =>
    obtain ⟨key, value⟩ := e
    rw [putEntry]
    by_cases h : key = location
    · subst h
      by_cases ho : other = key <;> simp [lookup_cons_ite, ho]
    · by_cases ho : other = location
      · subst ho
        simp [h, lookup_cons_ite, ih, Ne.symm h]
      · simp [h, lookup_cons_ite, ih, ho]

theorem get?_set {disk : Disk} {location : Location} {entry : Entry} (hroot : location ≠ [])
    (other : Location) :
    (disk.set location entry).get? other
      = if other = location then some entry else disk.get? other := by
  cases other with
  | nil => simp [get?, Ne.symm hroot]
  | cons name rest => simp only [get?, set, lookup_putEntry]

theorem get?_eraseTree {disk : Disk} {location other : Location} (hother : other ≠ []) :
    (disk.eraseTree location).get? other
      = if location.isPrefixOf other then none else disk.get? other := by
  cases other with
  | nil => exact absurd rfl hother
  | cons name rest =>
    simp only [get?, eraseTree]
    rw [lookup_filter (fun l => !location.isPrefixOf l)]
    cases location.isPrefixOf (name :: rest) <;> simp

theorem perm_below (disk : Disk) (location : Location) :
    (disk.below location).Perm
      (disk.entries.filter fun e => location.isPrefixOf e.1 && e.1 != location) := by
  refine ((List.mergeSort_perm _ _).map Prod.snd).trans ?_
  simp [List.map_map, Function.comp_def]

end Disk

end SiteTree
