import SiteTree.Disk.Change

/-!
# Making directories

* `makeDirectories_of_free` — a directory is made in one that is there.
* `makeDirectories_of_directory` — making a directory that is there changes nothing.
-/

namespace SiteTree.Disk

variable {disk : Disk}

theorem walk_reach_directory {links : Nat} {here : Location} {name : String}
    {rest : List String} {slash : Bool} (hhere : name ≠ ".") (hup : name ≠ "..")
    (hshort : ¬ maxName < name.utf8ByteSize)
    (hentry : disk.get? (here ++ [name]) = some .directory) :
    disk.walk .reach links here (name :: rest) slash
      = disk.walk .reach links (here ++ [name]) rest slash := by
  rw [walk, if_neg hhere, if_neg hup, if_neg (fun h => absurd h.1 (by decide)), if_neg hshort]
  dsimp only
  rw [hentry]

theorem walk_reach_file {links : Nat} {here : Location} {name : String} {content : List UInt8}
    (hhere : name ≠ ".") (hup : name ≠ "..") (hshort : ¬ maxName < name.utf8ByteSize)
    (hentry : disk.get? (here ++ [name]) = some (.file content)) :
    disk.walk .reach links here [name] false
      = .ok ⟨here ++ [name], some (.file content)⟩ := by
  rw [walk, if_neg hhere, if_neg hup, if_neg (fun h => absurd h.1 (by decide)), if_neg hshort]
  dsimp only
  rw [hentry]
  rfl

/-- The path gives a name to something in a directory that is there. -/
structure Names (disk : Disk) (path : Path) (route : Route) (parent : Location)
    (name : String) : Prop where
  routed : disk.route path = .ok route
  reached : disk.walk .reach maxLinks route.start route.names.dropLast true
    = .ok ⟨parent, some .directory⟩
  last : route.names.getLast? = some name
  ne_here : name ≠ "."
  ne_up : name ≠ ".."
  short : ¬ maxName < name.utf8ByteSize

namespace Names

variable {path : Path} {route : Route} {parent : Location} {name : String}

theorem text_ne_empty (h : disk.Names path route parent name) : path.text.isEmpty = false := by
  rw [Bool.eq_false_iff]
  intro hempty
  have hroute := h.routed
  rw [Disk.route, if_pos hempty] at hroute
  split at hroute
  · cases hroute
  · cases hroute

theorem placeOf (h : disk.Names path route parent name) :
    disk.placeOf route = .ok (.named (parent ++ [name])) := by
  have hhere := h.ne_here
  have hup := h.ne_up
  rw [Disk.placeOf, h.reached]
  simp [h.last, h.short, bind, Except.bind]

theorem makeDirectory (h : disk.Names path route parent name) :
    disk.makeDirectory path
      = if (disk.get? (parent ++ [name])).isSome then .error .exists
        else .ok (disk.set (parent ++ [name]) .directory) := by
  rw [Disk.makeDirectory, h.routed]
  simp only [vacancy, h.placeOf, bind, Except.bind, pure, Except.pure]
  cases (disk.get? (parent ++ [name])).isSome with
  | false => rfl
  | true => rfl

end Names

variable {path : Path} {route : Route} {parent : Location} {name : String}

theorem makeDirectories_of_free (h : disk.Names path route parent name)
    (hfree : disk.get? (parent ++ [name]) = none) :
    disk.makeDirectories path = (none, disk.set (parent ++ [name]) .directory) := by
  rw [makeDirectories, makeChain, if_neg (by simp [h.text_ne_empty]), makeDirectoryWith,
    h.makeDirectory, hfree]
  rfl

theorem makeDirectories_of_directory (h : disk.Names path route parent name)
    (hthere : disk.walk .reach maxLinks route.start route.names route.slash
      = .ok ⟨parent ++ [name], some .directory⟩)
    (hentry : disk.get? (parent ++ [name]) = some .directory) :
    disk.makeDirectories path = (none, disk) := by
  have hdirectory : disk.isDirectory? path = true := by
    rw [isDirectory?, find, locate, h.routed]
    simp [hthere, bind, Except.bind, Entry.isDirectory]
  rw [makeDirectories, makeChain, if_neg (by simp [h.text_ne_empty]), makeDirectoryWith,
    h.makeDirectory, hentry]
  simp [hdirectory]

end SiteTree.Disk
