import SiteTree.Proofs.Disk.Reads
import SiteTree.Proofs.Path.Parents

/-!
# Disks that are trees

On a disk as file systems keep it, every entry is in a directory. A path that leads somewhere then
leads to an entry, and the canonical path of what it leads to leads there as well, through no link.

* `IsTree.get?_of_find` — what a path leads to stands at the location found.
* `IsTree.locate_path` — the path of a location leads nowhere else.
-/

namespace SiteTree.Disk

/-- Every entry has a name that an entry can have, and is in a directory. -/
structure IsTree (disk : Disk) : Prop where
  isEntryName : ∀ entry ∈ disk.entries, ∀ name ∈ entry.1, IsEntryName name
  parent : ∀ location name, (disk.get? (location ++ [name])).isSome →
    disk.get? location = some .directory

variable {disk : Disk} {location : Location} {entry : Entry} {path : Path} {purpose : Purpose}

theorem mem_of_lookup {entries : List (Location × Entry)} (h : entries.lookup location = some entry) :
    (location, entry) ∈ entries := by
  induction entries with
  | nil => cases h
  | cons first entries ih =>
    obtain ⟨key, value⟩ := first
    rw [lookup_cons_ite] at h
    split at h
    · next hkey =>
      cases h
      rw [eq_of_beq hkey]
      exact List.mem_cons_self
    · exact List.mem_cons_of_mem _ (ih h)

theorem get?_cons (disk : Disk) (name : String) (rest : Location) :
    disk.get? (name :: rest) = disk.entries.lookup (name :: rest) :=
  rfl

theorem mem_of_get? (hroot : location ≠ []) (h : disk.get? location = some entry) :
    (location, entry) ∈ disk.entries := by
  obtain ⟨name, rest, rfl⟩ := List.exists_cons_of_ne_nil hroot
  exact mem_of_lookup h

/-- A disk is a tree if each of its entries is in a directory. -/
theorem isTree_of_entries (h : ∀ entry ∈ disk.entries,
    (∀ name ∈ entry.1, IsEntryName name) ∧ disk.get? entry.1.dropLast = some .directory) :
    disk.IsTree := by
  refine ⟨fun entry hentry => (h entry hentry).1, fun location name hsome => ?_⟩
  obtain ⟨entry, hentry⟩ := Option.isSome_iff_exists.mp hsome
  have := (h _ (mem_of_get? (by simp) hentry)).2
  rwa [List.dropLast_concat] at this

/-- A path that is followed at all is followed as it is written. -/
theorem eq_routeFrom_of_route {route : Route} (h : disk.route path = .ok route) :
    route = routeFrom disk.workDir path := by
  rw [Disk.route] at h
  split at h
  · cases h
  split at h
  · cases h
  split at h
  · cases h
  exact (Except.ok.inj h).symm

/-- What a path leads to is what its names lead to. -/
theorem find_eq_ok_iff : disk.find path = .ok (location, entry)
    ↔ disk.route path = .ok (routeFrom disk.workDir path) ∧
      disk.walk .reach maxLinks (routeFrom disk.workDir path).start
        (routeFrom disk.workDir path).names (routeFrom disk.workDir path).slash
          = .ok ⟨location, some entry⟩ := by
  rw [find, locate]
  cases hroute : disk.route path with
  | error error => simp [bind, Except.bind]
  | ok route =>
    obtain rfl := eq_routeFrom_of_route hroute
    simp only [bind, Except.bind, true_and]
    rcases disk.walk .reach maxLinks (routeFrom disk.workDir path).start
      (routeFrom disk.workDir path).names (routeFrom disk.workDir path).slash with
      error | ⟨found, _ | reached⟩
    all_goals simp

theorem isDirectory?_eq_true_iff :
    disk.isDirectory? path = true ↔ ∃ location, disk.find path = .ok (location, .directory) := by
  rw [isDirectory?]
  rcases disk.find path with error | ⟨location, _ | content | target⟩
  all_goals simp [Entry.isDirectory]

namespace IsTree

variable (htree : disk.IsTree)

include htree

theorem isEntryName_of_get? (h : disk.get? location = some entry) :
    ∀ name ∈ location, IsEntryName name := by
  intro name hname
  exact htree.isEntryName _ (mem_of_get? (List.ne_nil_of_mem hname) h) name hname

theorem get?_dropLast (h : (disk.get? location).isSome) :
    disk.get? location.dropLast = some .directory := by
  rcases List.eq_nil_or_concat' location with rfl | ⟨front, name, rfl⟩
  · rfl
  · rw [List.dropLast_concat]
    exact htree.parent front name h

/-- All that is on the way to an entry are directories. -/
theorem get?_of_prefix {front : Location} (h : (disk.get? location).isSome)
    (hfront : front <+: location) (hne : front ≠ location) :
    disk.get? front = some .directory := by
  obtain ⟨back, rfl⟩ := hfront
  induction back using List.reverseRecOn with
  | nil => simp at hne
  | append_singleton back name ih =>
    rw [← List.append_assoc] at h
    have hparent := htree.parent _ _ h
    by_cases hback : back = []
    · rwa [hback, List.append_nil] at hparent
    · exact ih (by rw [hparent]; rfl) (by simpa using hback)

theorem isSome_get?_of_prefix {front : Location} (h : (disk.get? location).isSome)
    (hfront : front <+: location) : (disk.get? front).isSome := by
  by_cases heq : front = location
  · rwa [heq]
  · rw [htree.get?_of_prefix h hfront heq]
    rfl

/-! ### Where paths lead -/

omit htree in
theorem get?_routeFrom_start {here : Location} (hhere : disk.get? here = some .directory)
    (path : Path) : disk.get? (routeFrom here path).start = some .directory := by
  have hstart : (routeFrom here path).start = if path.isAbsolute then [] else here := rfl
  rw [hstart]
  split
  · rfl
  · exact hhere

/-- A walk from a directory ends at what it finds. -/
theorem get?_of_walk {links : Nat} {here : Location} {names : List String} {slash : Bool}
    {entry : Option Entry} (hhere : disk.get? here = some .directory)
    (h : disk.walk purpose links here names slash = .ok ⟨location, entry⟩) :
    disk.get? location = entry := by
  by_cases hentry : entry = some .directory
  · subst hentry
    fun_induction Disk.walk disk purpose links here names slash
    case case1 =>
      cases h
      exact hhere
    case case2 ih => exact ih hhere h
    case case3 ih => exact ih (htree.get?_dropLast (by rw [hhere]; rfl)) h
    case case8 hentry ih => exact ih hentry h
    case case13 ih => exact ih (get?_routeFrom_start hhere _) h
    all_goals simp at h
  · exact Disk.get?_of_walk h hentry

/-- What is no directory is found in one. -/
theorem parent_of_walk {links : Nat} {here : Location} {names : List String} {slash : Bool}
    {entry : Option Entry} (hhere : disk.get? here = some .directory)
    (h : disk.walk purpose links here names slash = .ok ⟨location, entry⟩)
    (hentry : entry ≠ some .directory) :
    ∃ parent name, location = parent ++ [name] ∧ disk.get? parent = some .directory := by
  fun_induction Disk.walk disk purpose links here names slash
  case case1 =>
    cases h
    exact absurd rfl hentry
  case case2 ih => exact ih hhere h
  case case3 ih => exact ih (htree.get?_dropLast (by rw [hhere]; rfl)) h
  case case6 found _ _ =>
    obtain ⟨rfl, -⟩ : found = location ∧ none = entry := by simpa using h
    exact ⟨_, _, rfl, hhere⟩
  case case8 hdirectory ih => exact ih hdirectory h
  case case9 found content _ _ =>
    obtain ⟨rfl, -⟩ : found = location ∧ some (.file content) = entry := by simpa using h
    exact ⟨_, _, rfl, hhere⟩
  case case11 found target _ _ =>
    obtain ⟨rfl, -⟩ : found = location ∧ some (.link target) = entry := by simpa using h
    exact ⟨_, _, rfl, hhere⟩
  case case13 ih => exact ih (get?_routeFrom_start hhere _) h
  all_goals cases h

omit htree in
/-- Links at the end are followed when something is to be reached. -/
theorem not_link_of_walk {links : Nat} {here : Location} {names : List String} {slash : Bool}
    {target : Path} : disk.walk .reach links here names slash ≠ .ok ⟨location, some (.link target)⟩ := by
  intro h
  fun_induction Disk.walk disk .reach links here names slash
  case case2 ih => exact ih h
  case case3 ih => exact ih h
  case case8 ih => exact ih h
  case case13 ih => exact ih h
  case case11 hlook => exact absurd hlook.1 (by decide)
  all_goals simp at h

omit htree in
theorem get?_start_of_isAbsolute (habs : path.isAbsolute = true) (here : Location) :
    disk.get? (routeFrom here path).start = some .directory := by
  rw [Path.routeFrom_of_isAbsolute habs]
  rfl

theorem get?_of_find (habs : path.isAbsolute = true) (h : disk.find path = .ok (location, entry)) :
    disk.get? location = some entry ∧ ∀ target, entry ≠ .link target := by
  obtain ⟨-, hwalk⟩ := find_eq_ok_iff.mp h
  refine ⟨htree.get?_of_walk (get?_start_of_isAbsolute habs _) hwalk, ?_⟩
  rintro target rfl
  exact not_link_of_walk hwalk

/-- Names that lead down through directories lead nowhere else. -/
theorem eq_of_walk_location {links : Nat} {here : Location} {names : Location} {slash : Bool}
    {spot : Spot} (hhere : disk.get? here = some .directory)
    (hentry : disk.get? (here ++ names) = some entry) (hlink : ∀ target, entry ≠ .link target)
    (h : disk.walk purpose links here names slash = .ok spot) :
    spot = ⟨here ++ names, some entry⟩ := by
  have hnames := htree.isEntryName_of_get? hentry
  induction names generalizing here with
  | nil =>
    rw [List.append_nil, hhere] at hentry
    cases hentry
    rw [walk] at h
    cases h
    rw [List.append_nil]
  | cons name rest ih =>
    have hname := hnames name (by simp)
    have hcons : here ++ name :: rest = here ++ [name] ++ rest := by simp
    rw [walk, if_neg hname.ne_here, if_neg hname.ne_up] at h
    split at h
    · cases h
    split at h
    · cases h
    dsimp only at h
    rw [hcons] at hentry hnames ⊢
    by_cases hdirectory : disk.get? (here ++ [name]) = some .directory
    · rw [hdirectory] at h
      exact ih hdirectory hentry h hnames
    · -- What is no directory stands at the end of the names.
      have hlast : rest = [] := by
        by_contra hrest
        refine hdirectory (htree.get?_of_prefix (by rw [hentry]; rfl) (List.prefix_append _ _) ?_)
        simpa using hrest
      subst hlast
      rw [List.append_nil] at hentry ⊢
      rw [hentry] at h
      cases entry with
      | directory => exact absurd hentry hdirectory
      | file content =>
        dsimp only at h
        split at h
        · exact (Except.ok.inj h).symm
        · cases h
      | link target => exact absurd rfl (hlink target)

/-- The path of a location leads nowhere else, if it leads anywhere. -/
theorem locate_path {spot : Spot} (hentry : disk.get? location = some entry)
    (hlink : ∀ target, entry ≠ .link target)
    (h : disk.locate purpose location.path = .ok spot) : spot = ⟨location, some entry⟩ := by
  have hnames := Location.names_path (htree.isEntryName_of_get? hentry)
  rw [locate] at h
  cases hroute : disk.route location.path with
  | error error =>
    rw [hroute] at h
    cases h
  | ok route =>
    rw [hroute] at h
    obtain rfl : route = ⟨[], location, (names location.path).2⟩ := by
      rw [eq_routeFrom_of_route hroute, Path.routeFrom_of_isAbsolute location.isAbsolute_path,
        hnames]
    have hspot : spot = ⟨[] ++ location, some entry⟩ :=
      htree.eq_of_walk_location rfl hentry hlink h
    exact hspot

theorem find_path {found : Location × Entry} (hentry : disk.get? location = some entry)
    (hlink : ∀ target, entry ≠ .link target) (h : disk.find location.path = .ok found) :
    found = (location, entry) := by
  rw [find] at h
  cases hspot : disk.locate .reach location.path with
  | error error =>
    rw [hspot] at h
    cases h
  | ok spot =>
    rw [hspot, htree.locate_path hentry hlink hspot] at h
    exact (Except.ok.inj h).symm

theorem entryAt_path {found : Location × Entry} (hentry : disk.get? location = some entry)
    (hlink : ∀ target, entry ≠ .link target) (h : disk.entryAt location.path = .ok found) :
    found = (location, entry) := by
  rw [entryAt] at h
  cases hspot : disk.locate .look location.path with
  | error error =>
    rw [hspot] at h
    cases h
  | ok spot =>
    rw [hspot, htree.locate_path hentry hlink hspot] at h
    exact (Except.ok.inj h).symm

end IsTree

/-! ### Canonical paths -/

theorem canonical_eq_ok_iff {canonical : Path} :
    disk.canonical path = .ok canonical
      ↔ ∃ location entry, disk.find path = .ok (location, entry) ∧ canonical = location.path := by
  rw [Disk.canonical]
  cases disk.find path with
  | error error => simp [bind, Except.bind]
  | ok found =>
    obtain ⟨location, entry⟩ := found
    simp [bind, Except.bind, pure, Except.pure, eq_comm]

/-- A path is normalized to that of the location it leads to, if it leads anywhere. -/
theorem normalize_of_find (h : disk.find path = .ok (location, entry)) :
    disk.normalize path = location.path := by
  rw [normalize, canonical_eq_ok_iff.mpr ⟨location, entry, h, rfl⟩]

theorem normalize_of_error {error : DiskError} (habs : path.isAbsolute = true)
    (h : disk.find path = .error error) : disk.normalize path = path := by
  have hcanonical : disk.canonical path = .error error := by rw [canonical, h]; rfl
  rw [normalize, hcanonical]
  exact if_pos habs

end SiteTree.Disk
