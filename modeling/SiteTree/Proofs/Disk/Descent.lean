import SiteTree.Proofs.Disk.NewDirectories
import Mathlib.Data.List.Infix

/-!
# Disks without links

Without links, paths lead where their names say: each name leads one directory down, and `..` one
up. So the place of a path can be told from the path, and a walk sees only what is at the places of
its stretches.

* `Disk.LinkFree.location_of_walk` — a walk ends at the place that its names lead to.
* `Disk.LinkFree.walk_congr` — disks that have the same at these places are walked alike.
-/

namespace SiteTree

namespace Location

/-- Where names lead from a directory, if no link comes in the way. -/
def descend (here : Location) : List String → Location
  | [] => here
  | name :: rest =>
    if name = "." then descend here rest
    else if name = ".." then descend here.dropLast rest
    else descend (here ++ [name]) rest

variable {here : Location} {names : List String}

theorem descend_append (here : Location) (front rest : List String) :
    descend here (front ++ rest) = descend (descend here front) rest := by
  induction front generalizing here with
  | nil => rfl
  | cons name front ih =>
    rw [List.cons_append, descend, descend]
    split
    · exact ih here
    · split
      · exact ih here.dropLast
      · exact ih (here ++ [name])

/-- Names that do not lead up lead further down. -/
theorem prefix_descend (h : ".." ∉ names) : here <+: descend here names := by
  induction names generalizing here with
  | nil => exact List.prefix_rfl
  | cons name rest ih =>
    simp only [List.mem_cons, not_or] at h
    rw [descend, if_neg (Ne.symm h.1)]
    split
    · exact ih h.2
    · exact (List.prefix_append here [name]).trans (ih h.2)

theorem isEntryName_descend (hhere : ∀ name ∈ here, IsEntryName name)
    (hnames : ∀ name ∈ names, '/' ∉ name.toList ∧ name ≠ "") :
    ∀ name ∈ descend here names, IsEntryName name := by
  induction names generalizing here with
  | nil => exact hhere
  | cons first rest ih =>
    have hrest := fun other hother => hnames other (List.mem_cons_of_mem first hother)
    obtain ⟨hslash, hempty⟩ := hnames first List.mem_cons_self
    rw [descend]
    split
    · exact ih hhere hrest
    next hfirst =>
    split
    · exact ih (fun name hname => hhere name (List.dropLast_subset here hname)) hrest
    next hup =>
    refine ih (fun name hname => ?_) hrest
    rcases List.mem_append.mp hname with hname | hname
    · exact hhere name hname
    · rw [List.mem_singleton.mp hname]
      exact ⟨hslash, hempty, hfirst, hup⟩

end Location

namespace Path

/-- Where an absolute path leads, if no link comes in the way. -/
def place (path : Path) : Location :=
  Location.descend [] path.names

theorem isEntryName_place (path : Path) : ∀ name ∈ path.place, IsEntryName name :=
  Location.isEntryName_descend (fun _ hname => absurd hname List.not_mem_nil)
    fun _ hname => noSlash_of_mem_names hname

end Path

namespace Disk

/-- There are no symbolic links. -/
def LinkFree (disk : Disk) : Prop :=
  ∀ entry ∈ disk.entries, ∀ target, entry.2 ≠ .link target

namespace LinkFree

variable {disk : Disk} {location here : Location} {path : Path} {purpose : Purpose} {links : Nat}
  {names : List String} {slash : Bool} (hfree : disk.LinkFree)

include hfree

theorem get?_ne_link (location : Location) (target : Path) :
    disk.get? location ≠ some (.link target) := by
  intro hlink
  cases location with
  | nil => cases hlink
  | cons name rest => exact hfree _ (mem_of_get? (by simp) hlink) target rfl

theorem eraseTree (location : Location) : (disk.eraseTree location).LinkFree :=
  fun entry hentry => hfree entry (List.mem_filter.mp hentry).1

theorem set {entry : Entry} (hlink : ∀ target, entry ≠ .link target) (location : Location) :
    (disk.set location entry).LinkFree := by
  intro other hother target
  rcases mem_putEntry hother with rfl | hother
  · exact hlink target
  · exact hfree other hother target

theorem location_of_walk {spot : Spot} (h : disk.walk purpose links here names slash = .ok spot) :
    spot.location = Location.descend here names := by
  fun_induction Disk.walk disk purpose links here names slash
  case case1 =>
    cases h
    rfl
  case case2 ih =>
    rw [Location.descend, if_pos rfl]
    exact ih h
  case case3 hhere ih =>
    rw [Location.descend, if_neg hhere, if_pos rfl]
    exact ih h
  case case6 hhere hup _ _ _ _ hlast =>
    cases h
    rw [Location.descend, if_neg hhere, if_neg hup, List.isEmpty_iff.mp hlast, Location.descend]
  case case8 hhere hup _ _ _ _ ih =>
    rw [Location.descend, if_neg hhere, if_neg hup]
    exact ih h
  case case9 hhere hup _ _ _ _ _ hlast =>
    cases h
    rw [Location.descend, if_neg hhere, if_neg hup, List.isEmpty_iff.mp hlast.1, Location.descend]
  case case11 hlink _ => exact absurd hlink (hfree.get?_ne_link _ _)
  case case12 hlink _ => exact absurd hlink (hfree.get?_ne_link _ _)
  case case13 hlink _ _ _ _ => exact absurd hlink (hfree.get?_ne_link _ _)
  all_goals cases h

/-- Without links, what is found is at the place of its path. -/
theorem place_of_find (habs : path.isAbsolute = true) {entry : Entry}
    (h : disk.find path = .ok (location, entry)) : location = path.place := by
  obtain ⟨-, hwalk⟩ := find_eq_ok_iff.mp h
  rw [Path.routeFrom_of_isAbsolute habs] at hwalk
  exact hfree.location_of_walk hwalk

/-- Without links, what a path names is at its place. -/
theorem place_of_names (habs : path.isAbsolute = true) {route : Route} {parent : Location}
    {name : String} (h : disk.Names path route parent name) :
    path.place = parent ++ [name] := by
  have hreached := h.reached
  obtain ⟨front, hfront⟩ := List.getLast?_eq_some_iff.mp h.last
  rw [eq_routeFrom_of_route h.routed, Path.routeFrom_of_isAbsolute habs] at hreached hfront
  have hnames : path.names = path.names.dropLast ++ [name] := by
    rw [show path.names = front ++ [name] from hfront, List.dropLast_concat]
  have hparent : parent = Location.descend [] path.names.dropLast :=
    hfree.location_of_walk hreached
  rw [Path.place, hnames, Location.descend_append, ← hparent, Location.descend,
    if_neg h.ne_here, if_neg h.ne_up, Location.descend]

/-- A walk sees only what is at the places that stretches of its names lead to. -/
theorem walk_congr {other : Disk}
    (hsame : ∀ front, front <+: names →
      other.get? (Location.descend here front) = disk.get? (Location.descend here front)) :
    other.walk purpose links here names slash = disk.walk purpose links here names slash := by
  induction names generalizing here with
  | nil => rw [walk, walk]
  | cons name rest ih =>
    have hrest : ∀ {next : Location}, (∀ front,
        Location.descend here (name :: front) = Location.descend next front) →
        other.walk purpose links next rest slash = disk.walk purpose links next rest slash := by
      intro next hnext
      refine ih fun front hfront => ?_
      have := hsame (name :: front) (List.cons_prefix_cons.mpr ⟨rfl, hfront⟩)
      rwa [hnext] at this
    rw [walk, walk]
    by_cases hhere : name = "."
    · rw [if_pos hhere, if_pos hhere]
      exact hrest fun front => by rw [Location.descend, if_pos hhere]
    by_cases hup : name = ".."
    · rw [if_neg hhere, if_neg hhere, if_pos hup, if_pos hup]
      exact hrest fun front => by rw [Location.descend, if_neg hhere, if_pos hup]
    have hnext : ∀ front, Location.descend here (name :: front)
        = Location.descend (here ++ [name]) front := by
      intro front
      rw [Location.descend, if_neg hhere, if_neg hup]
    have hentry : other.get? (here ++ [name]) = disk.get? (here ++ [name]) := by
      have := hsame [name] (List.cons_prefix_cons.mpr ⟨rfl, List.nil_prefix⟩)
      rwa [hnext, Location.descend] at this
    rw [if_neg hhere, if_neg hhere, if_neg hup, if_neg hup]
    dsimp only
    rw [hentry]
    rcases hfound : disk.get? (here ++ [name]) with _ | _ | content | target
    · rfl
    · rw [hrest hnext]
    · rfl
    · exact absurd hfound (hfree.get?_ne_link _ _)

/-- Without links it makes no difference whether they are followed. -/
theorem walk_look :
    disk.walk .look links here names slash = disk.walk .reach links here names slash := by
  induction names generalizing here with
  | nil => rw [walk, walk]
  | cons name rest ih =>
    have hlook : ¬ (Purpose.look = .write ∧ rest.isEmpty ∧ slash) := fun h => absurd h.1 (by decide)
    have hreach : ¬ (Purpose.reach = .write ∧ rest.isEmpty ∧ slash) := fun h => absurd h.1 (by decide)
    rw [walk, walk, ih, ih, if_neg hlook, if_neg hreach]
    dsimp only
    cases hentry : disk.get? (here ++ [name]) with
    | none => rfl
    | some entry =>
      cases entry with
      | directory => simp only [ih]
      | file content => rfl
      | link target => exact absurd hentry (hfree.get?_ne_link _ target)

theorem entryAt_eq_find (path : Path) : disk.entryAt path = disk.find path := by
  rw [entryAt, find, locate, locate]
  simp only [hfree.walk_look]

/-- What leads to a directory leads there as long as all directories stay. -/
theorem walk_directory_stays {after : Disk} {base : Location}
    (hstays : ∀ location, disk.get? location = some .directory →
      after.get? location = some .directory)
    (h : disk.walk .reach links here names slash = .ok ⟨base, some .directory⟩) :
    after.walk .reach links here names slash = .ok ⟨base, some .directory⟩ := by
  fun_induction Disk.walk disk .reach links here names slash
  case case1 =>
    rw [Disk.walk]
    exact h
  case case2 ih =>
    rw [Disk.walk, if_pos rfl]
    exact ih h
  case case3 hhere ih =>
    rw [Disk.walk, if_neg hhere, if_pos rfl]
    exact ih h
  case case8 hhere hup _ hlong _ hentry ih =>
    rw [walk_reach_directory hhere hup hlong (hstays _ hentry)]
    exact ih h
  case case13 hlink _ _ _ _ => exact absurd hlink (hfree.get?_ne_link _ _)
  all_goals simp at h

theorem names_stays {after : Disk} {route : Route} {parent : Location} {name : String}
    (hworkDir : after.workDir = disk.workDir)
    (hstays : ∀ location, disk.get? location = some .directory →
      after.get? location = some .directory)
    (h : disk.Names path route parent name) : after.Names path route parent name := by
  refine ⟨?_, hfree.walk_directory_stays hstays h.reached, h.last, h.ne_here, h.ne_up, h.short⟩
  rw [Disk.route, hworkDir, ← Disk.route]
  exact h.routed

end LinkFree

end Disk

/-! ### Paths that do not lead through a place -/

/-- Nothing on the way along the path is at a place or below it. -/
def Path.Avoids (path : Path) (base : Location) : Prop :=
  ∀ front, front <+: path.names → ¬ base <+: Location.descend [] front

theorem Path.avoids_iff {path : Path} {base : Location} : path.Avoids base ↔
    ∀ front ∈ path.names.inits, ¬ base <+: Location.descend [] front := by
  simp only [Path.Avoids, List.mem_inits]

instance (path : Path) (base : Location) : Decidable (path.Avoids base) :=
  decidable_of_iff' _ Path.avoids_iff

namespace Disk

/-- What is at a place or below it makes no difference to a path that does not lead through it. -/
theorem LinkFree.normalize_congr {disk other : Disk} {path : Path} {base : Location}
    (hfree : disk.LinkFree) (habs : path.isAbsolute = true) (havoids : path.Avoids base)
    (hsame : ∀ location, ¬ base <+: location → other.get? location = disk.get? location) :
    other.normalize path = disk.normalize path := by
  have hroute : other.route path = disk.route path := by
    rw [route, route, Path.routeFrom_of_isAbsolute habs, Path.routeFrom_of_isAbsolute habs]
  have hfind : other.find path = disk.find path := by
    rw [find, find, locate, locate, hroute]
    cases hrouted : disk.route path with
    | error error => rfl
    | ok route =>
      obtain rfl := eq_routeFrom_of_route hrouted
      rw [Path.routeFrom_of_isAbsolute habs]
      have hwalk : other.walk .reach maxLinks [] path.names (Disk.names path).2
          = disk.walk .reach maxLinks [] path.names (Disk.names path).2 :=
        hfree.walk_congr fun front hfront => hsame _ (havoids front hfront)
      simp only [bind, Except.bind, hwalk]
  rw [normalize, normalize, canonical, canonical, hfind]
  cases disk.find path with
  | error error => simp only [bind, Except.bind, habs, if_true]
  | ok found => rfl

end Disk

end SiteTree
