import SiteTree.Files
import SiteTree.Proofs.Disk.NewDirectories
import SiteTree.Proofs.Job

/-!
# Deleting directories

A directory that is spelled with the path of its location is deleted with all that is below it, and
nothing else is deleted. The root of the file system is not deleted, whatever it is spelled with.

* `Disk.Names.removeTree` — what is deleted.
* `Files.run_removeDirectory_of_names` — a deletion that succeeds.
* `Files.removes_removeDirectory` — how the deletion of an output directory can end.
-/

namespace SiteTree

namespace Disk

variable {disk : Disk} {location other parent : Location} {name : String}

/-! ### The way to a directory -/

/-- Names that lead down through directories lead to the last of them. -/
theorem walk_reach_location {links : Nat} {here : Location} {names : Location} {slash : Bool}
    (hnames : ∀ name ∈ names, IsEntryName name)
    (hshort : ∀ name ∈ names, ¬ maxName < name.utf8ByteSize)
    (hdirectories : ∀ front, front <+: names → front ≠ [] →
      disk.get? (here ++ front) = some .directory) :
    disk.walk .reach links here names slash = .ok ⟨here ++ names, some .directory⟩ := by
  induction names generalizing here with
  | nil => rw [walk, List.append_nil]
  | cons name rest ih =>
    have hname := hnames name List.mem_cons_self
    have hentry : disk.get? (here ++ [name]) = some .directory :=
      hdirectories [name] ⟨rest, rfl⟩ (List.cons_ne_nil name [])
    rw [walk_reach_directory hname.ne_here hname.ne_up (hshort name List.mem_cons_self) hentry,
      ih (fun other hother => hnames other (List.mem_cons_of_mem _ hother))
        (fun other hother => hshort other (List.mem_cons_of_mem _ hother)) fun front hfront _ => ?_]
    · simp
    · have := hdirectories (name :: front) (List.cons_prefix_cons.mpr ⟨rfl, hfront⟩)
        (List.cons_ne_nil name front)
      simpa using this

/-- Names that lead down through directories at all are short enough. -/
theorem IsTree.short_of_walk (htree : disk.IsTree) {purpose : Purpose} {links : Nat}
    {here names : Location} {slash : Bool} {spot : Spot}
    (hentry : disk.get? (here ++ names) = some .directory)
    (h : disk.walk purpose links here names slash = .ok spot) :
    ∀ name ∈ names, ¬ maxName < name.utf8ByteSize := by
  have hnames := htree.isEntryName_of_get? hentry
  induction names generalizing here with
  | nil => exact fun _ hname => absurd hname List.not_mem_nil
  | cons first rest ih =>
    have hfirst := hnames first (by simp)
    have hcons : here ++ first :: rest = here ++ [first] ++ rest := by simp
    rw [walk, if_neg hfirst.ne_here, if_neg hfirst.ne_up] at h
    split at h
    · cases h
    split at h
    · cases h
    next hshort =>
    rw [hcons] at hentry hnames
    have hdirectory : disk.get? (here ++ [first]) = some .directory := by
      by_cases hlast : rest = []
      · rwa [hlast, List.append_nil] at hentry
      · exact htree.get?_of_prefix (by rw [hentry]; rfl) (List.prefix_append _ _) (by simpa using hlast)
    dsimp only at h
    rw [hdirectory] at h
    intro name hname
    rcases List.mem_cons.mp hname with rfl | hname
    · exact hshort
    · exact ih hentry h hnames name hname

/-- A prefix of the parent of a location is not below the location. -/
theorem not_prefix_of_front {front : Location} (h : front <+: parent) :
    ¬ parent ++ [name] <+: front := by
  intro hbelow
  have hlength := (hbelow.trans h).length_le
  rw [List.length_append, List.length_singleton] at hlength
  omega

/-- The path of a directory that can be found names it by its name, also on a disk that has only
the directories on the way to it in common. -/
theorem IsTree.names_path (htree : disk.IsTree) {purpose : Purpose} {spot : Spot} (rest : Disk)
    (hentry : disk.get? (parent ++ [name]) = some .directory)
    (h : disk.locate purpose (Location.path (parent ++ [name])) = .ok spot)
    (hworkDir : rest.workDir = disk.workDir)
    (hsame : ∀ front, front <+: parent → rest.get? front = disk.get? front) :
    rest.Names (Location.path (parent ++ [name])) ⟨[], parent ++ [name], false⟩ parent name := by
  have hnames := htree.isEntryName_of_get? hentry
  rw [locate] at h
  obtain ⟨route, hroute, hwalk⟩ := exists_of_bind_eq_ok h
  obtain rfl : route = ⟨[], parent ++ [name], false⟩ := by
    rw [eq_routeFrom_of_route hroute, Path.routeFrom_of_isAbsolute (Location.isAbsolute_path _),
      Location.names_path hnames, Location.slash_path hnames]
  have hshort := htree.short_of_walk (List.nil_append _ ▸ hentry) hwalk
  refine ⟨?_, ?_, List.getLast?_concat, ?_, ?_, hshort name (by simp)⟩
  · rwa [route, hworkDir, ← route]
  · change rest.walk .reach maxLinks [] (parent ++ [name]).dropLast true = _
    rw [List.dropLast_concat]
    refine walk_reach_location (fun other hother => hnames other (List.mem_append_left _ hother))
      (fun other hother => hshort other (List.mem_append_left _ hother)) fun front hfront _ => ?_
    rw [List.nil_append, hsame front hfront]
    refine htree.get?_of_prefix (by rw [hentry]; rfl) (hfront.trans (List.prefix_append _ _)) ?_
    rintro rfl
    exact not_prefix_of_front List.prefix_rfl hfront
  · exact (hnames name (by simp)).ne_here
  · exact (hnames name (by simp)).ne_up

/-! ### Deleting -/

theorem get?_emptyDirectory (h : location <+: other → other = location) :
    (disk.emptyDirectory location).get? other = disk.get? other := by
  cases other with
  | nil => rfl
  | cons first more =>
    rw [get?_cons, get?_cons, emptyDirectory,
      lookup_filter fun l => !(location.isPrefixOf l && l != location)]
    by_cases hwithin : location <+: first :: more
    · simp [h hwithin]
    · rw [← List.isPrefixOf_iff_prefix] at hwithin
      simp [hwithin]

theorem eraseTree_emptyDirectory :
    (disk.emptyDirectory location).eraseTree location = disk.eraseTree location := by
  rw [eraseTree, eraseTree, emptyDirectory]
  dsimp only
  rw [List.filter_filter]
  congr 2
  funext e
  cases location.isPrefixOf e.1 with
  | false => rfl
  | true => rfl

theorem get?_eraseTree_outside (h : ¬ location <+: other) :
    (disk.eraseTree location).get? other = disk.get? other := by
  cases other with
  | nil => rfl
  | cons first more =>
    rw [get?_eraseTree (List.cons_ne_nil first more), if_neg]
    rwa [List.isPrefixOf_iff_prefix]

theorem get?_eraseTree_inside (hroot : location ≠ []) (h : location <+: other) :
    (disk.eraseTree location).get? other = none := by
  have hother : other ≠ [] := by
    rintro rfl
    exact hroot (List.prefix_nil.mp h)
  rw [get?_eraseTree hother, if_pos (List.isPrefixOf_iff_prefix.mpr h)]

theorem IsTree.eraseTree (htree : disk.IsTree) (location : Location) :
    (disk.eraseTree location).IsTree := by
  refine ⟨fun entry hentry => htree.isEntryName entry (List.mem_filter.mp hentry).1, ?_⟩
  intro parent name hsome
  rw [get?_eraseTree (by simp)] at hsome
  split at hsome
  · cases hsome
  next hapart =>
  rw [get?_eraseTree_outside]
  · exact htree.parent parent name hsome
  · intro hwithin
    exact hapart (List.isPrefixOf_iff_prefix.mpr (hwithin.trans (List.prefix_append parent [name])))

/-- Below what is no directory there is nothing. -/
theorem IsTree.get?_eraseTree_of_leaf (htree : disk.IsTree) (hroot : location ≠ [])
    (hold : disk.get? location ≠ some .directory) (other : Location) :
    (disk.eraseTree location).get? other = if other = location then none else disk.get? other := by
  by_cases hprefix : location <+: other
  · rw [get?_eraseTree_inside hroot hprefix]
    split
    · rfl
    · next hne =>
      by_contra hsome
      have hthere : (disk.get? other).isSome := Option.isSome_iff_ne_none.mpr (Ne.symm hsome)
      exact hold (htree.get?_of_prefix hthere hprefix (Ne.symm hne))
  · rw [get?_eraseTree_outside hprefix, if_neg]
    rintro rfl
    exact hprefix List.prefix_rfl

section Names

variable {path : Path} {route : Route}

/-- A directory is deleted with all that is below it, if its path names it also once it is empty. -/
theorem Names.removeTree (h : (disk.emptyDirectory (parent ++ [name])).Names path route parent name)
    (hentry : disk.get? (parent ++ [name]) = some .directory)
    (hat : disk.entryAt path = .ok (parent ++ [name], .directory)) :
    disk.removeTree path = (none, disk.eraseTree (parent ++ [name])) := by
  have hthere : (disk.emptyDirectory (parent ++ [name])).get? (parent ++ [name]) = some .directory :=
    (get?_emptyDirectory fun _ => rfl).trans hentry
  have hremove : (disk.emptyDirectory (parent ++ [name])).removeDirectory path
      = .ok (disk.eraseTree (parent ++ [name])) := by
    rw [removeDirectory, h.routed]
    simp only [bind, Except.bind, h.placeOf, hthere, eraseTree_emptyDirectory]
  rw [Disk.removeTree, hat]
  dsimp only
  rw [hremove]

theorem Names.find_of_nothing (h : disk.Names path route parent name)
    (hnothing : disk.get? (parent ++ [name]) = none) : disk.find path = .error .notFound := by
  obtain ⟨front, hfront⟩ := List.getLast?_eq_some_iff.mp h.last
  have hreached := h.reached
  rw [hfront, List.dropLast_concat] at hreached
  obtain ⟨left, hleft⟩ := walk_reach_append (List.cons_ne_nil name []) hreached route.slash
  rw [walk_reach_free h.ne_here h.ne_up h.short, hnothing] at hleft
  rw [find, locate, h.routed]
  simp only [bind, Except.bind, hfront, hleft]
  rfl

end Names

/-- A directory that can be found by the path of its location is named by it, also on a disk without
anything in it. -/
theorem IsTree.names_emptyDirectory (htree : disk.IsTree) {spot : Spot} {purpose : Purpose}
    (hentry : disk.get? (parent ++ [name]) = some .directory)
    (h : disk.locate purpose (Location.path (parent ++ [name])) = .ok spot) :
    (disk.emptyDirectory (parent ++ [name])).Names (Location.path (parent ++ [name]))
      ⟨[], parent ++ [name], false⟩ parent name :=
  htree.names_path (disk.emptyDirectory (parent ++ [name])) hentry h rfl fun _ hfront =>
    get?_emptyDirectory fun hbelow => absurd hbelow (not_prefix_of_front hfront)

theorem IsTree.names_eraseTree (htree : disk.IsTree) {spot : Spot} {purpose : Purpose}
    (hentry : disk.get? (parent ++ [name]) = some .directory)
    (h : disk.locate purpose (Location.path (parent ++ [name])) = .ok spot) :
    (disk.eraseTree (parent ++ [name])).Names (Location.path (parent ++ [name]))
      ⟨[], parent ++ [name], false⟩ parent name :=
  htree.names_path (disk.eraseTree (parent ++ [name])) hentry h rfl fun _ hfront =>
    get?_eraseTree_outside (not_prefix_of_front hfront)

/-- A directory that was deleted can be made again, without anything in it. -/
theorem IsTree.makeDirectories_eraseTree (htree : disk.IsTree) {entry : Entry}
    (hroot : location ≠ []) (hentry : disk.get? location = some .directory)
    (h : disk.find location.path = .ok (location, entry)) :
    (disk.eraseTree location).makeDirectories location.path
        = (none, (disk.eraseTree location).set location .directory) ∧
      ((disk.eraseTree location).set location .directory).find location.path
        = .ok (location, .directory) := by
  obtain ⟨parent, name, rfl⟩ := (List.eq_nil_or_concat' location).resolve_left hroot
  obtain ⟨spot, hspot, -⟩ := exists_of_bind_eq_ok h
  have hnamed := htree.names_eraseTree hentry hspot
  have hnone : (disk.eraseTree (parent ++ [name])).get? (parent ++ [name]) = none :=
    get?_eraseTree_inside hroot List.prefix_rfl
  exact ⟨makeDirectories_of_free hnamed hnone, hnamed.find_set hnone⟩

end Disk

/-! ### Output directories -/

namespace Files

open Disk

variable {session : Session} {path : Path}

/-- How the deletion of a directory ends that is spelled as it is found: there is nothing to
delete, or what is found is deleted, or everything stays. -/
inductive Removes (path : Path) (session : Session) : Except Failure Unit × Session → Prop where
  | absent {error : DiskError} : session.disk.find path = .error error →
      Removes path session (.ok (), session)
  | removed {location : Location} : location ≠ [] →
      session.disk.find path = .ok (location, .directory) →
      Removes path session (.ok (), { session with disk := session.disk.eraseTree location })
  | refused {failure : Failure} : Removes path session (.error failure, session)

/-- What is deleted is checked by its canonical path. -/
theorem canonical_getD {location : Location} {entry : Entry}
    (h : session.disk.find path = .ok (location, entry)) :
    (session.disk.canonical path).toOption.getD path = location.path := by
  rw [canonical_eq_ok_iff.mpr ⟨location, entry, h, rfl⟩]
  rfl

/-- The root of the file system is refused, whatever it is spelled with. -/
theorem run_removeDirectory_root {entry : Entry} (h : session.disk.find path = .ok ([], entry)) :
    (removeDirectory path).run.run session
      = (.error (.of (.build (.rootPath (Location.path [])))), session) := by
  rw [removeDirectory, run_bind, Job.run_disk]
  dsimp only
  have hparent : (Location.path []).parent?.isNone = true := by
    rw [Location.parent?_path_nil]
    rfl
  rw [canonical_getD h, if_pos hparent]
  rfl

theorem canonical_getD_of_error {error : DiskError} (h : session.disk.find path = .error error) :
    (session.disk.canonical path).toOption.getD path = path ∧ session.disk.exists? path = false := by
  rw [canonical, exists?, h]
  exact ⟨rfl, rfl⟩

/-- What is not there need not be deleted. -/
theorem run_removeDirectory_of_error {error : DiskError}
    (h : session.disk.find path = .error error) (hparent : path.parent?.isNone = false) :
    (removeDirectory path).run.run session = (.ok (), session) := by
  obtain ⟨hcanonical, hexists⟩ := canonical_getD_of_error h
  rw [removeDirectory, run_bind, Job.run_disk]
  dsimp only
  rw [hcanonical, hexists, hparent]
  rfl

/-- A directory is deleted by a path that names it also when it is empty and when it is gone. -/
theorem run_removeDirectory_of_names {route : Route} {parent : Location} {name : String}
    (hentries : ∀ other ∈ parent ++ [name], IsEntryName other)
    (hfind : session.disk.find path = .ok (parent ++ [name], .directory))
    (hat : session.disk.entryAt path = .ok (parent ++ [name], .directory))
    (hentry : session.disk.get? (parent ++ [name]) = some .directory)
    (hemptied : (session.disk.emptyDirectory (parent ++ [name])).Names path route parent name)
    (herased : (session.disk.eraseTree (parent ++ [name])).Names path route parent name) :
    (removeDirectory path).run.run session
      = (.ok (), { session with disk := session.disk.eraseTree (parent ++ [name]) }) := by
  have hparent : (Location.path (parent ++ [name])).parent?.isNone = false := by
    rw [Location.parent?_path hentries]
    rfl
  have hexists : session.disk.exists? path = true := by rw [exists?, hfind]; rfl
  have hgone : (session.disk.eraseTree (parent ++ [name])).exists? path = false := by
    rw [exists?, herased.find_of_nothing (get?_eraseTree_inside (by simp) List.prefix_rfl)]
    rfl
  rw [removeDirectory, run_bind, Job.run_disk]
  dsimp only
  rw [canonical_getD hfind, hparent, if_neg Bool.false_ne_true, hexists, if_pos rfl, run_bind,
    Job.run_changeAnyway, hemptied.removeTree hentry hat]
  dsimp only
  rw [run_bind, Job.run_disk]
  dsimp only
  rw [hgone]
  rfl

/-- What is no directory is not deleted. -/
theorem run_removeDirectory_of_refused {location : Location} {entry : Entry} {error : DiskError}
    (hfind : session.disk.find path = .ok (location, entry))
    (hremove : session.disk.removeTree path = (some error, session.disk)) :
    ∃ failure, (removeDirectory path).run.run session = (.error failure, session) := by
  have hexists : session.disk.exists? path = true := by rw [exists?, hfind]; rfl
  rw [removeDirectory, run_bind, Job.run_disk]
  dsimp only
  rw [hexists]
  split
  · exact ⟨_, rfl⟩
  · rw [if_pos rfl, run_bind, Job.run_changeAnyway, hremove]
    exact ⟨_, rfl⟩

theorem removes_removeDirectory (htree : session.disk.IsTree)
    (hspelled : ∀ location entry, session.disk.find path = .ok (location, entry) →
      path = location.path) :
    Removes path session ((removeDirectory path).run.run session) := by
  cases hfind : session.disk.find path with
  | error error =>
    cases hparent : path.parent?.isNone with
    | false =>
      rw [run_removeDirectory_of_error hfind hparent]
      exact .absent hfind
    | true =>
      rw [removeDirectory, run_bind, Job.run_disk]
      dsimp only
      rw [(canonical_getD_of_error hfind).1, hparent]
      exact .refused
  | ok found =>
    obtain ⟨location, entry⟩ := found
    obtain rfl := hspelled location entry hfind
    obtain ⟨hentry, hlink⟩ := htree.get?_of_find location.isAbsolute_path hfind
    have hrefused : ∀ error, session.disk.removeTree location.path = (some error, session.disk) →
        Removes location.path session ((removeDirectory location.path).run.run session) := by
      intro error hremove
      obtain ⟨failure, hrun⟩ := run_removeDirectory_of_refused hfind hremove
      rw [hrun]
      exact .refused
    by_cases hroot : location = []
    · rw [hroot] at hfind ⊢
      rw [run_removeDirectory_root hfind]
      exact .refused
    obtain ⟨parent, name, rfl⟩ := (List.eq_nil_or_concat' location).resolve_left hroot
    cases hat : session.disk.entryAt (Location.path (parent ++ [name])) with
    | error error => exact hrefused error (by rw [removeTree, hat])
    | ok found =>
      obtain rfl := htree.entryAt_path hentry hlink hat
      cases entry with
      | directory =>
        obtain ⟨spot, hspot, -⟩ := exists_of_bind_eq_ok hat
        rw [run_removeDirectory_of_names (htree.isEntryName_of_get? hentry) hfind hat hentry
          (htree.names_emptyDirectory hentry hspot) (htree.names_eraseTree hentry hspot)]
        exact .removed hroot hfind
      | file content => exact hrefused .notDirectory (by rw [removeTree, hat])
      | link target => exact absurd rfl (hlink target)

end Files

end SiteTree
