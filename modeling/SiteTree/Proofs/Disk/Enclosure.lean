import SiteTree.Proofs.Disk.Descent

/-!
# Changes that stay inside

As long as nothing but places inside is changed on a disk without links, and no directory is taken
away, the disk stays a tree without links, a directory that was found is still found, and what is
not inside stays as it was.

* `Enclosure.Holds.set` — one change inside.
* `Enclosure.Holds.makeDirectories`, `Enclosure.Holds.writeBytes`, `Enclosure.Holds.copyFile` — what
  a build does.
-/

namespace SiteTree

/-- A directory, and places that may change: all that are below it at least. -/
structure Enclosure where
  output : Path
  isAbsolute : output.isAbsolute = true
  inside : Location → Bool
  covers : ∀ location, output.place <+: location → inside location = true
  workDir : Location
  /-- what is not inside -/
  kept : List (Location × Entry)

namespace Enclosure

/-- The disk has its directory and, besides what is inside, what is kept. -/
structure Holds (enclosure : Enclosure) (disk : Disk) : Prop where
  isTree : disk.IsTree
  linkFree : disk.LinkFree
  workDir : disk.workDir = enclosure.workDir
  found : disk.find enclosure.output = .ok (enclosure.output.place, .directory)
  kept : (disk.entries.filter fun entry => !enclosure.inside entry.1) = enclosure.kept

/-- Does a path lead below the directory, and never up on the way from there? -/
structure IsUnder (enclosure : Enclosure) (path : Path) : Prop where
  isAbsolute : path.isAbsolute = true
  names : ∃ more, path.names = enclosure.output.names ++ more ∧ ".." ∉ more

/-- Is a path on the way to the directory, or else inside? -/
structure IsAlong (enclosure : Enclosure) (path : Path) : Prop where
  isAbsolute : path.isAbsolute = true
  place : path.names <+: enclosure.output.names ∨ enclosure.inside path.place = true

variable {enclosure : Enclosure} {disk after : Disk} {path : Path} {here location : Location}
  {name : String} {entry : Entry}

/-- What is not inside is the same on all disks. -/
theorem Holds.get?_eq (hbefore : enclosure.Holds disk) (hafter : enclosure.Holds after)
    (hapart : enclosure.inside location = false) : after.get? location = disk.get? location := by
  cases location with
  | nil => rfl
  | cons first rest =>
    have hkept := hafter.kept.trans hbefore.kept.symm
    have hlookup := congrArg (List.lookup (first :: rest)) hkept
    rw [Disk.lookup_filter fun other => !enclosure.inside other,
      Disk.lookup_filter fun other => !enclosure.inside other, hapart] at hlookup
    exact hlookup

/-! ### Paths -/

theorem isUnder_output (enclosure : Enclosure) : enclosure.IsUnder enclosure.output :=
  ⟨enclosure.isAbsolute, [], by simp, by simp⟩

theorem IsUnder.prefix_place (h : enclosure.IsUnder path) :
    enclosure.output.place <+: path.place := by
  obtain ⟨more, hnames, hup⟩ := h.names
  rw [Path.place, Path.place, hnames, Location.descend_append]
  exact Location.prefix_descend hup

theorem IsUnder.inside (h : enclosure.IsUnder path) : enclosure.inside path.place = true :=
  enclosure.covers _ h.prefix_place

theorem IsUnder.isAlong (h : enclosure.IsUnder path) : enclosure.IsAlong path :=
  ⟨h.isAbsolute, .inr h.inside⟩

theorem IsUnder.join {more : Path} (h : enclosure.IsUnder path) (hmore : more.isAbsolute = false)
    (hup : ".." ∉ more.names) : enclosure.IsUnder (path.join more) := by
  obtain ⟨others, hnames, hothers⟩ := h.names
  refine ⟨Path.isAbsolute_join h.isAbsolute, others ++ more.names, ?_, ?_⟩
  · rw [Path.names_join h.isAbsolute hmore, hnames, List.append_assoc]
  · exact fun hmem => (List.mem_append.mp hmem).elim hothers hup

theorem IsUnder.join_name (h : enclosure.IsUnder path) (hname : IsEntryName name) :
    enclosure.IsUnder (path.join ⟨name⟩) := by
  obtain ⟨habs, hnames⟩ := Path.names_of_isEntryName hname
  refine h.join habs fun hup => ?_
  rw [hnames] at hup
  exact hname.ne_up (List.mem_singleton.mp hup).symm

/-- The parents of a path below the directory are below it too, or on the way to it. -/
theorem IsUnder.isAlong_of_prefix {parent : Path} (h : enclosure.IsUnder path)
    (habs : parent.isAbsolute = true) (hwithin : parent.names <+: path.names) :
    enclosure.IsAlong parent := by
  obtain ⟨more, hnames, hup⟩ := h.names
  rw [hnames] at hwithin
  rcases List.prefix_or_prefix_of_prefix hwithin (List.prefix_append _ more) with hon | hbelow
  · exact ⟨habs, .inl hon⟩
  · obtain ⟨rest, hrest⟩ := hbelow
    refine IsUnder.isAlong ⟨habs, rest, hrest.symm, fun hmem => hup ?_⟩
    rw [← hrest, List.prefix_append_right_inj] at hwithin
    exact hwithin.subset hmem

/-! ### One change -/

theorem filter_putEntry (keep : Location → Bool) (hkeep : keep location = false)
    (entries : List (Location × Entry)) :
    (Disk.putEntry location entry entries).filter (fun e => keep e.1)
      = entries.filter fun e => keep e.1 := by
  induction entries with
  | nil => simp [Disk.putEntry, hkeep]
  | cons first entries ih =>
    rw [Disk.putEntry]
    split
    · next heq => simp [heq, hkeep]
    · rw [List.filter_cons, List.filter_cons, ih]

/-- What is put inside, in a directory and not in the place of one, leaves everything in order. -/
theorem Holds.set (h : enclosure.Holds disk) (hname : IsEntryName name)
    (hhere : disk.get? here = some .directory)
    (hold : disk.get? (here ++ [name]) ≠ some .directory) (hlink : ∀ target, entry ≠ .link target)
    (hinside : enclosure.inside (here ++ [name]) = true) :
    enclosure.Holds (disk.set (here ++ [name]) entry) := by
  obtain ⟨hroute, hwalk⟩ := Disk.find_eq_ok_iff.mp h.found
  refine ⟨h.isTree.set hname hhere hold, h.linkFree.set hlink _, h.workDir, ?_, ?_⟩
  · refine Disk.find_eq_ok_iff.mpr ⟨hroute, ?_⟩
    refine h.linkFree.walk_directory_stays (fun location hlocation => ?_) hwalk
    rw [Disk.get?_set (by simp), if_neg]
    · exact hlocation
    · rintro rfl
      exact hold hlocation
  · refine Eq.trans ?_ h.kept
    exact filter_putEntry (fun other => !enclosure.inside other) (by simp [hinside]) disk.entries

/-! ### Directories -/

/-- All that is on the way to the directory is there already. -/
theorem Holds.not_prefix (h : enclosure.Holds disk) (habs : path.isAbsolute = true)
    (hmake : disk.makeDirectory path = .ok after) : ¬ path.names <+: enclosure.output.names := by
  rintro ⟨rest, hrest⟩
  obtain ⟨route, parent, name, hnamed, hnothing, rfl⟩ := Disk.names_of_makeDirectory hmake
  obtain ⟨front, hfront⟩ := List.getLast?_eq_some_iff.mp hnamed.last
  have hreached := hnamed.reached
  rw [hfront, List.dropLast_concat] at hreached
  rw [Disk.eq_routeFrom_of_route hnamed.routed, Path.routeFrom_of_isAbsolute habs] at hreached hfront
  obtain ⟨-, hwalk⟩ := Disk.find_eq_ok_iff.mp h.found
  rw [Path.routeFrom_of_isAbsolute enclosure.isAbsolute] at hwalk
  change disk.walk .reach Disk.maxLinks [] enclosure.output.names _ = _ at hwalk
  have hnames : path.names = front ++ [name] := hfront
  rw [← hrest, hnames] at hwalk
  -- The walk to the directory passes the place that is said to be free.
  obtain ⟨base, hbase⟩ := Disk.walk_reach_front rfl hwalk
  obtain ⟨left, hleft⟩ := Disk.walk_reach_append (List.cons_ne_nil name []) hreached true
  rw [hleft, Disk.walk_reach_nothing hnamed.ne_here hnamed.ne_up hnamed.short hnothing] at hbase
  simp at hbase

theorem Holds.makeDirectory (h : enclosure.Holds disk) (halong : enclosure.IsAlong path)
    (hmake : disk.makeDirectory path = .ok after) : enclosure.Holds after := by
  have hinside := halong.place.resolve_left (h.not_prefix halong.isAbsolute hmake)
  obtain ⟨route, parent, name, hnamed, hnothing, rfl⟩ := Disk.names_of_makeDirectory hmake
  rw [h.linkFree.place_of_names halong.isAbsolute hnamed] at hinside
  exact h.set hnamed.isEntryName (h.isTree.get?_of_reached halong.isAbsolute hnamed)
    (by simp [hnothing]) nofun hinside

/-- A directory on the way to a path below the directory is made with its parents. -/
theorem Holds.makeDirectories {parent : Path} (h : enclosure.Holds disk)
    (hunder : enclosure.IsUnder path) (habs : parent.isAbsolute = true)
    (hwithin : parent.names <+: path.names) :
    enclosure.Holds (disk.makeDirectories parent).2 := by
  refine Disk.makeChain_keeps h fun other hother before after hbefore hmake => ?_
  refine hbefore.makeDirectory ?_ hmake
  rcases List.mem_cons.mp hother with rfl | hother
  · exact hunder.isAlong_of_prefix habs hwithin
  · obtain ⟨habs', hwithin'⟩ := Path.names_prefix_of_mem_parents habs hother
    exact hunder.isAlong_of_prefix habs' (hwithin'.trans hwithin)

/-! ### Files -/

/-- A file is written in a directory, not in the place of one, and without links it is written at
the place of its path. -/
theorem exists_of_writeBytes (htree : disk.IsTree) (hfree : disk.LinkFree)
    (habs : path.isAbsolute = true) {content : List UInt8}
    (h : disk.writeBytes path content = .ok after) :
    ∃ parent name, path.place = parent ++ [name] ∧ IsEntryName name ∧
      disk.get? parent = some .directory ∧ disk.get? (parent ++ [name]) ≠ some .directory ∧
      after = disk.set (parent ++ [name]) (.file content) := by
  rw [Disk.writeBytes] at h
  obtain ⟨⟨location, entry⟩, hspot, h⟩ := exists_of_bind_eq_ok h
  rw [Disk.locate] at hspot
  obtain ⟨route, hroute, hwalk⟩ := exists_of_bind_eq_ok hspot
  rw [Disk.eq_routeFrom_of_route hroute, Path.routeFrom_of_isAbsolute habs] at hwalk
  have hlocation : location = path.place := hfree.location_of_walk hwalk
  have hentry : entry ≠ some .directory := by
    rintro rfl
    cases h
  obtain ⟨parent, name, hparent, hdirectory⟩ := htree.parent_of_walk rfl hwalk hentry
  have hfound := htree.get?_of_walk rfl hwalk
  rw [hparent] at hlocation hfound
  refine ⟨parent, name, hlocation.symm, ?_, hdirectory, hfound ▸ hentry, ?_⟩
  · exact path.isEntryName_place name (hlocation ▸ List.mem_append_right _ (List.mem_singleton_self name))
  · rw [← hparent]
    rcases entry with _ | _ | old | target
    · exact (Except.ok.inj h).symm
    · exact absurd rfl hentry
    · exact (Except.ok.inj h).symm
    · exact (Except.ok.inj h).symm

theorem Holds.writeBytes (h : enclosure.Holds disk) (habs : path.isAbsolute = true)
    (hinside : enclosure.inside path.place = true) {content : List UInt8}
    (hwrite : disk.writeBytes path content = .ok after) : enclosure.Holds after := by
  obtain ⟨parent, name, hplace, hname, hparent, hold, rfl⟩ :=
    exists_of_writeBytes h.isTree h.linkFree habs hwrite
  exact h.set hname hparent hold nofun (hplace ▸ hinside)

theorem Holds.copyFile {source : Path} (h : enclosure.Holds disk) (habs : path.isAbsolute = true)
    (hinside : enclosure.inside path.place = true)
    (hcopy : disk.copyFile source path = .ok after) : enclosure.Holds after := by
  rw [Disk.copyFile] at hcopy
  obtain ⟨⟨location, _ | content | target⟩, -, hcopy⟩ := exists_of_bind_eq_ok hcopy
  · cases hcopy
  · obtain ⟨emptied, hempty, hcopy⟩ := exists_of_bind_eq_ok hcopy
    obtain ⟨content, -, hwrite⟩ := exists_of_bind_eq_ok hcopy
    exact (h.writeBytes habs hinside hempty).writeBytes habs hinside hwrite
  · cases hcopy

end Enclosure

end SiteTree
