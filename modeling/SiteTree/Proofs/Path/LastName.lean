import SiteTree.Proofs.Disk.NewDirectories

/-!
# The last name of a path

What stands behind the last slash of a path is the same however the path is joined to a directory. If
that is an ordinary name and not that of a link, what the path leads to has this name, and so has the
canonical path.

* `Path.getLast?_segments_join`, `Path.getLast?_segments_expandHome` — joined and expanded paths.
* `Disk.getLast?_of_find` — a path leads to what has its last name.
* `Disk.fileName?_normalize` — the last name of a canonical path.
-/

namespace SiteTree

namespace Path

variable {path : Path} {name : String}

/-! ### Behind the last slash -/

/-- The slash of an absolute path does not count. -/
theorem getLast?_segments (path : Path) :
    path.segments.getLast? = (stretches path.text.toList).getLast?.map String.ofList := by
  rw [segments_eq, List.getLast?_map]
  split
  · next habs =>
    obtain ⟨rest, hrest⟩ : ∃ rest, path.text.toList = '/' :: rest := by
      cases htext : path.text.toList with
      | nil => simp [isAbsolute, htext] at habs
      | cons c rest =>
        obtain rfl : c = '/' := by simpa [isAbsolute, htext] using habs
        exact ⟨rest, rfl⟩
    rw [hrest, List.tail_cons, stretches_cons, if_pos rfl, List.getLast?_cons_of_ne_nil (by simp [stretches])]
  · rfl

theorem getLast?_segments_of_append (front : List Char) {behind : List Char}
    (h : path.text.toList = front ++ '/' :: behind) :
    path.segments.getLast? = (stretches behind).getLast?.map String.ofList := by
  rw [getLast?_segments, h, stretches_append,
    List.getLast?_append_of_ne_nil _ (by simp [stretches])]

theorem getLast?_segments_join (base path : Path) :
    (base.join path).segments.getLast? = path.segments.getLast? := by
  rw [join]
  split
  · rfl
  split
  · rfl
  split
  · next hlast =>
    obtain ⟨stem, hstem⟩ := List.getLast?_eq_some_iff.mp hlast
    rw [getLast?_segments path]
    exact getLast?_segments_of_append stem (by simp [hstem])
  · rw [getLast?_segments path]
    exact getLast?_segments_of_append base.text.toList (by simp)

/-- A home directory that is not the whole path stands in front of the last name. -/
theorem getLast?_segments_expandHome (hsome : path.text ≠ "~") (home : Path) :
    (path.expandHome home).segments.getLast? = path.segments.getLast? := by
  rw [expandHome]
  split
  · next rest htext =>
    split
    · next hrest =>
      have hne : rest ≠ [] := by
        rintro rfl
        exact hsome (String.toList_injective htext)
      obtain ⟨more, rfl⟩ : ∃ more, rest = '/' :: more := by
        rcases hrest with hempty | hslash
        · exact absurd (List.isEmpty_iff.mp hempty) hne
        · exact List.head?_eq_some_iff.mp hslash
      rw [getLast?_segments_of_append ['~'] htext]
      exact getLast?_segments_of_append home.text.toList (by simp)
    · rfl
  · rfl

/-! ### Names -/

variable (hname : IsEntryName name) (hlast : path.segments.getLast? = some name)

include hname hlast

theorem getLast?_names : path.names.getLast? = some name ∧ (Disk.names path).2 = false := by
  obtain ⟨front, hfront⟩ := List.getLast?_eq_some_iff.mp hlast
  constructor
  · rw [names, hfront, List.filter_append, List.filter_cons_of_pos (by simp [hname.ne_empty])]
    simp
  · simp [Disk.names, hlast, hname.ne_empty]

theorem fileName?_eq_some : path.fileName? = some name := by
  obtain ⟨front, hfront⟩ := List.getLast?_eq_some_iff.mp hlast
  have hnamed : ((path.segments.filter fun s => !isIdle s).map Component.ofSegment).getLast?
      = some (.name name) := by
    rw [hfront, List.filter_append, List.filter_cons_of_pos (by simp [hname.busy])]
    simp [Component.ofSegment, hname.ne_up]
  have hcomponents : path.components.getLast? = some (.name name) := by
    rw [components]
    split
    · rw [List.getLast?_cons, hnamed]
      rfl
    split
    · rw [List.getLast?_cons, hnamed]
      rfl
    · exact hnamed
  rw [fileName?, hcomponents]

end Path

theorem Location.fileName?_path {location : Location} {name : String}
    (h : ∀ other ∈ location, IsEntryName other) (hlast : location.getLast? = some name) :
    location.path.fileName? = some name := by
  obtain ⟨front, rfl⟩ := List.getLast?_eq_some_iff.mp hlast
  have hname : IsEntryName name := h name (by simp)
  refine Path.fileName?_eq_some hname ?_
  rw [Location.path, Path.segments_ofSegments_true fun other hother => (h other hother).noSlash,
    if_neg (by simp), hlast]

/-! ### What the last name leads to -/

namespace Disk

variable {disk : Disk} {path : Path} {location : Location} {entry : Entry} {name : String}

/-- Names lead to what has the last one of them, unless that is a link. -/
theorem getLast?_of_walk (hhere : name ≠ ".") (hup : name ≠ "..") {links : Nat} {here : Location}
    {names : List String} {slash : Bool} (hslash : slash = false) (hlast : names.getLast? = some name)
    (h : disk.walk .reach links here names slash = .ok ⟨location, some entry⟩)
    (hlook : ∀ place pointee,
      disk.walk .look links here names slash ≠ .ok ⟨place, some (.link pointee)⟩) :
    location.getLast? = some name := by
  have hrest : ∀ {first : String} {rest : List String}, (first :: rest).getLast? = some name →
      rest = [] ∧ first = name ∨ rest ≠ [] ∧ rest.getLast? = some name := by
    intro first rest hlast
    cases rest with
    | nil => exact .inl ⟨rfl, by simpa using hlast⟩
    | cons next more => exact .inr ⟨List.cons_ne_nil next more, hlast⟩
  fun_induction Disk.walk disk .reach links here names slash
  case case1 => cases hlast
  case case2 ih =>
    obtain ⟨-, rfl⟩ | ⟨-, hlast⟩ := hrest hlast
    · exact absurd rfl hhere
    · rw [walk, if_pos rfl] at hlook
      exact ih hslash hlast h hlook
  case case3 hdot ih =>
    obtain ⟨-, rfl⟩ | ⟨-, hlast⟩ := hrest hlast
    · exact absurd rfl hup
    · rw [walk, if_neg hdot, if_pos rfl] at hlook
      exact ih hslash hlast h hlook
  case case8 first rest hdot hdots _ hlong found hentry ih =>
    obtain ⟨rfl, rfl⟩ | ⟨-, hlast⟩ := hrest hlast
    · rw [walk] at h
      obtain ⟨rfl, -⟩ : found = location ∧ .directory = entry := by simpa using h
      exact List.getLast?_concat
    · refine ih hslash hlast h fun place pointee hlink => hlook place pointee ?_
      rw [walk, if_neg hdot, if_neg hdots, if_neg (by simp), if_neg hlong]
      dsimp only
      rwa [hentry]
  case case9 first rest hdot hdots _ hlong found content hentry hempty =>
    obtain ⟨rfl, rfl⟩ | ⟨hsome, -⟩ := hrest hlast
    · obtain ⟨rfl, -⟩ : found = location ∧ .file content = entry := by simpa using h
      exact List.getLast?_concat
    · exact absurd (List.isEmpty_iff.mp hempty.1) hsome
  case case13 here slash first rest hdot hdots _ hlong found target hentry hpurpose links route ih =>
    have hlook' : disk.walk .look (links + 1) here (first :: rest) slash
        = if rest.isEmpty then .ok ⟨found, some (.link target)⟩
          else disk.walk .look links route.start (route.names ++ rest)
            (slash || (rest.isEmpty && route.slash)) := by
      rw [walk, if_neg hdot, if_neg hdots, if_neg (by simp), if_neg hlong]
      dsimp only
      rw [hentry]
      simp [hslash, found, route]
    obtain ⟨rfl, rfl⟩ | ⟨hsome, hlast⟩ := hrest hlast
    · exact absurd hlook' (hlook found target)
    · have hempty : rest.isEmpty = false := by simpa using hsome
      rw [hlook', if_neg (by simp [hempty])] at hlook
      refine ih (by simp [hslash, hempty]) ?_ h hlook
      rw [List.getLast?_append_of_ne_nil _ hsome, hlast]
  case case11 hlookup => exact absurd hlookup.1 (by decide)
  all_goals simp at h

/-- A path leads to what has its last name, unless that is a link. -/
theorem getLast?_of_find (hname : IsEntryName name) (hlast : path.segments.getLast? = some name)
    (hlink : ∀ place pointee, disk.entryAt path ≠ .ok (place, .link pointee))
    (h : disk.find path = .ok (location, entry)) : location.getLast? = some name := by
  obtain ⟨hroute, hwalk⟩ := find_eq_ok_iff.mp h
  have hnames : (routeFrom disk.workDir path).names.getLast? = some name :=
    (Path.getLast?_names hname hlast).1
  have hslash : (routeFrom disk.workDir path).slash = false := (Path.getLast?_names hname hlast).2
  refine getLast?_of_walk hname.ne_here hname.ne_up hslash hnames hwalk
    fun place pointee hlook => hlink place pointee ?_
  rw [entryAt, locate, hroute]
  simp only [bind, Except.bind]
  rw [hlook]

/-- The canonical path of what is no link has the last name of the path. -/
theorem fileName?_normalize (htree : disk.IsTree) (hwork : disk.get? disk.workDir = some .directory)
    (hname : IsEntryName name) (hlast : path.segments.getLast? = some name)
    (hlink : ∀ place pointee, disk.entryAt path ≠ .ok (place, .link pointee)) :
    (disk.normalize path).fileName? = some name := by
  cases hfind : disk.find path with
  | error error =>
    rw [normalize, canonical, hfind]
    refine Path.fileName?_eq_some hname ?_
    change (if path.isAbsolute then path else disk.workDir.path.join path).segments.getLast? = some name
    split
    · exact hlast
    · exact (Path.getLast?_segments_join _ _).trans hlast
  | ok found =>
    obtain ⟨location, entry⟩ := found
    obtain ⟨-, hwalk⟩ := find_eq_ok_iff.mp hfind
    have hentry := htree.get?_of_walk (IsTree.get?_routeFrom_start hwork path) hwalk
    rw [normalize_of_find hfind]
    exact Location.fileName?_path (htree.isEntryName_of_get? hentry)
      (getLast?_of_find hname hlast hlink hfind)

end Disk

end SiteTree
