import SiteTree.Proofs.Disk.Writes
import SiteTree.Proofs.Path

/-!
# Writing below a directory

A path that is joined to the path of a directory is followed to that directory first. As long as
no link comes in the way, the names behind it are then the way down.

* `Enters.join` — one name more leads one directory down.
* `target?_of_enters` — a file is written into the directory that its path names.
-/

namespace SiteTree.Disk

/-! ### Routes of joined paths -/

theorem routeFrom_join {base path : Path} (hpath : path.isAbsolute = false) (here : Location) :
    routeFrom here (base.join path)
      = ⟨(routeFrom here base).start, (routeFrom here base).names ++ (routeFrom here path).names,
        (routeFrom here path).slash⟩ := by
  by_cases hbase : base.text = ""
  · have hjoin : base.join path = path := by simp [Path.join, hpath, hbase]
    have hempty : routeFrom here base = ⟨here, [], true⟩ := by
      obtain ⟨text⟩ := base
      subst hbase
      rfl
    rw [hjoin, hempty]
    simp [routeFrom, hpath]
  · obtain ⟨habs, front, hfront, hends, -⟩ := Path.joined_join hpath hbase
    have hnames : (base.segments.filter fun s => s != "") = front.filter fun s => s != "" := by
      rcases hends with hends | hends <;> simp [hends]
    have hlast : (base.join path).segments.getLast? = path.segments.getLast? := by
      rw [hfront, List.getLast?_append,
        List.getLast?_eq_some_getLast path.segments_ne_nil, Option.some_or]
    simp only [routeFrom, names, habs, hlast, hnames]
    rw [hfront, List.filter_append]

/-- The name of a page is followed by dots at most. -/
theorem names_of_isName {path : Path} {name : String} (h : Path.IsName path name)
    (here : Location) :
    ∃ dots, (routeFrom here path).names = name :: dots ∧ ∀ dot ∈ dots, dot = "." := by
  obtain ⟨idle, hsegments, hidle⟩ := h.idle
  have hbusy := h.busy
  simp only [Path.isIdle, Bool.or_eq_false_iff, beq_eq_false_iff_ne] at hbusy
  refine ⟨idle.filter fun s => s != "", ?_, ?_⟩
  · simp [routeFrom, names, hsegments, hbusy.1]
  · intro dot hdot
    obtain ⟨hmem, hdot⟩ := List.mem_filter.mp hdot
    simpa [Path.isIdle, bne_iff_ne.mp hdot] using hidle dot hmem

/-! ### The way to a directory -/

variable {disk : Disk}

theorem walk_dots {purpose : Purpose} {links : Nat} {here : Location} {dots rest : List String}
    {slash : Bool} (h : ∀ dot ∈ dots, dot = ".") :
    disk.walk purpose links here (dots ++ rest) slash
      = disk.walk purpose links here rest slash := by
  induction dots with
  | nil => rfl
  | cons dot dots ih =>
    rw [List.cons_append, walk, if_pos (h dot List.mem_cons_self)]
    exact ih fun other hother => h other (List.mem_cons_of_mem _ hother)

/-- What is written behind names that lead to a directory is written from there. -/
theorem walk_append {links : Nat} {here base : Location} {front rest : List String}
    {slash : Bool} (hrest : rest ≠ [])
    (h : disk.walk .reach links here front slash = .ok ⟨base, some .directory⟩) (slash' : Bool) :
    ∃ left, disk.walk .write links here (front ++ rest) slash'
      = disk.walk .write left base rest slash' := by
  have hmore : ∀ {names : List String}, (names ++ rest).isEmpty = false := by simp [hrest]
  have hfree : ∀ {name names}, ¬ maxName < name.utf8ByteSize →
      ¬ Refused name (names ++ rest) slash' := by
    rintro name names hlong (hlast | hlong')
    · simp [hrest] at hlast
    · exact hlong hlong'
  fun_induction Disk.walk disk .reach links here front slash
  case case1 =>
    cases h
    exact ⟨_, rfl⟩
  case case2 ih =>
    rw [List.cons_append, walk, if_pos rfl]
    exact ih h
  case case3 hhere ih =>
    rw [List.cons_append, walk, if_neg hhere, if_pos rfl]
    exact ih h
  case case8 hhere hup _ hlong _ hentry ih =>
    rw [List.cons_append, walk_directory hhere hup (hfree hlong) (by rw [hentry]; rfl)]
    exact ih h
  case case13 hhere hup _ hlong _ target hentry _ links route ih =>
    rw [List.cons_append, walk_link hhere hup (hfree hlong) (by rw [hentry]; rfl), hmore,
      Bool.false_and, Bool.or_false, ← List.append_assoc]
    exact ih h
  case case4 hwrite => exact absurd hwrite.1 (by decide)
  case case6 => simp at h
  case case9 => simp at h
  case case11 hlook => exact absurd hlook.1 (by decide)
  all_goals cases h

/-- Does a path that is continued lead on from the location, if it leads a write anywhere? -/
def Enters (disk : Disk) (directory : Path) (location : Location) : Prop :=
  ∀ (rest : List String) (slash : Bool), rest ≠ [] → ∀ found,
    Spot.vacant? (disk.walk .write maxLinks (routeFrom disk.workDir directory).start
      ((routeFrom disk.workDir directory).names ++ rest) slash) = some found →
    ∃ links, Spot.vacant? (disk.walk .write links location rest slash) = some found

/-- The path leads to a directory below which there are no links. -/
structure Plain (disk : Disk) (path : Path) (base : Location) : Prop where
  leads : disk.walk .reach maxLinks (routeFrom disk.workDir path).start
    (routeFrom disk.workDir path).names (routeFrom disk.workDir path).slash
      = .ok ⟨base, some .directory⟩
  unlinked : ∀ location target, base <+: location → location ≠ base →
    disk.get? location ≠ some (.link target)

theorem Plain.enters {path : Path} {base : Location} (h : Plain disk path base) :
    disk.Enters path base := by
  intro rest slash hrest found hfound
  obtain ⟨left, hwalk⟩ := walk_append hrest h.leads slash
  exact ⟨left, hwalk ▸ hfound⟩

theorem Plain.leadsOn_ne_link {path target : Path} {base location : Location} {name : String}
    (h : Plain disk path base) (hbelow : base <+: location) :
    leadsOn (disk.get? (location ++ [name])) ≠ some (.link target) := by
  intro hlink
  refine h.unlinked (location ++ [name]) target (hbelow.trans (List.prefix_append _ _)) ?_
    (leadsOn_eq_link hlink)
  intro heq
  have hlength := hbelow.length_le
  rw [← heq, List.length_append, List.length_singleton] at hlength
  omega

/-- A step of a write that gets somewhere where there is no link goes down or ends. -/
theorem step_of_vacant? {links : Nat} {here found : Location} {name : String}
    {rest : List String} {slash : Bool} (hname : Path.isIdle name = false) (hup : name ≠ "..")
    (hlink : ∀ target, leadsOn (disk.get? (here ++ [name])) ≠ some (.link target))
    (hfound : Spot.vacant? (disk.walk .write links here (name :: rest) slash) = some found) :
    rest = [] ∧ found = here ++ [name]
      ∨ Spot.vacant? (disk.walk .write links (here ++ [name]) rest slash) = some found := by
  have hhere : name ≠ "." := by
    rintro rfl
    cases hname
  have hfree : ¬ Refused name rest slash := by
    intro hrefused
    rw [vacant?_walk_refused hhere hup hrefused] at hfound
    cases hfound
  cases hentry : leadsOn (disk.get? (here ++ [name])) with
  | none =>
    left
    rw [vacant?_walk_nothing hhere hup hfree hentry] at hfound
    split at hfound
    · next hlast => exact ⟨List.isEmpty_iff.mp hlast, (Option.some.inj hfound).symm⟩
    · cases hfound
  | some entry =>
    cases entry with
    | directory =>
      right
      rwa [walk_directory hhere hup hfree hentry] at hfound
    | link target => exact absurd hentry (hlink target)
    | file content => exact absurd hentry (leadsOn_ne_file _ content)

/-- A name that is joined to a path leads one directory down. -/
theorem Enters.join {directory path : Path} {location : Location} {name : String}
    (h : disk.Enters directory location) (hname : Path.IsName path name)
    (hlink : ∀ target, leadsOn (disk.get? (location ++ [name])) ≠ some (.link target)) :
    disk.Enters (directory.join path) (location ++ [name]) := by
  intro rest slash hrest found hfound
  obtain ⟨dots, hnames, hdots⟩ := names_of_isName hname disk.workDir
  rw [routeFrom_join hname.isAbsolute, hnames, List.append_assoc] at hfound
  obtain ⟨links, hfound⟩ := h _ slash (by simp) found hfound
  rcases step_of_vacant? hname.busy hname.ne_up hlink hfound with ⟨hend, -⟩ | hfound
  · simp [hrest] at hend
  · exact ⟨links, walk_dots hdots ▸ hfound⟩

/-- A file is written into the directory that its path names. -/
theorem target?_of_enters {directory file : Path} {location found : Location} {name : String}
    (h : disk.Enters directory location) (hfile : Path.IsName file name)
    (hlink : ∀ target, leadsOn (disk.get? (location ++ [name])) ≠ some (.link target))
    (hfound : disk.target? (directory.join file) = some found) : found = location ++ [name] := by
  rw [target?, locate, route] at hfound
  split at hfound
  · cases hfound
  split at hfound
  · cases hfound
  split at hfound
  · cases hfound
  obtain ⟨dots, hnames, hdots⟩ := names_of_isName hfile disk.workDir
  change Spot.vacant? (disk.walk .write maxLinks _ _ _) = some found at hfound
  rw [routeFrom_join hfile.isAbsolute, hnames] at hfound
  obtain ⟨links, hfound⟩ := h _ _ (by simp) found hfound
  rcases step_of_vacant? hfile.busy hfile.ne_up hlink hfound with ⟨-, hfound⟩ | hfound
  · exact hfound
  · -- Behind the last name there is only a directory left.
    rw [← List.append_nil dots, walk_dots hdots, walk] at hfound
    cases hfound

end SiteTree.Disk
