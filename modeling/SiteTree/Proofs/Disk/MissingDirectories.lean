import SiteTree.Proofs.Disk.WellFormed

/-!
# Making what is missing of a path

Where the first part of a path leads to a directory and nothing has the name that comes next, all the
directories that the rest of the path names are made, one in the other, if none of its names leads up.

* `Missing.makeDirectories` — the missing directories are made.
* `Destination.exists_made` — a directory that is there, or can be made, is there in the end.
-/

namespace SiteTree.Disk

variable {disk : Disk} {path : Path} {base location : Location} {names : List String}

/-! ### Directories in one another -/

/-- The disk with directories one in the other. -/
def grow (disk : Disk) (base : Location) : List String → Disk
  | [] => disk
  | name :: rest => (disk.set (base ++ [name]) .directory).grow (base ++ [name]) rest

theorem grow_concat (disk : Disk) (base : Location) (names : List String) (name : String) :
    disk.grow base (names ++ [name])
      = (disk.grow base names).set (base ++ names ++ [name]) .directory := by
  induction names generalizing disk base with
  | nil => rw [List.nil_append, grow, grow, grow, List.append_nil]
  | cons first names ih =>
    rw [List.cons_append, grow, grow, ih, List.append_assoc base]
    rfl

/-- The directories that are made are on the way to the last of them. -/
theorem get?_grow (disk : Disk) (base : Location) (names : List String) (location : Location) :
    (disk.grow base names).get? location
      = if base <+: location ∧ location ≠ base ∧ location <+: base ++ names then some .directory
        else disk.get? location := by
  induction names using List.reverseRecOn with
  | nil =>
    rw [List.append_nil, if_neg]
    · rfl
    · rintro ⟨hbase, hne, hlocation⟩
      exact hne (hlocation.eq_of_length_le hbase.length_le)
  | append_singleton names name ih =>
    rw [grow_concat, get?_set (by simp), ih, ← List.append_assoc]
    by_cases hlast : location = base ++ names ++ [name]
    · rw [if_pos hlast, if_pos]
      subst hlast
      refine ⟨(List.prefix_append base names).trans (List.prefix_append _ _), ?_, List.prefix_rfl⟩
      simp
    · rw [if_neg hlast]
      simp only [List.prefix_concat_iff, hlast, false_or]

/-- Nothing is there yet by the first of some names. -/
def IsFresh (disk : Disk) (base : Location) (names : List String) : Prop :=
  ∀ first, names.head? = some first → disk.get? (base ++ [first]) = none

theorem IsFresh.get?_eq_none (htree : disk.IsTree) (h : disk.IsFresh base names)
    {front : Location} (hsome : front ≠ []) (hfront : front <+: names) (rest : Location) :
    disk.get? (base ++ front ++ rest) = none := by
  obtain ⟨first, more, rfl⟩ := List.exists_cons_of_ne_nil hsome
  obtain ⟨behind, rfl⟩ := hfront
  have hfirst := h first rfl
  by_contra hthere
  have hprefix : base ++ [first] <+: base ++ first :: more ++ rest := ⟨more ++ rest, by simp⟩
  have hsome := htree.isSome_get?_of_prefix (Option.isSome_iff_ne_none.mpr hthere) hprefix
  rw [hfirst] at hsome
  cases hsome

theorem WellFormed.grow (hdisk : disk.WellFormed) (hbase : disk.get? base = some .directory)
    (hnames : ∀ name ∈ names, IsFileName name) (hfresh : disk.IsFresh base names) :
    (disk.grow base names).WellFormed ∧ disk.Extends (disk.grow base names) := by
  induction names generalizing disk base with
  | nil => exact ⟨hdisk, Extends.refl disk⟩
  | cons name names ih =>
    have hfree := hfresh name rfl
    have hset : (disk.set (base ++ [name]) .directory).WellFormed :=
      hdisk.set (hnames name List.mem_cons_self) hbase (by simp [hfree]) (by simp)
    have hentry : (disk.set (base ++ [name]) .directory).get? (base ++ [name]) = some .directory := by
      rw [get?_set (by simp), if_pos rfl]
    have hnext : (disk.set (base ++ [name]) .directory).IsFresh (base ++ [name]) names := by
      intro first _
      rw [get?_set (by simp), if_neg (by simp)]
      exact hfresh.get?_eq_none hdisk.toIsTree (List.cons_ne_nil name [])
        (List.cons_prefix_cons.mpr ⟨rfl, List.nil_prefix⟩) [first]
    obtain ⟨hgrown, hextends⟩ := ih hset hentry
      (fun other hother => hnames other (List.mem_cons_of_mem _ hother)) hnext
    exact ⟨hgrown, (extends_set hfree).trans hextends⟩

/-! ### Missing parts -/

/-- The path leads to a directory first, and goes on by names of which the first leads to nothing. -/
structure Missing (disk : Disk) (path : Path) (base : Location) (names : List String) : Prop where
  routed : disk.route path = .ok (routeFrom disk.workDir path)
  split : ∃ front rest, path.names = front ++ rest ∧
    disk.walk .reach maxLinks (routeFrom disk.workDir path).start front true
      = .ok ⟨base, some .directory⟩ ∧
    rest.filter (fun name => name != ".") = names ∧ rest.getLast? = names.getLast?
  fresh : disk.IsFresh base names
  isFileName : ∀ name ∈ names, IsFileName name

namespace Missing

variable (h : disk.Missing path base names)

include h

/-- Where all names but the last are there, the last one names something in a directory. -/
theorem names_last {grown : Disk} {init : List String} {last : String}
    (hextends : disk.Extends grown) (hnames : names = init ++ [last])
    (hinit : ∀ front, front <+: init → front ≠ [] → grown.get? (base ++ front) = some .directory) :
    grown.Names path (routeFrom disk.workDir path) (base ++ init) last := by
  obtain ⟨front, rest, hpath, hfront, hrest, hgetLast⟩ := h.split
  have hlast := h.isFileName last (by simp [hnames])
  rw [hnames, List.getLast?_concat] at hgetLast
  obtain ⟨behind, rfl⟩ := List.getLast?_eq_some_iff.mp hgetLast
  have hbehind : behind.filter (fun name => name != ".") = init := by
    rw [List.filter_append, List.filter_cons_of_pos (by simp [hlast.ne_here]), List.filter_nil,
      hnames] at hrest
    exact (List.append_inj' hrest rfl).1
  have hroute : (routeFrom disk.workDir path).names = front ++ behind ++ [last] := by
    rw [names_routeFrom, hpath, List.append_assoc]
  refine ⟨?_, ?_, ?_, hlast.ne_here, hlast.ne_up, hlast.short⟩
  · rw [hextends.route]
    exact h.routed
  · rw [hroute, List.dropLast_concat, ← hbehind]
    refine walk_reach_concat (hextends.walk hfront) (fun name hname => ?_) (hbehind ▸ hinit) true
    by_cases hhere : name = "."
    · exact .inl hhere
    · refine .inr (h.isFileName name ?_)
      rw [hnames, ← hbehind]
      exact List.mem_append_left _ (List.mem_filter.mpr ⟨hname, bne_iff_ne.mpr hhere⟩)
  · rw [hroute, List.getLast?_concat]

/-- Where more than one name leads to nothing, the directory cannot be made by itself. -/
theorem makeDirectory_eq_notFound {init : List String} {last : String} (hinit : init ≠ [])
    (hnames : names = init ++ [last]) : disk.makeDirectory path = .error .notFound := by
  obtain ⟨front, rest, hpath, hfront, hrest, hgetLast⟩ := h.split
  obtain ⟨first, more, rfl⟩ := List.exists_cons_of_ne_nil hinit
  rw [hnames, List.cons_append] at hrest
  obtain ⟨dots, behind, rfl, hdots, hfirst, hbehind⟩ := List.filter_eq_cons_iff.mp hrest
  have hsome : behind ≠ [] := by
    rintro rfl
    simp at hbehind
  have hname := h.isFileName first (by simp [hnames])
  have hfree : disk.get? (base ++ [first]) = none := h.fresh first (by simp [hnames])
  have hmore : dots ++ first :: behind.dropLast ≠ [] := by simp
  obtain ⟨left, hleft⟩ := walk_onward hmore hfront .reach true
  have hplace : disk.placeOf (routeFrom disk.workDir path) = .error .notFound := by
    have hdropLast : (front ++ (dots ++ first :: behind)).dropLast
        = front ++ (dots ++ first :: behind.dropLast) := by
      rw [List.dropLast_append_of_ne_nil (by simp), List.dropLast_append_of_ne_nil (by simp),
        List.dropLast_cons_of_ne_nil hsome]
    rw [placeOf, names_routeFrom, hpath, hdropLast, hleft,
      walk_dots fun dot hdot => by simpa using hdots dot hdot,
      walk_reach_nothing hname.ne_here hname.ne_up hname.short hfree]
    cases behind.dropLast.isEmpty with
    | false => rfl
    | true => rfl
  rw [Disk.makeDirectory, h.routed]
  change (disk.vacancy _ >>= _) = _
  rw [vacancy, hplace]
  rfl

/-- The parent is missing without the last of the names. -/
theorem exists_parent? {init : List String} {last : String} (hinit : init ≠ [])
    (hnames : names = init ++ [last]) :
    ∃ parent, path.parent? = some parent ∧ disk.Missing parent base init := by
  obtain ⟨front, rest, hpath, hfront, hrest, hgetLast⟩ := h.split
  have hlast := h.isFileName last (by simp [hnames])
  rw [hnames, List.getLast?_concat] at hgetLast
  obtain ⟨behind, rfl⟩ := List.getLast?_eq_some_iff.mp hgetLast
  have hbehind : behind.filter (fun name => name != ".") = init := by
    rw [List.filter_append, List.filter_cons_of_pos (by simp [hlast.ne_here]), List.filter_nil,
      hnames] at hrest
    exact (List.append_inj' hrest rfl).1
  rw [← List.append_assoc] at hpath
  obtain ⟨parent, hparent, hencloses⟩ := Path.exists_parent? hpath hlast.busy
  refine ⟨parent, hparent, ?_⟩
  -- The dots that the parent lacks come behind the missing names.
  obtain ⟨dots, hdotted, hdots⟩ := hencloses.names
  have hnone : dots.filter (fun name => name != ".") = [] :=
    List.filter_eq_nil_iff.mpr fun dot hdot => by simp [hdots dot hdot]
  obtain ⟨kept, hkept, hsame⟩ : ∃ kept, parent.names = front ++ kept ∧
      kept.filter (fun name => name != ".") = init := by
    rcases List.append_eq_append_iff.mp hdotted with ⟨kept, hkept, hbehind'⟩ | ⟨lacking, -, hlacking⟩
    · refine ⟨kept, hkept, ?_⟩
      rwa [hbehind', List.filter_append, hnone, List.append_nil] at hbehind
    · rw [hlacking, List.filter_append, List.append_eq_nil_iff, hbehind] at hnone
      exact absurd hnone.2 hinit
  have hkeptSome : kept ≠ [] := by
    rintro rfl
    exact hinit hsame.symm
  obtain ⟨others, final, hfinal⟩ := (List.eq_nil_or_concat' kept).resolve_left hkeptSome
  have hne : final ≠ "." := by
    rintro rfl
    have hall := hencloses.last (by rw [hkept, hfinal, ← List.append_assoc, List.getLast?_concat])
    rw [hkept] at hall
    have hmem : ∀ name ∈ kept, name = "." := fun name hname => by
      have := List.mem_append_right front hname
      rw [hall] at this
      exact List.mem_singleton.mp this
    exact hinit (hsame ▸ List.filter_eq_nil_iff.mpr fun name hname => by simp [hmem name hname])
  obtain ⟨more, htext⟩ := hencloses.text
  obtain ⟨hzero, -, hshort⟩ := route_eq_ok_iff.mp h.routed
  rw [htext] at hzero hshort
  rw [String.utf8ByteSize_append] at hshort
  have hempty : parent.text ≠ "" :=
    text_ne_empty_of_names ((names_routeFrom disk.workDir _).trans hkept) (by simp [hkeptSome])
  have hstart : (routeFrom disk.workDir parent).start = (routeFrom disk.workDir path).start := by
    simp only [routeFrom, hencloses.isAbsolute]
  refine ⟨route_eq_ok_iff.mpr ⟨fun hmem => hzero (by simp [hmem]), hempty, by omega⟩,
    ⟨front, kept, hkept, hstart ▸ hfront, hsame, ?_⟩, ?_, ?_⟩
  · rw [← hsame, hfinal, List.filter_append, List.filter_cons_of_pos (by simp [hne]),
      List.filter_nil, List.getLast?_concat, List.getLast?_concat]
  · intro first hfirst
    refine h.fresh first ?_
    rw [hnames, List.head?_append, hfirst]
    rfl
  · exact fun name hname => h.isFileName name (by simp [hnames, hname])

theorem get?_base (hdisk : disk.WellFormed) : disk.get? base = some .directory := by
  obtain ⟨front, rest, -, hfront, -, -⟩ := h.split
  exact hdisk.get?_of_walk (IsTree.get?_routeFrom_start hdisk.workDir path) hfront

/-- The last directory is made once the others are. -/
theorem names_grow (hdisk : disk.WellFormed) {init : List String} {last : String}
    (hnames : names = init ++ [last]) :
    (disk.grow base init).Names path (routeFrom disk.workDir path) (base ++ init) last ∧
      (disk.grow base init).get? (base ++ init ++ [last]) = none := by
  have hfresh := h.fresh
  have hinit : ∀ name ∈ init, IsFileName name := fun name hname =>
    h.isFileName name (by simp [hnames, hname])
  have hfreshInit : disk.IsFresh base init := by
    intro first hfirst
    refine hfresh first ?_
    rw [hnames, List.head?_append, hfirst]
    rfl
  have hfree : disk.get? (base ++ init ++ [last]) = none := by
    have hnone := hfresh.get?_eq_none hdisk.toIsTree (by simp [hnames]) List.prefix_rfl []
    rwa [hnames, List.append_nil, ← List.append_assoc] at hnone
  refine ⟨h.names_last (hdisk.grow (h.get?_base hdisk) hinit hfreshInit).2 hnames ?_, ?_⟩
  · intro front hfront hsome
    rw [get?_grow, if_pos]
    exact ⟨List.prefix_append _ _, by simpa using hsome, (List.prefix_append_right_inj _).mpr hfront⟩
  · rw [get?_grow, if_neg]
    · exact hfree
    · rintro ⟨-, -, hprefix⟩
      have hlength := hprefix.length_le
      simp only [List.length_append, List.length_singleton] at hlength
      omega

/-- The missing directories are made, one after the other. -/
theorem makeChain_eq (hdisk : disk.WellFormed) (hsome : names ≠ []) {fuel : Nat}
    (hfuel : names.length ≤ fuel + 1) :
    makeChain (path :: Path.parents.go fuel path) disk = (none, disk.grow base names) := by
  induction names using List.reverseRecOn generalizing path fuel with
  | nil => exact absurd rfl hsome
  | append_singleton init last ih =>
    have hempty : path.text.isEmpty = false := by
      simpa using (route_eq_ok_iff.mp h.routed).2.1
    obtain ⟨hnamed, hfree⟩ := h.names_grow hdisk rfl
    have hmake : (disk.grow base init).makeDirectory path = .ok (disk.grow base (init ++ [last])) := by
      rw [hnamed.makeDirectory, hfree, grow_concat]
      rfl
    rw [makeChain, if_neg (by simp [hempty]), makeDirectoryWith]
    by_cases hinit : init = []
    · subst hinit
      change disk.makeDirectory path = _ at hmake
      rw [hmake]
    · cases fuel with
      | zero =>
        rw [List.length_append, List.length_singleton] at hfuel
        exact absurd (List.eq_nil_of_length_eq_zero (by omega)) hinit
      | succ fuel =>
        obtain ⟨parent, hparent, hmissing⟩ := h.exists_parent? hinit rfl
        have hparents : makeChain (Path.parents.go (fuel + 1) path) disk
            = (none, disk.grow base init) := by
          rw [Path.parents.go, hparent]
          exact ih hmissing hinit (by simp at hfuel; omega)
        rw [h.makeDirectory_eq_notFound hinit rfl]
        dsimp only
        rw [hparents]
        dsimp only
        rw [hmake]

theorem makeDirectories (hdisk : disk.WellFormed) (hsome : names ≠ []) :
    disk.makeDirectories path = (none, disk.grow base names) ∧
      (disk.grow base names).find path = .ok (base ++ names, .directory) := by
  constructor
  · refine h.makeChain_eq hdisk hsome ?_
    obtain ⟨front, rest, hpath, -, hrest, -⟩ := h.split
    have hnames : names.length ≤ path.names.length := by
      rw [hpath, List.length_append, ← hrest]
      exact (List.length_filter_le _ _).trans (Nat.le_add_left _ _)
    exact (hnames.trans (List.length_filter_le _ _)).trans (Nat.le_succ _)
  · obtain ⟨init, last, rfl⟩ := (List.eq_nil_or_concat' names).resolve_left hsome
    obtain ⟨hnamed, hfree⟩ := h.names_grow hdisk rfl
    rw [grow_concat, ← List.append_assoc]
    exact hnamed.find_set hfree

end Missing

/-! ### Destinations -/

/-- Where a path leads once it is made sure that there is a directory. -/
inductive Destination (disk : Disk) (path : Path) : Location → Prop
  /-- the directory is there -/
  | there {base : Location} (found : disk.find path = .ok (base, .directory)) :
      Destination disk path base
  /-- the directory can be made -/
  | missing {base : Location} {names : List String} (missing : disk.Missing path base names)
      (some : names ≠ []) : Destination disk path (base ++ names)

theorem Destination.routed (h : disk.Destination path base) :
    disk.route path = .ok (routeFrom disk.workDir path) := by
  cases h with
  | there found => exact (find_eq_directory_iff.mp found).1
  | missing missing _ => exact missing.routed

/-- A disk with a directory made sure of: it is there, all that was there is there, and what is new
are directories on the way to it. -/
structure MakesSure (disk : Disk) (path : Path) (base : Location) (made : Disk) : Prop where
  makeDirectories : disk.makeDirectories path = (none, made)
  wellFormed : made.WellFormed
  keeps : disk.Extends made
  leads : made.Leads path base
  links : ∀ link ∈ made.linksTo path, link ∈ disk.linksTo path ∨ ¬ base <+: link
  get? : ∀ location, made.get? location = disk.get? location ∨
    disk.get? location = none ∧ made.get? location = some .directory ∧ location <+: base

namespace MakesSure

variable {made : Disk} (h : disk.MakesSure path base made)

include h

/-- Only the directory itself is made, nothing in it. -/
theorem get?_below {relative : Location} (hsome : relative ≠ []) :
    made.get? (base ++ relative) = disk.get? (base ++ relative) := by
  refine (h.get? _).resolve_right ?_
  rintro ⟨-, -, hprefix⟩
  have hlength := hprefix.length_le
  rw [List.length_append] at hlength
  exact hsome (List.eq_nil_of_length_eq_zero (by omega))

theorem keepsWays (other : Path) : disk.KeepsWays (disk.linksTo other) made := by
  refine ⟨h.keeps.workDir, fun location => h.keeps.get? location .directory, fun link hlink => ?_⟩
  obtain ⟨target, htarget⟩ := exists_link_of_mem_linksOn hlink
  rw [htarget, h.keeps.get? _ _ htarget]

end MakesSure

/-- A directory that is there, or can be made, is there in the end. -/
theorem Destination.exists_made (hdisk : disk.WellFormed) (h : disk.Destination path base) :
    ∃ made, disk.MakesSure path base made := by
  cases h with
  | there found =>
    exact ⟨disk, makeDirectories_of_find found, hdisk, Extends.refl disk,
      (find_eq_directory_iff.mp found).2, fun _ hlink => .inl hlink, fun _ => .inl rfl⟩
  | @missing base names missing hsome =>
    have hbase := missing.get?_base hdisk
    obtain ⟨hmake, hfind⟩ := missing.makeDirectories hdisk hsome
    obtain ⟨hgrown, hextends⟩ := hdisk.grow hbase missing.isFileName missing.fresh
    refine ⟨_, hmake, hgrown, hextends, (find_eq_directory_iff.mp hfind).2, fun link hlink => .inr ?_,
      fun location => ?_⟩
    · -- There is nothing but a directory yet where the path leads.
      rintro ⟨rest, rfl⟩
      obtain ⟨target, htarget⟩ := exists_link_of_mem_linksOn hlink
      rw [get?_grow] at htarget
      split at htarget
      · cases htarget
      · rw [missing.fresh.get?_eq_none hdisk.toIsTree hsome List.prefix_rfl] at htarget
        cases htarget
    rw [get?_grow]
    split
    · next hbetween =>
      obtain ⟨⟨between, rfl⟩, hne, hprefix⟩ := hbetween
      refine .inr ⟨?_, rfl, hprefix⟩
      have hsome : between ≠ [] := by simpa using hne
      have hnone := missing.fresh.get?_eq_none hdisk.toIsTree hsome
        ((List.prefix_append_right_inj _).mp hprefix) []
      rwa [List.append_nil] at hnone
    · exact .inl rfl

end SiteTree.Disk
