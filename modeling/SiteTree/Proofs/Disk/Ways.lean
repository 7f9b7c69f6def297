import SiteTree.Proofs.Disk.NewDirectories
import SiteTree.Proofs.Path.Enclosing

/-!
# The way along a path

A path leads to a directory through directories and links. As long as those are there, it leads to
the same directory, whatever else changes; and a path that is continued from it by names leads down
from there.

* `Disk.KeepsWays.leads` — a path leads where it led before.
* `Disk.Leads.locate_join` — names that are joined to a path lead down from its directory.
-/

namespace SiteTree

/-- A name that the file system takes. -/
structure IsFileName (name : String) : Prop extends IsEntryName name where
  short : ¬ Disk.maxName < name.utf8ByteSize
  noZero : '\x00' ∉ name.toList

theorem isFileName_iff {name : String} : IsFileName name
    ↔ IsEntryName name ∧ ¬ Disk.maxName < name.utf8ByteSize ∧ '\x00' ∉ name.toList :=
  ⟨fun h => ⟨h.toIsEntryName, h.short, h.noZero⟩, fun ⟨hname, hshort, hzero⟩ => ⟨hname, hshort, hzero⟩⟩

instance (name : String) : Decidable (IsFileName name) :=
  decidable_of_iff' _ isFileName_iff

/-! ### Paths that go on by names -/

namespace Path

/-- The path that goes on from a directory by names. -/
def down (directory : Path) (relative : Location) : Path :=
  directory.join (ofSegments false relative)

theorem segments_ofSegments_of_names {relative : Location} (hsome : relative ≠ [])
    (h : ∀ name ∈ relative, IsEntryName name) :
    (ofSegments false relative).isAbsolute = false ∧
      (ofSegments false relative).segments = relative := by
  have hfirst : relative.head? ≠ some "" := fun hhead =>
    (h "" (List.mem_of_head? hhead)).ne_empty rfl
  obtain ⟨habs, hsegments⟩ := segments_ofSegments_false (fun name hname => (h name hname).noSlash) hfirst
  exact ⟨habs, hsegments.trans (if_neg hsome)⟩

theorem routeFrom_down {directory : Path} {relative : Location} (hsome : relative ≠ [])
    (h : ∀ name ∈ relative, IsEntryName name) (here : Location) :
    Disk.routeFrom here (directory.down relative)
      = ⟨(Disk.routeFrom here directory).start, (Disk.routeFrom here directory).names ++ relative,
        false⟩ := by
  obtain ⟨habs, hsegments⟩ := segments_ofSegments_of_names hsome h
  have hnames : (relative.filter fun s => s != "") = relative :=
    List.filter_eq_self.mpr fun name hname => bne_iff_ne.mpr (h name hname).ne_empty
  have hlast : (relative.getLast? == some "") = false := by
    rw [List.getLast?_eq_some_getLast hsome]
    simpa using (h _ (List.getLast_mem hsome)).ne_empty
  rw [down, Disk.routeFrom_join habs]
  simp only [Disk.routeFrom, Disk.names, hsegments, hnames, hlast]

/-! #### Characters -/

theorem mem_intercalate {segments : List String} {c : Char}
    (h : c ∈ ("/".intercalate segments).toList) : c = '/' ∨ ∃ s ∈ segments, c ∈ s.toList := by
  induction segments with
  | nil => simp at h
  | cons first segments ih =>
    cases segments with
    | nil => exact .inr ⟨first, List.mem_cons_self, by rwa [String.intercalate_singleton] at h⟩
    | cons next segments =>
      rw [String.intercalate_cons_cons, String.toList_append, String.toList_append,
        List.append_assoc, List.mem_append] at h
      rcases h with h | h
      · exact .inr ⟨first, List.mem_cons_self, h⟩
      rcases List.mem_append.mp h with h | h
      · exact .inl (by simpa using h)
      · exact (ih h).imp_right fun ⟨s, hs, hc⟩ => ⟨s, List.mem_cons_of_mem _ hs, hc⟩

theorem mem_join {base path : Path} {c : Char} (h : c ∈ (base.join path).text.toList) :
    c = '/' ∨ c ∈ base.text.toList ∨ c ∈ path.text.toList := by
  rw [join] at h
  split at h
  · exact .inr (.inr h)
  split at h
  · exact .inr (.inr h)
  split at h
  · rw [String.toList_append, List.mem_append] at h
    exact .inr h
  · rw [String.toList_append, String.toList_append, List.append_assoc, List.mem_append,
      List.mem_append] at h
    rcases h with h | h | h
    · exact .inr (.inl h)
    · exact .inl (by simpa using h)
    · exact .inr (.inr h)

end Path

namespace Disk

variable {disk : Disk} {path : Path} {base here : Location} {links : Nat} {names : List String}
  {slash : Bool}

/-! ### Looking -/

/-- What is no link is reached where it is seen. -/
theorem walk_reach_of_look {location : Location} {entry : Entry}
    (hlink : ∀ target, entry ≠ .link target)
    (h : disk.walk .look links here names slash = .ok ⟨location, some entry⟩) :
    disk.walk .reach links here names slash = .ok ⟨location, some entry⟩ := by
  fun_induction Disk.walk disk .look links here names slash
  case case1 =>
    rw [walk]
    exact h
  case case2 ih =>
    rw [walk, if_pos rfl]
    exact ih h
  case case3 hhere ih =>
    rw [walk, if_neg hhere, if_pos rfl]
    exact ih h
  case case8 hhere hup _ hlong _ hentry ih =>
    rw [walk_reach_directory hhere hup hlong hentry]
    exact ih h
  case case9 hhere hup _ hlong _ content hentry hlast =>
    rw [walk_reach_free hhere hup hlong, hentry]
    exact (if_pos hlast).trans h
  case case11 found target _ _ =>
    obtain ⟨-, rfl⟩ : found = location ∧ .link target = entry := by simpa using h
    exact absurd rfl (hlink target)
  case case13 hhere hup _ hlong _ target hentry _ links route ih =>
    rw [walk_reach_free hhere hup hlong, hentry]
    exact ih h
  all_goals simp at h

theorem find_of_entryAt {location : Location} {entry : Entry} (hlink : ∀ target, entry ≠ .link target)
    (h : disk.entryAt path = .ok (location, entry)) : disk.find path = .ok (location, entry) := by
  rw [entryAt, Disk.locate] at h
  obtain ⟨⟨place, found⟩, hspot, h⟩ := exists_of_bind_eq_ok h
  obtain ⟨route, hroute, hwalk⟩ := exists_of_bind_eq_ok hspot
  cases found with
  | none => cases h
  | some found =>
    cases h
    obtain rfl := eq_routeFrom_of_route hroute
    exact find_eq_ok_iff.mpr ⟨hroute, walk_reach_of_look hlink hwalk⟩

/-! ### Links on the way -/

/-- The links that are followed on the way along names, to reach what they lead to. -/
def linksOn (disk : Disk) (links : Nat) (here : Location) (names : List String) : List Location :=
  match names with
  | [] => []
  | name :: rest =>
    if name = "." then disk.linksOn links here rest
    else if name = ".." then disk.linksOn links here.dropLast rest
    else
      match disk.get? (here ++ [name]) with
      | some .directory => disk.linksOn links (here ++ [name]) rest
      | some (.link target) =>
        match links with
        | 0 => []
        | links + 1 =>
          let route := routeFrom here target
          (here ++ [name]) :: disk.linksOn links route.start (route.names ++ rest)
      | _ => []
termination_by (links, names.length)

section

variable {name : String} {rest : List String} (hhere : name ≠ ".") (hup : name ≠ "..")

include hhere hup

theorem linksOn_directory (hentry : disk.get? (here ++ [name]) = some .directory) :
    disk.linksOn links here (name :: rest) = disk.linksOn links (here ++ [name]) rest := by
  rw [linksOn, if_neg hhere, if_neg hup, hentry]

theorem linksOn_link {target : Path} (hentry : disk.get? (here ++ [name]) = some (.link target)) :
    disk.linksOn (links + 1) here (name :: rest)
      = (here ++ [name]) :: disk.linksOn links (routeFrom here target).start
          ((routeFrom here target).names ++ rest) := by
  rw [linksOn, if_neg hhere, if_neg hup, hentry]

end

/-- The links that are followed on the way to what a path leads to. -/
def linksTo (disk : Disk) (path : Path) : List Location :=
  disk.linksOn maxLinks (routeFrom disk.workDir path).start (routeFrom disk.workDir path).names

theorem exists_link_of_mem_linksOn {link : Location} (h : link ∈ disk.linksOn links here names) :
    ∃ target, disk.get? link = some (.link target) := by
  fun_induction linksOn disk links here names with
  | case1 => cases h
  | case2 links here rest ih => exact ih h
  | case3 links here rest hhere ih => exact ih h
  | case4 links here name rest hhere hup hentry ih => exact ih h
  | case5 => cases h
  | case6 here name rest hhere hup target hentry links route ih =>
    rcases List.mem_cons.mp h with rfl | h
    · exact ⟨target, hentry⟩
    · exact ih h
  | case7 => cases h

/-- What is there of the ways along some links is still there. -/
structure KeepsWays (disk : Disk) (links : List Location) (after : Disk) : Prop where
  workDir : after.workDir = disk.workDir
  directory : ∀ location, disk.get? location = some .directory → after.get? location = some .directory
  link : ∀ link ∈ links, after.get? link = disk.get? link

theorem KeepsWays.refl (disk : Disk) (links : List Location) : disk.KeepsWays links disk :=
  ⟨rfl, fun _ h => h, fun _ _ => rfl⟩

theorem KeepsWays.mono {first second : List Location} {after : Disk}
    (h : disk.KeepsWays second after) (hsubset : first ⊆ second) : disk.KeepsWays first after :=
  ⟨h.workDir, h.directory, fun link hlink => h.link link (hsubset hlink)⟩

theorem KeepsWays.trans {ways : List Location} {middle after : Disk}
    (hfirst : disk.KeepsWays ways middle) (hsecond : middle.KeepsWays ways after) :
    disk.KeepsWays ways after :=
  ⟨hsecond.workDir.trans hfirst.workDir,
    fun location h => hsecond.directory location (hfirst.directory location h),
    fun link hlink => (hsecond.link link hlink).trans (hfirst.link link hlink)⟩

/-- What is set in the place of no directory and no link on the way keeps the ways. -/
theorem KeepsWays.set {ways : List Location} {after : Disk} (h : disk.KeepsWays ways after)
    {location : Location} (hroot : location ≠ []) (hdirectory : disk.get? location ≠ some .directory)
    (hlink : location ∉ ways) (entry : Entry) :
    disk.KeepsWays ways (after.set location entry) := by
  refine ⟨h.workDir, fun other hother => ?_, fun link hmem => ?_⟩
  · rw [get?_set hroot, if_neg]
    · exact h.directory other hother
    · rintro rfl
      exact hdirectory hother
  · rw [get?_set hroot, if_neg]
    · exact h.link link hmem
    · rintro rfl
      exact hlink hmem

/-- Names lead to the same entry, through the same links, as long as these are there. -/
theorem KeepsWays.walk {after : Disk} {location : Location} {entry : Entry}
    (hkeeps : disk.KeepsWays (disk.linksOn links here names) after)
    (h : disk.walk .reach links here names slash = .ok ⟨location, some entry⟩)
    (hfile : ∀ content, entry = .file content → after.get? location = some entry) :
    after.walk .reach links here names slash = .ok ⟨location, some entry⟩ ∧
      after.linksOn links here names = disk.linksOn links here names := by
  fun_induction Disk.walk disk .reach links here names slash
  case case1 =>
    rw [Disk.walk, linksOn, linksOn]
    exact ⟨h, rfl⟩
  case case2 ih =>
    rw [linksOn, if_pos rfl] at hkeeps ⊢
    rw [Disk.walk, if_pos rfl, linksOn, if_pos rfl]
    exact ih hkeeps h
  case case3 hhere ih =>
    rw [linksOn, if_neg hhere, if_pos rfl] at hkeeps ⊢
    rw [Disk.walk, if_neg hhere, if_pos rfl, linksOn, if_neg hhere, if_pos rfl]
    exact ih hkeeps h
  case case8 hhere hup _ hlong _ hentry ih =>
    have hafter := hkeeps.directory _ hentry
    rw [linksOn_directory hhere hup hentry] at hkeeps ⊢
    rw [walk_reach_directory hhere hup hlong hafter, linksOn_directory hhere hup hafter]
    exact ih hkeeps h
  case case9 hhere hup _ hlong found content hentry hlast =>
    obtain ⟨rfl, rfl⟩ : found = location ∧ .file content = entry := by simpa using h
    have hafter := hfile content rfl
    rw [walk_reach_free hhere hup hlong, hafter, linksOn, if_neg hhere, if_neg hup, hafter, linksOn,
      if_neg hhere, if_neg hup, hentry]
    exact ⟨if_pos hlast, rfl⟩
  case case13 hhere hup _ hlong _ target hentry _ links route ih =>
    rw [linksOn_link hhere hup hentry] at hkeeps ⊢
    have hafter := (hkeeps.link _ List.mem_cons_self).trans hentry
    rw [walk_reach_free hhere hup hlong, linksOn_link hhere hup hafter, hafter]
    obtain ⟨hwalk, hlinks⟩ := ih (hkeeps.mono (List.subset_cons_self _ _)) h
    exact ⟨hwalk, congrArg (_ :: ·) hlinks⟩
  case case11 hlook => exact absurd hlook.1 (by decide)
  all_goals simp at h

/-- A path leads to the same entry as long as that and the links on the way are there. -/
theorem KeepsWays.find {after : Disk} {location : Location} {entry : Entry}
    (hkeeps : disk.KeepsWays (disk.linksTo path) after)
    (h : disk.find path = .ok (location, entry))
    (hfile : ∀ content, entry = .file content → after.get? location = some entry) :
    after.find path = .ok (location, entry) := by
  obtain ⟨hroute, hwalk⟩ := find_eq_ok_iff.mp h
  rw [find_eq_ok_iff, Disk.route, hkeeps.workDir, ← Disk.route]
  exact ⟨hroute, (KeepsWays.walk hkeeps hwalk hfile).1⟩

/-! ### Leading to a directory -/

/-- The path leads to a directory. -/
def Leads (disk : Disk) (path : Path) (base : Location) : Prop :=
  disk.walk .reach maxLinks (routeFrom disk.workDir path).start
    (routeFrom disk.workDir path).names (routeFrom disk.workDir path).slash
      = .ok ⟨base, some .directory⟩

theorem find_eq_directory_iff : disk.find path = .ok (base, .directory)
    ↔ disk.route path = .ok (routeFrom disk.workDir path) ∧ disk.Leads path base :=
  find_eq_ok_iff

theorem KeepsWays.leads {after : Disk} (hkeeps : disk.KeepsWays (disk.linksTo path) after)
    (h : disk.Leads path base) :
    after.Leads path base ∧ after.linksTo path = disk.linksTo path := by
  rw [Leads, linksTo, hkeeps.workDir]
  exact KeepsWays.walk hkeeps h nofun

/-- What comes behind names that lead to a directory is followed from there. -/
theorem walk_onward {front rest : List String} (hrest : rest ≠ [])
    (h : disk.walk .reach links here front slash = .ok ⟨base, some .directory⟩) (purpose : Purpose)
    (slash' : Bool) :
    ∃ left, disk.walk purpose links here (front ++ rest) slash'
      = disk.walk purpose left base rest slash' := by
  have hmore : ∀ {names : List String}, (names ++ rest).isEmpty = false := by simp [hrest]
  have hwrite : ∀ {names : List String},
      ¬ (purpose = .write ∧ (names ++ rest).isEmpty ∧ slash') := by simp [hmore]
  have hlook : ∀ {names : List String},
      ¬ (purpose = .look ∧ (names ++ rest).isEmpty ∧ (!slash') = true) := by simp [hmore]
  fun_induction Disk.walk disk .reach links here front slash
  case case1 =>
    cases h
    exact ⟨_, rfl⟩
  case case2 ih =>
    rw [List.cons_append, walk, if_pos rfl]
    exact ih h
  case case3 hhere ih =>
    rw [List.cons_append, walk, if_neg hhere, if_pos rfl]
    exact ih h
  case case8 hhere hup _ hlong _ hentry ih =>
    rw [List.cons_append, walk, if_neg hhere, if_neg hup, if_neg hwrite, if_neg hlong]
    dsimp only
    rw [hentry]
    exact ih h
  case case13 hhere hup _ hlong _ target hentry _ links route ih =>
    rw [List.cons_append, walk, if_neg hhere, if_neg hup, if_neg hwrite, if_neg hlong]
    dsimp only
    rw [hentry]
    dsimp only
    rw [if_neg hlook, hmore, Bool.false_and, Bool.or_false, ← List.append_assoc]
    exact ih h
  all_goals simp at h

/-! ### Names that lead down -/

/-- Names of directories lead down through them. -/
theorem walk_down {purpose : Purpose} {below rest : List String} (hrest : rest ≠ [])
    (hnames : ∀ name ∈ below, IsFileName name)
    (hbelow : ∀ front, front <+: below → disk.get? (here ++ front) = some .directory) :
    disk.walk purpose links here (below ++ rest) slash
      = disk.walk purpose links (here ++ below) rest slash := by
  induction below generalizing here with
  | nil => rw [List.nil_append, List.append_nil]
  | cons name below ih =>
    have hname := hnames name List.mem_cons_self
    have hentry : disk.get? (here ++ [name]) = some .directory :=
      hbelow [name] (List.cons_prefix_cons.mpr ⟨rfl, List.nil_prefix⟩)
    have hmore : ¬ (purpose = .write ∧ (below ++ rest).isEmpty ∧ slash) := by simp [hrest]
    have hnext : disk.walk purpose links (here ++ [name]) (below ++ rest) slash
        = disk.walk purpose links (here ++ [name] ++ below) rest slash :=
      ih (fun other hother => hnames other (List.mem_cons_of_mem _ hother)) fun front hfront => by
        rw [List.append_assoc]
        exact hbelow _ (List.cons_prefix_cons.mpr ⟨rfl, hfront⟩)
    rw [List.cons_append, walk, if_neg hname.ne_here, if_neg hname.ne_up, if_neg hmore,
      if_neg hname.short]
    dsimp only
    rw [hentry]
    dsimp only
    rw [hnext, List.append_assoc]
    rfl

/-- The last name leads to what has it, if that is not a link that is to be followed. -/
theorem walk_last {purpose : Purpose} {name : String} (hname : IsFileName name)
    (hlook : purpose = .look ∨ ∀ target, disk.get? (here ++ [name]) ≠ some (.link target)) :
    disk.walk purpose links here [name] false
      = .ok ⟨here ++ [name], disk.get? (here ++ [name])⟩ := by
  rw [walk, if_neg hname.ne_here, if_neg hname.ne_up, if_neg (by simp), if_neg hname.short]
  dsimp only
  cases hentry : disk.get? (here ++ [name]) with
  | none => rfl
  | some entry =>
    cases entry with
    | directory => rw [walk]
    | file content => rfl
    | link target =>
      obtain rfl := hlook.resolve_right fun hlink => hlink target hentry
      rfl

/-- To a directory it makes no difference whether a slash comes behind its name. -/
theorem walk_reach_slash (h : disk.walk .reach links here names slash = .ok ⟨base, some .directory⟩)
    (slash' : Bool) :
    disk.walk .reach links here names slash' = .ok ⟨base, some .directory⟩ := by
  fun_induction Disk.walk disk .reach links here names slash generalizing slash'
  case case1 =>
    rw [walk]
    exact h
  case case2 ih =>
    rw [walk, if_pos rfl]
    exact ih h slash'
  case case3 hhere ih =>
    rw [walk, if_neg hhere, if_pos rfl]
    exact ih h slash'
  case case8 hhere hup _ hlong _ hentry ih =>
    rw [walk_reach_directory hhere hup hlong hentry]
    exact ih h slash'
  case case13 hhere hup _ hlong _ target hentry _ links route ih =>
    rw [walk_reach_free hhere hup hlong, hentry]
    exact ih h _
  all_goals simp at h

/-- Names of directories lead to the last of them, dots between them or not. -/
theorem walk_reach_passes {below : List String} (hnames : ∀ name ∈ below, name = "." ∨ IsFileName name)
    (hbelow : ∀ front, front <+: below.filter (fun name => name != ".") → front ≠ [] →
      disk.get? (here ++ front) = some .directory) :
    disk.walk .reach links here below slash
      = .ok ⟨here ++ below.filter (fun name => name != "."), some .directory⟩ := by
  induction below generalizing here with
  | nil => rw [walk, List.filter_nil, List.append_nil]
  | cons name below ih =>
    have hothers := fun other hother => hnames other (List.mem_cons_of_mem name hother)
    by_cases hhere : name = "."
    · rw [List.filter_cons_of_neg (by simp [hhere])] at hbelow ⊢
      rw [walk, if_pos hhere]
      exact ih hothers hbelow
    · have hname := (hnames name List.mem_cons_self).resolve_left hhere
      rw [List.filter_cons_of_pos (by simp [hhere])] at hbelow ⊢
      have hentry := hbelow [name] (List.cons_prefix_cons.mpr ⟨rfl, List.nil_prefix⟩)
        (List.cons_ne_nil name [])
      rw [walk_reach_directory hname.ne_here hname.ne_up hname.short hentry, ih hothers,
        List.append_assoc]
      · rfl
      · intro front hfront _
        rw [List.append_assoc]
        exact hbelow _ (List.cons_prefix_cons.mpr ⟨rfl, hfront⟩) (List.cons_ne_nil name front)

/-- Names that lead to a directory can be continued by names of directories. -/
theorem walk_reach_concat {front below : List String}
    (h : disk.walk .reach links here front slash = .ok ⟨base, some .directory⟩)
    (hnames : ∀ name ∈ below, name = "." ∨ IsFileName name)
    (hbelow : ∀ front, front <+: below.filter (fun name => name != ".") → front ≠ [] →
      disk.get? (base ++ front) = some .directory) (slash' : Bool) :
    disk.walk .reach links here (front ++ below) slash'
      = .ok ⟨base ++ below.filter (fun name => name != "."), some .directory⟩ := by
  by_cases hempty : below = []
  · subst hempty
    rw [List.append_nil, List.filter_nil, List.append_nil]
    exact walk_reach_slash h slash'
  · obtain ⟨left, hleft⟩ := walk_onward hempty h .reach slash'
    rw [hleft]
    exact walk_reach_passes hnames hbelow

/-! ### Paths that go on from a directory -/

theorem route_eq_ok_iff : disk.route path = .ok (routeFrom disk.workDir path)
    ↔ '\x00' ∉ path.text.toList ∧ path.text ≠ "" ∧ path.text.utf8ByteSize ≤ maxPath := by
  rw [route]
  split
  · next hzero => simp_all
  split
  · next hempty => simp_all
  split
  · next hlong => simp_all
  · next hzero hempty hlong => simp_all

theorem noZero_down {directory : Path} {relative : Location}
    (hdirectory : '\x00' ∉ directory.text.toList) (hnames : ∀ name ∈ relative, IsFileName name) :
    '\x00' ∉ (directory.down relative).text.toList := by
  intro hzero
  rcases Path.mem_join hzero with hslash | hzero | hzero
  · exact absurd hslash (by decide)
  · exact hdirectory hzero
  · have hzero : '\x00' ∈ ("/".intercalate relative).toList := by simpa [Path.ofSegments] using hzero
    rcases Path.mem_intercalate hzero with hslash | ⟨name, hname, hzero⟩
    · exact absurd hslash (by decide)
    · exact (hnames name hname).noZero hzero

theorem exists_route_error (h : maxPath < path.text.utf8ByteSize) :
    ∃ error, disk.route path = .error error := by
  cases hroute : disk.route path with
  | error error => exact ⟨error, rfl⟩
  | ok route =>
    obtain rfl := eq_routeFrom_of_route hroute
    exact absurd (route_eq_ok_iff.mp hroute).2.2 (Nat.not_le_of_lt h)

theorem names_routeFrom (here : Location) (path : Path) : (routeFrom here path).names = path.names :=
  rfl

theorem text_ne_empty_of_names {names : List String} (hnames : (routeFrom here path).names = names)
    (hsome : names ≠ []) : path.text ≠ "" := by
  intro hempty
  obtain ⟨text⟩ := path
  obtain rfl : text = "" := hempty
  exact hsome hnames.symm

/-- A path that goes on by names that the file system takes is followed, if it is not too long. -/
theorem route_down {directory : Path} {relative : Location} (hsome : relative ≠ [])
    (hdirectory : '\x00' ∉ directory.text.toList) (hnames : ∀ name ∈ relative, IsFileName name)
    (hshort : (directory.down relative).text.utf8ByteSize ≤ maxPath) :
    disk.route (directory.down relative)
      = .ok (routeFrom disk.workDir (directory.down relative)) := by
  have hroute : (routeFrom disk.workDir (directory.down relative)).names
      = (routeFrom disk.workDir directory).names ++ relative :=
    congrArg Route.names (Path.routeFrom_down hsome
      (fun name hname => (hnames name hname).toIsEntryName) disk.workDir)
  exact route_eq_ok_iff.mpr ⟨noZero_down hdirectory hnames,
    text_ne_empty_of_names hroute (by simp [hsome]), hshort⟩

/-- The path goes on from a directory by names, of which all but the last are directories. -/
structure GoesOn (disk : Disk) (directory : Path) (base relative : Location) (name : String) :
    Prop where
  leads : disk.Leads directory base
  parent : disk.get? (base ++ relative) = some .directory
  names : ∀ other ∈ relative ++ [name], IsFileName other
  routed : disk.route (directory.down (relative ++ [name]))
    = .ok (routeFrom disk.workDir (directory.down (relative ++ [name])))

namespace GoesOn

variable {directory : Path} {relative : Location} {name : String}
  (h : disk.GoesOn directory base relative name)

include h

theorem isFileName : IsFileName name :=
  h.names name (by simp)

theorem routeFrom_eq : routeFrom disk.workDir (directory.down (relative ++ [name]))
    = ⟨(routeFrom disk.workDir directory).start,
      (routeFrom disk.workDir directory).names ++ relative ++ [name], false⟩ := by
  rw [Path.routeFrom_down (by simp) fun other hother => (h.names other hother).toIsEntryName,
    List.append_assoc]

theorem get?_of_prefix (htree : disk.IsTree) {front : Location} (hfront : front <+: relative) :
    disk.get? (base ++ front) = some .directory := by
  by_cases heq : front = relative
  · rw [heq, h.parent]
  · exact htree.get?_of_prefix (by rw [h.parent]; rfl) ((List.prefix_append_right_inj _).mpr hfront)
      (by simpa using heq)

theorem locate (htree : disk.IsTree) {purpose : Purpose}
    (hlook : purpose = .look ∨
      ∀ target, disk.get? (base ++ relative ++ [name]) ≠ some (.link target)) :
    disk.locate purpose (directory.down (relative ++ [name]))
      = .ok ⟨base ++ relative ++ [name], disk.get? (base ++ relative ++ [name])⟩ := by
  have hmore : relative ++ [name] ≠ [] := by simp
  obtain ⟨left, hleft⟩ := walk_onward hmore h.leads purpose false
  have hdown : disk.walk purpose left base (relative ++ [name]) false
      = disk.walk purpose left (base ++ relative) [name] false :=
    walk_down (List.cons_ne_nil name [])
      (fun other hother => h.names other (List.mem_append_left _ hother))
      fun front hfront => h.get?_of_prefix htree hfront
  rw [Disk.locate, h.routed, h.routeFrom_eq, List.append_assoc]
  exact hleft.trans (hdown.trans (walk_last h.isFileName hlook))

theorem entryAt (htree : disk.IsTree) {entry : Entry}
    (hentry : disk.get? (base ++ relative ++ [name]) = some entry) :
    disk.entryAt (directory.down (relative ++ [name]))
      = .ok (base ++ relative ++ [name], entry) := by
  rw [Disk.entryAt, h.locate htree (.inl rfl), hentry]
  rfl

theorem entryAt_of_free (htree : disk.IsTree)
    (hfree : disk.get? (base ++ relative ++ [name]) = none) :
    disk.entryAt (directory.down (relative ++ [name])) = .error .notFound := by
  rw [Disk.entryAt, h.locate htree (.inl rfl), hfree]
  rfl

theorem find (htree : disk.IsTree) {entry : Entry}
    (hentry : disk.get? (base ++ relative ++ [name]) = some entry)
    (hlink : ∀ target, entry ≠ .link target) :
    disk.find (directory.down (relative ++ [name])) = .ok (base ++ relative ++ [name], entry) := by
  have hlook : ∀ target, disk.get? (base ++ relative ++ [name]) ≠ some (.link target) := by
    rw [hentry]
    exact fun target heq => hlink target (Option.some.inj heq)
  rw [Disk.find, h.locate htree (.inr hlook), hentry]
  rfl

/-- A file is written where there is nothing, or in the place of a file. -/
theorem writeBytes (htree : disk.IsTree)
    (hold : disk.get? (base ++ relative ++ [name]) = none ∨
      ∃ old, disk.get? (base ++ relative ++ [name]) = some (.file old)) (content : List UInt8) :
    disk.writeBytes (directory.down (relative ++ [name])) content
      = .ok (disk.set (base ++ relative ++ [name]) (.file content)) := by
  have hlook : ∀ target, disk.get? (base ++ relative ++ [name]) ≠ some (.link target) := by
    rcases hold with hnone | ⟨old, hold⟩
    · rw [hnone]
      exact fun _ => nofun
    · rw [hold]
      exact fun _ => nofun
  rw [Disk.writeBytes, h.locate htree (.inr hlook)]
  rcases hold with hnone | ⟨old, hold⟩
  · rw [hnone]
    rfl
  · rw [hold]
    rfl

theorem readBytes (htree : disk.IsTree) {content : List UInt8}
    (hentry : disk.get? (base ++ relative ++ [name]) = some (.file content)) :
    disk.readBytes (directory.down (relative ++ [name])) = .ok content := by
  rw [Disk.readBytes, h.find htree hentry (by simp)]
  rfl

theorem walk_parent (htree : disk.IsTree) :
    disk.walk .reach maxLinks (routeFrom disk.workDir directory).start
        ((routeFrom disk.workDir directory).names ++ relative) true
      = .ok ⟨base ++ relative, some .directory⟩ := by
  have hsame : (relative.filter fun name => name != ".") = relative :=
    List.filter_eq_self.mpr fun other hother =>
      bne_iff_ne.mpr (h.names other (List.mem_append_left _ hother)).ne_here
  have hwalk := walk_reach_concat h.leads
    (fun other (hother : other ∈ relative) => .inr (h.names other (List.mem_append_left _ hother)))
    (fun front hfront _ => h.get?_of_prefix htree (hsame ▸ hfront)) true
  rwa [hsame] at hwalk

theorem names_last (htree : disk.IsTree) :
    disk.Names (directory.down (relative ++ [name]))
      (routeFrom disk.workDir (directory.down (relative ++ [name]))) (base ++ relative) name where
  routed := h.routed
  reached := by
    rw [h.routeFrom_eq, List.dropLast_concat]
    exact h.walk_parent htree
  last := by rw [h.routeFrom_eq, List.getLast?_concat]
  ne_here := h.isFileName.ne_here
  ne_up := h.isFileName.ne_up
  short := h.isFileName.short

/-- The directory that the path is in need not be made. -/
theorem exists_parent? (htree : disk.IsTree) :
    ∃ parent, (directory.down (relative ++ [name])).parent? = some parent ∧
      disk.makeDirectories parent = (none, disk) := by
  have hnames : (directory.down (relative ++ [name])).names
      = (routeFrom disk.workDir directory).names ++ relative ++ [name] := by
    rw [← names_routeFrom disk.workDir, h.routeFrom_eq]
  obtain ⟨parent, hparent, hencloses⟩ := Path.exists_parent? hnames h.isFileName.busy
  refine ⟨parent, hparent, ?_⟩
  by_cases hempty : parent.text = ""
  · rw [makeDirectories, makeChain, if_pos (by simp [hempty])]
  obtain ⟨hzero, -, hshort⟩ := route_eq_ok_iff.mp h.routed
  obtain ⟨rest, htext⟩ := hencloses.text
  rw [htext] at hzero hshort
  have hrouted : disk.route parent = .ok (routeFrom disk.workDir parent) :=
    route_eq_ok_iff.mpr ⟨fun hmem => hzero (by simp [hmem]), hempty, by
      rw [String.utf8ByteSize_append] at hshort
      omega⟩
  obtain ⟨dots, hfront, -⟩ := hencloses.names
  have hstart : (routeFrom disk.workDir parent).start = (routeFrom disk.workDir directory).start := by
    have hdown := congrArg Route.start h.routeFrom_eq
    rw [← hdown]
    simp only [routeFrom, hencloses.isAbsolute]
  have hwalk := h.walk_parent htree
  rw [hfront] at hwalk
  obtain ⟨location, hlocation⟩ := walk_reach_front (Eq.refl true) hwalk
  have hleads : disk.Leads parent location := by
    rw [Leads, hstart]
    exact walk_reach_slash hlocation _
  exact makeDirectories_of_find (find_eq_directory_iff.mpr ⟨hrouted, hleads⟩)

/-- A link is made where there is nothing. -/
theorem makeLink (htree : disk.IsTree) (hfree : disk.get? (base ++ relative ++ [name]) = none)
    {target : Path} (htarget : target.text ≠ "") :
    disk.makeLink (directory.down (relative ++ [name])) target
      = .ok (disk.set (base ++ relative ++ [name]) (.link target)) := by
  have hplace := (h.names_last htree).placeOf
  have hslash : (routeFrom disk.workDir (directory.down (relative ++ [name]))).slash = false := by
    rw [h.routeFrom_eq]
  rw [Disk.makeLink, h.routed]
  simp [vacancy, hplace, hfree, hslash, htarget, bind, Except.bind, -List.append_assoc]

theorem keep {after : Disk} (hkeeps : disk.KeepsWays (disk.linksTo directory) after) :
    after.GoesOn directory base relative name where
  leads := (hkeeps.leads h.leads).1
  parent := hkeeps.directory _ h.parent
  names := h.names
  routed := by
    rw [route, hkeeps.workDir, ← route]
    exact h.routed

end GoesOn

end Disk

end SiteTree
