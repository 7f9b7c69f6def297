import SiteTree.Disk.Locate
import SiteTree.Proofs.Path
import Mathlib.Data.List.Chain
import Mathlib.Data.List.TakeWhile

/-!
# Names of paths and of their parents

What an absolute path leads through are its names. Its parents are spelled with fewer of them, and a
location is spelled with exactly its own.

* `Path.names_of_parent?` — the parent of a path lacks its last name, and dots around it.
* `Location.names_path`, `Location.components_path` — the path of a location has its names.
-/

namespace SiteTree

/-- A name that an entry of a directory can have. -/
structure IsEntryName (name : String) : Prop where
  noSlash : '/' ∉ name.toList
  ne_empty : name ≠ ""
  ne_here : name ≠ "."
  ne_up : name ≠ ".."

theorem isEntryName_iff {name : String} :
    IsEntryName name ↔ '/' ∉ name.toList ∧ name ≠ "" ∧ name ≠ "." ∧ name ≠ ".." :=
  ⟨fun h => ⟨h.noSlash, h.ne_empty, h.ne_here, h.ne_up⟩, fun ⟨hslash, hempty, hhere, hup⟩ =>
    ⟨hslash, hempty, hhere, hup⟩⟩

instance (name : String) : Decidable (IsEntryName name) :=
  decidable_of_iff' _ isEntryName_iff

theorem IsEntryName.busy {name : String} (h : IsEntryName name) : Path.isIdle name = false := by
  simp [Path.isIdle, h.ne_empty, h.ne_here]

namespace Path

/-! ### Segments -/

theorem notMem_of_mem_stretches {text stretch : List Char} (h : stretch ∈ stretches text) :
    '/' ∉ stretch := by
  induction text generalizing stretch with
  | nil =>
    obtain rfl : stretch = [] := by simpa [stretches, splitSlashes] using h
    exact List.not_mem_nil
  | cons c text ih =>
    rw [stretches_cons] at h
    split at h
    · rcases List.mem_cons.mp h with rfl | h
      · exact List.not_mem_nil
      · exact ih h
    · next hc =>
      rcases List.mem_cons.mp h with rfl | h
      · have hfirst : '/' ∉ (splitSlashes text).1 := ih List.mem_cons_self
        simp [hfirst, Ne.symm hc]
      · exact ih (List.mem_cons_of_mem _ h)

theorem notMem_of_mem_segments {path : Path} {segment : String} (h : segment ∈ path.segments) :
    '/' ∉ segment.toList := by
  rw [segments_eq] at h
  obtain ⟨stretch, hstretch, rfl⟩ := List.mem_map.mp h
  rw [String.toList_ofList]
  exact notMem_of_mem_stretches hstretch

/-- Segments that are put together can be told apart again. -/
theorem stretches_intercalate {segments : List String} (hslash : ∀ s ∈ segments, '/' ∉ s.toList)
    (hsome : segments ≠ []) :
    stretches ("/".intercalate segments).toList = segments.map String.toList := by
  induction segments with
  | nil => exact absurd rfl hsome
  | cons segment segments ih =>
    have hfirst : stretches segment.toList = [segment.toList] := by
      rw [stretches, splitSlashes_of_notMem (hslash segment List.mem_cons_self)]
    cases segments with
    | nil => rw [String.intercalate_singleton, hfirst]; rfl
    | cons next segments =>
      have hothers := ih (fun s hs => hslash s (List.mem_cons_of_mem _ hs)) (by simp)
      rw [String.intercalate_cons_cons, String.toList_append, String.toList_append,
        List.append_assoc]
      refine (stretches_append segment.toList _).trans ?_
      rw [hfirst, List.map_cons, ← hothers]
      rfl

theorem isAbsolute_ofSegments_true (segments : List String) :
    (ofSegments true segments).isAbsolute = true := by
  simp [isAbsolute, ofSegments]

/-- An absolute path has the segments that it was made of, and an empty one if there are none. -/
theorem segments_ofSegments_true {segments : List String}
    (hslash : ∀ s ∈ segments, '/' ∉ s.toList) :
    (ofSegments true segments).segments = if segments = [] then [""] else segments := by
  rw [segments_eq, isAbsolute_ofSegments_true]
  have htext : (ofSegments true segments).text.toList.tail
      = ("/".intercalate segments).toList := by simp [ofSegments]
  rw [if_pos rfl, htext]
  split
  · next hnone => rw [hnone]; rfl
  · next hsome =>
    rw [stretches_intercalate hslash hsome, List.map_map]
    exact (List.map_congr_left fun s _ => String.ofList_toList).trans (List.map_id segments)

/-- A path that does not begin with an empty segment has the segments that it was made of. -/
theorem segments_ofSegments_false {segments : List String} (hslash : ∀ s ∈ segments, '/' ∉ s.toList)
    (hfirst : segments.head? ≠ some "") :
    (ofSegments false segments).isAbsolute = false ∧
      (ofSegments false segments).segments = if segments = [] then [""] else segments := by
  cases segments with
  | nil => exact ⟨rfl, rfl⟩
  | cons first rest =>
    have htext : (ofSegments false (first :: rest)).text.toList
        = ("/".intercalate (first :: rest)).toList := by simp [ofSegments]
    have hstretches := stretches_intercalate hslash (by simp)
    have habs : (ofSegments false (first :: rest)).isAbsolute = false := by
      rw [isAbsolute, htext]
      cases hlist : ("/".intercalate (first :: rest)).toList with
      | nil => rfl
      | cons c text =>
        -- Behind a slash in front, the first segment would be empty.
        rw [hlist, stretches_cons, List.map_cons] at hstretches
        by_cases hc : c = '/'
        · rw [if_pos hc] at hstretches
          have hempty := (List.cons.inj hstretches).1
          exact absurd (congrArg some (String.toList_eq_nil_iff.mp hempty.symm)) hfirst
        · simpa using hc
    refine ⟨habs, ?_⟩
    rw [segments_eq, habs, if_neg Bool.false_ne_true, htext, hstretches, List.map_map,
      if_neg (by simp)]
    exact (List.map_congr_left fun s _ => String.ofList_toList).trans (List.map_id _)

/-! ### Names -/

/-- The names that a path leads through, those of dots among them. -/
def names (path : Path) : List String :=
  path.segments.filter fun s => s != ""

theorem routeFrom_of_isAbsolute {path : Path} (h : path.isAbsolute = true) (here : Location) :
    Disk.routeFrom here path = ⟨[], path.names, (Disk.names path).2⟩ := by
  rw [Disk.routeFrom, h]
  rfl

theorem noSlash_of_mem_names {path : Path} {name : String} (h : name ∈ path.names) :
    '/' ∉ name.toList ∧ name ≠ "" := by
  obtain ⟨hsegment, hname⟩ := List.mem_filter.mp h
  exact ⟨notMem_of_mem_segments hsegment, bne_iff_ne.mp hname⟩

theorem names_ofSegments_true {segments : List String}
    (hslash : ∀ s ∈ segments, '/' ∉ s.toList) :
    (ofSegments true segments).names = segments.filter fun s => s != "" := by
  rw [names, segments_ofSegments_true hslash]
  split
  · next hnone => rw [hnone]; rfl
  · rfl

/-- A relative path of names that entries can have leads through them. -/
theorem names_ofSegments_false {segments : List String} (h : ∀ s ∈ segments, IsEntryName s) :
    (ofSegments false segments).isAbsolute = false ∧
      (ofSegments false segments).names = segments := by
  have hfirst : segments.head? ≠ some "" := fun hhead =>
    (h "" (List.mem_of_head? hhead)).ne_empty rfl
  obtain ⟨habs, hsegments⟩ := segments_ofSegments_false (fun s hs => (h s hs).noSlash) hfirst
  refine ⟨habs, ?_⟩
  rw [names, hsegments]
  split
  · next hnone => rw [hnone]; rfl
  · exact List.filter_eq_self.mpr fun s hs => bne_iff_ne.mpr (h s hs).ne_empty

theorem names_of_isEntryName {name : String} (h : IsEntryName name) :
    (Path.mk name).isAbsolute = false ∧ (Path.mk name).names = [name] := by
  have hsame : ofSegments false [name] = ⟨name⟩ := by
    rw [ofSegments, String.intercalate_singleton]
    exact congrArg Path.mk String.empty_append
  rw [← hsame]
  refine names_ofSegments_false fun other hother => ?_
  rw [List.mem_singleton.mp hother]
  exact h

theorem IsName.notMem_names {path : Path} {name : String} (h : IsName path name) :
    ".." ∉ path.names := by
  obtain ⟨idle, hsegments, hidle⟩ := h.idle
  intro hup
  have hsegment := (List.mem_filter.mp hup).1
  rw [hsegments] at hsegment
  rcases List.mem_cons.mp hsegment with hup | hup
  · exact h.ne_up hup.symm
  · exact absurd (hidle _ hup) (by decide)

/-- The last name of a path that ends in one can be given to an entry. -/
theorem isEntryName_of_fileName? {path : Path} {name : String} (h : path.fileName? = some name) :
    IsEntryName name := by
  have hmem : Component.name name ∈ path.components := by
    rw [fileName?] at h
    split at h
    · next last hlast =>
      cases h
      exact List.mem_of_getLast? hlast
    · cases h
  have hnamed : Component.name name
      ∈ (path.segments.filter fun s => !isIdle s).map Component.ofSegment := by
    rw [components] at hmem
    split at hmem
    · simpa using hmem
    · split at hmem
      · simpa using hmem
      · exact hmem
  obtain ⟨segment, hsegment, heq⟩ := List.mem_map.mp hnamed
  obtain ⟨hsegment, hbusy⟩ := List.mem_filter.mp hsegment
  rw [Component.ofSegment] at heq
  split at heq
  · cases heq
  next hup =>
  cases heq
  simp only [isIdle, Bool.not_or, Bool.and_eq_true, Bool.not_eq_true', beq_eq_false_iff_ne] at hbusy
  exact ⟨notMem_of_mem_segments hsegment, hbusy.1, hbusy.2, hup⟩

/-! #### Longer last segments -/

theorem exists_stretches_append {more : List Char} (hmore : '/' ∉ more) (text : List Char) :
    ∃ front last, stretches text = front ++ [last] ∧ stretches (text ++ more) = front ++ [last ++ more] := by
  induction text with
  | nil => exact ⟨[], [], rfl, by rw [List.nil_append, stretches, splitSlashes_of_notMem hmore]; rfl⟩
  | cons c text ih =>
    obtain ⟨front, last, hfront, hlonger⟩ := ih
    rw [List.cons_append, stretches_cons, stretches_cons]
    split
    · exact ⟨[] :: front, last, by rw [hfront]; rfl, by rw [hlonger]; rfl⟩
    · cases front with
      | nil =>
        obtain ⟨hfirst, hrest⟩ := List.cons.inj hfront
        obtain ⟨hfirst', hrest'⟩ := List.cons.inj hlonger
        exact ⟨[], c :: last, by rw [hfirst, hrest]; rfl, by rw [hfirst', hrest']; rfl⟩
      | cons first front =>
        obtain ⟨hfirst, hrest⟩ := List.cons.inj hfront
        obtain ⟨hfirst', hrest'⟩ := List.cons.inj hlonger
        exact ⟨(c :: first) :: front, last, by rw [hfirst, hrest]; rfl, by rw [hfirst', hrest']; rfl⟩

/-- The path leads down only, wherever it is read. -/
structure IsInward (path : Path) : Prop where
  isAbsolute : path.isAbsolute = false
  noUp : ".." ∉ path.names

theorem isInward_iff {path : Path} :
    IsInward path ↔ path.isAbsolute = false ∧ ".." ∉ path.names :=
  ⟨fun h => ⟨h.isAbsolute, h.noUp⟩, fun ⟨habs, hup⟩ => ⟨habs, hup⟩⟩

instance (path : Path) : Decidable (IsInward path) :=
  decidable_of_iff' _ isInward_iff

/-- A longer last segment does not lead up, and does not make the path absolute. -/
theorem IsInward.append {path : Path} {more : String} (h : IsInward path)
    (hmore : '/' ∉ more.toList) (hlong : 2 < more.toList.length) :
    IsInward ⟨path.text ++ more⟩ := by
  have habs : (Path.mk (path.text ++ more)).isAbsolute = false := by
    have hpath := h.isAbsolute
    rw [Path.isAbsolute] at hpath ⊢
    rw [String.toList_append]
    cases htext : path.text.toList with
    | nil =>
      cases hlist : more.toList with
      | nil => rfl
      | cons c rest =>
        rw [hlist, List.mem_cons, not_or] at hmore
        simpa using Ne.symm hmore.1
    | cons c rest => simpa [htext] using hpath
  refine ⟨habs, fun hmem => ?_⟩
  obtain ⟨front, last, hfront, hlonger⟩ := exists_stretches_append hmore path.text.toList
  have hsegments : path.segments = front.map String.ofList ++ [String.ofList last] := by
    rw [segments_eq, h.isAbsolute, if_neg Bool.false_ne_true, hfront, List.map_append]
    rfl
  rw [names, segments_eq, habs, if_neg Bool.false_ne_true, String.toList_append, hlonger,
    List.map_append] at hmem
  rcases List.mem_append.mp (List.mem_filter.mp hmem).1 with hup | hup
  · refine h.noUp (List.mem_filter.mpr ⟨?_, by decide⟩)
    rw [hsegments]
    exact List.mem_append_left _ hup
  · have hlength := congrArg String.length (List.mem_singleton.mp hup)
    rw [String.length_toList] at hlong
    have hup : "..".length = 2 := by decide
    simp [hup] at hlength
    omega

theorem isAbsolute_join {base path : Path} (h : base.isAbsolute = true) :
    (base.join path).isAbsolute = true := by
  by_cases hpath : path.isAbsolute = true
  · rwa [join, if_pos hpath]
  · rw [Bool.not_eq_true] at hpath
    have hbase : base.text ≠ "" := by
      intro hempty
      simp [isAbsolute, hempty] at h
    exact (joined_join hpath hbase).isAbsolute.trans h

theorem names_join {base path : Path} (h : base.isAbsolute = true)
    (hpath : path.isAbsolute = false) : (base.join path).names = base.names ++ path.names := by
  have hbase : base.text ≠ "" := by
    intro hempty
    simp [isAbsolute, hempty] at h
  obtain ⟨-, front, hfront, hends, -⟩ := joined_join hpath hbase
  have hnames : base.names = front.filter fun s => s != "" := by
    rcases hends with hends | hends <;> simp [names, hends]
  rw [names, hfront, List.filter_append, hnames]
  rfl

/-! ### Parents -/

theorem dropIdle_true (segments : List String) :
    dropIdle true segments = segments.dropWhile isIdle := by
  fun_induction dropIdle true segments with
  | case1 => rfl
  | case2 first hidle =>
    have : isIdle first = true := by simpa [isIdle] using hidle
    simp [this]
  | case3 first hbusy =>
    have : isIdle first = false := by simpa [isIdle] using hbusy
    simp [this]
  | case4 segment rest _ hidle ih => simp [hidle, ih]
  | case5 segment rest _ hbusy => simp [hbusy]

/-- What is left of a list without some of its end, up to an item that stays. -/
theorem exists_reverse_dropWhile (drop : String → Bool) (segments : List String) :
    ∃ dropped, segments = (segments.reverse.dropWhile drop).reverse ++ dropped
      ∧ ∀ s ∈ dropped, drop s = true := by
  refine ⟨(segments.reverse.takeWhile drop).reverse, ?_, ?_⟩
  · rw [← List.reverse_append, List.takeWhile_append_dropWhile, List.reverse_reverse]
  · intro s hs
    exact List.mem_takeWhile_imp (List.mem_reverse.mp hs)

/-- An absolute path is that of its parent with one segment more, and idle ones around it. -/
theorem segments_of_parent? {path parent : Path} (habs : path.isAbsolute = true)
    (h : path.parent? = some parent) :
    ∃ kept idle last more, path.segments = kept ++ idle ++ last :: more ∧
      parent = ofSegments true kept ∧ isIdle last = false ∧
      (∀ s ∈ idle, isIdle s = true) ∧ ∀ s ∈ more, isIdle s = true := by
  rw [parent?, habs, dropIdle_true] at h
  obtain ⟨more, hsegments, hmore⟩ := exists_reverse_dropWhile isIdle path.segments
  cases hrest : path.segments.reverse.dropWhile isIdle with
  | nil => rw [hrest] at h; cases h
  | cons last rest =>
    have hlast : isIdle last = false := by
      have := List.head?_dropWhile_not isIdle path.segments.reverse
      simpa [hrest] using this
    rw [hrest] at h hsegments
    obtain ⟨idle, hkept, hidle⟩ := exists_reverse_dropWhile isIdle rest.reverse
    rw [List.reverse_reverse] at hkept
    refine ⟨(rest.dropWhile isIdle).reverse, idle, last, more, ?_, ?_, hlast, hidle, hmore⟩
    · rw [hsegments, List.reverse_cons, hkept]
      simp
    · have hparent := Option.some.inj h
      rw [dropIdle_true] at hparent
      exact hparent.symm

/-- The parent of an absolute path lacks its last name, and dots before and behind it. -/
theorem names_of_parent? {path parent : Path} (habs : path.isAbsolute = true)
    (h : path.parent? = some parent) :
    parent.isAbsolute = true ∧ ∃ dots last more,
      path.names = parent.names ++ dots ++ last :: more ∧ isIdle last = false ∧
      (∀ s ∈ dots, s = ".") ∧ ∀ s ∈ more, s = "." := by
  obtain ⟨kept, idle, last, more, hsegments, rfl, hlast, hidle, hmore⟩ :=
    segments_of_parent? habs h
  have hdots : ∀ {idle : List String}, (∀ s ∈ idle, isIdle s = true) →
      ∀ s ∈ idle.filter (fun s => s != ""), s = "." := by
    intro idle hidle s hs
    obtain ⟨hmem, hne⟩ := List.mem_filter.mp hs
    simpa [isIdle, bne_iff_ne.mp hne] using hidle s hmem
  have hkept : ∀ s ∈ kept, '/' ∉ s.toList := by
    intro s hs
    have hmem : s ∈ path.segments := by simp [hsegments, hs]
    exact notMem_of_mem_segments hmem
  have hsome : last ≠ "" := by
    rintro rfl
    cases hlast
  refine ⟨isAbsolute_ofSegments_true kept, idle.filter fun s => s != "", last,
    more.filter fun s => s != "", ?_, hlast, hdots hidle, hdots hmore⟩
  rw [names_ofSegments_true hkept, names, hsegments]
  simp [hsome]

/-- A path that ends in a name does not end in `..`. -/
theorem ne_up_of_fileName? {path : Path} {names more : List String} {last : String}
    (h : path.fileName?.isSome = true) (hnames : path.names = names ++ last :: more)
    (habs : path.isAbsolute = true) (hlast : isIdle last = false) (hmore : ∀ s ∈ more, s = ".") :
    last ≠ ".." := by
  rintro rfl
  have hbusy : (path.segments.filter fun s => !isIdle s)
      = (names.filter fun s => !isIdle s) ++ [".."] := by
    have hidle : (more.filter fun s => !isIdle s) = [] :=
      List.filter_eq_nil_iff.mpr fun s hs => by simp [hmore s hs, isIdle]
    have hsame : (path.segments.filter fun s => !isIdle s)
        = path.names.filter fun s => !isIdle s := by
      rw [Path.names, List.filter_filter]
      refine List.filter_congr fun s _ => ?_
      by_cases hs : s = "" <;> simp [isIdle, hs]
    rw [hsame, hnames, List.filter_append, List.filter_cons_of_pos (by simp [hlast]), hidle]
  have hlast' : path.components.getLast? = some .up := by
    rw [components, habs, if_pos rfl, hbusy, List.map_append, ← List.cons_append]
    exact List.getLast?_concat
  rw [fileName?, hlast'] at h
  cases h

/-- Each of the parents is the parent of the path before it. -/
theorem isChain_parents (path : Path) :
    (path :: path.parents).IsChain fun path parent => path.parent? = some parent := by
  rw [parents]
  generalize path.segments.length = fuel
  induction fuel generalizing path with
  | zero => exact List.isChain_singleton path
  | succ fuel ih =>
    rw [parents.go]
    cases hparent : path.parent? with
    | none => exact List.isChain_singleton path
    | some parent => exact List.isChain_cons_cons.mpr ⟨hparent, ih parent⟩

/-- Absolute paths have absolute parents, whose names are the first ones of the path. -/
theorem names_prefix_of_mem_parents {path parent : Path} (habs : path.isAbsolute = true)
    (h : parent ∈ path.parents) : parent.isAbsolute = true ∧ parent.names <+: path.names := by
  rw [parents] at h
  generalize path.segments.length = fuel at h
  induction fuel generalizing path with
  | zero => cases h
  | succ fuel ih =>
    rw [parents.go] at h
    cases hparent : path.parent? with
    | none => rw [hparent] at h; cases h
    | some next =>
      rw [hparent] at h
      obtain ⟨hnext, dots, last, more, hnames, -⟩ := names_of_parent? habs hparent
      have hwithin : next.names <+: path.names :=
        ⟨dots ++ last :: more, by rw [hnames, List.append_assoc]⟩
      rcases List.mem_cons.mp h with rfl | h
      · exact ⟨hnext, hwithin⟩
      · exact (ih hnext h).imp_right fun hfirst => hfirst.trans hwithin

end Path

/-! ### Paths of locations -/

namespace Location

variable {location : Location}

theorem isAbsolute_path (location : Location) : location.path.isAbsolute = true :=
  Path.isAbsolute_ofSegments_true location

theorem names_path (h : ∀ name ∈ location, IsEntryName name) : location.path.names = location := by
  rw [path, Path.names_ofSegments_true fun name hname => (h name hname).noSlash]
  exact List.filter_eq_self.mpr fun name hname => bne_iff_ne.mpr (h name hname).ne_empty

theorem slash_path {name : String} (h : ∀ other ∈ location ++ [name], IsEntryName other) :
    (Disk.names (Location.path (location ++ [name]))).2 = false := by
  have hsegments : (Location.path (location ++ [name])).segments = location ++ [name] := by
    rw [path, Path.segments_ofSegments_true fun other hother => (h other hother).noSlash,
      if_neg (by simp)]
  have hname : name ≠ "" := (h name (by simp)).ne_empty
  simp [Disk.names, hsegments, hname]

theorem components_path (h : ∀ name ∈ location, IsEntryName name) :
    location.path.components = .root :: location.map .name := by
  have hbusy : (location.path.segments.filter fun s => !Path.isIdle s) = location := by
    rw [path, Path.segments_ofSegments_true fun name hname => (h name hname).noSlash]
    split
    · next hnone => rw [hnone]; rfl
    · exact List.filter_eq_self.mpr fun name hname => by simp [(h name hname).busy]
  rw [Path.components, isAbsolute_path, hbusy, if_pos rfl]
  congr 1
  exact List.map_congr_left fun name hname => if_neg (h name hname).ne_up

/-- The path of a location begins with that of another one exactly when the location does. -/
theorem startsWith_path {other : Location} (h : ∀ name ∈ location, IsEntryName name)
    (hother : ∀ name ∈ other, IsEntryName name) :
    location.path.startsWith other.path = true ↔ other <+: location := by
  have hinjective : Function.Injective Path.Component.name := fun _ _ h => Path.Component.name.inj h
  rw [Path.startsWith, components_path h, components_path hother, List.isPrefixOf_iff_prefix,
    List.cons_prefix_cons, and_iff_right rfl]
  exact List.prefix_map_iff_of_injective hinjective

theorem parent?_path {name : String} (h : ∀ other ∈ location ++ [name], IsEntryName other) :
    Path.parent? (Location.path (location ++ [name])) = some location.path := by
  have hsegments : (Location.path (location ++ [name])).segments = location ++ [name] := by
    rw [path, Path.segments_ofSegments_true fun other hother => (h other hother).noSlash,
      if_neg (by simp)]
  have hkept : location.reverse.dropWhile Path.isIdle = location.reverse := by
    cases hreverse : location.reverse with
    | nil => rfl
    | cons last rest =>
      have hmem : last ∈ location := List.mem_reverse.mp (hreverse ▸ List.mem_cons_self)
      simp [(h last (List.mem_append_left _ hmem)).busy]
  have hname : Path.isIdle name = false := (h name (by simp)).busy
  rw [Path.parent?, isAbsolute_path, hsegments, Path.dropIdle_true, List.reverse_append]
  simp [hname, hkept, Path.dropIdle_true, path]

theorem parent?_path_nil : Path.parent? (Location.path []) = none := by
  decide

end Location

end SiteTree
