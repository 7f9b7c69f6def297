import SiteTree.Proofs.Disk.Below
import SiteTree.Proofs.Disk.Directories
import SiteTree.Proofs.Disk.Tree
import SiteTree.Proofs.Outcome

/-!
# Directories that are made

Making a directory with its parents leaves everything that was there as it was. The directory that
is there in the end is new, unless it was there before or the path leads up again, by `..`, out of a
part that had to be made first.

* `extends_makeDirectories` — nothing that was there changes.
* `IsTree.settles_of_makeDirectories` — what the path leads to in the end was there, or is new and
  empty.
-/

namespace SiteTree.Disk

variable {disk : Disk} {location : Location} {path : Path} {links : Nat} {here : Location}

/-- All that was there is there. -/
structure Extends (before after : Disk) : Prop where
  workDir : after.workDir = before.workDir
  get? : ∀ location entry, before.get? location = some entry → after.get? location = some entry

theorem Extends.refl (disk : Disk) : disk.Extends disk :=
  ⟨rfl, fun _ _ h => h⟩

theorem Extends.trans {first second third : Disk} (hfirst : first.Extends second)
    (hsecond : second.Extends third) : first.Extends third :=
  ⟨hsecond.workDir.trans hfirst.workDir,
    fun location entry h => hsecond.get? location entry (hfirst.get? location entry h)⟩

theorem extends_set {entry : Entry} (h : disk.get? location = none) :
    disk.Extends (disk.set location entry) := by
  have hroot : location ≠ [] := by
    rintro rfl
    cases h
  refine ⟨rfl, fun other found hfound => ?_⟩
  rw [get?_set hroot, if_neg]
  · exact hfound
  · rintro rfl
    rw [h] at hfound
    cases hfound

/-! ### Walks in part -/

/-- What is found on the way to something is found later on as well. -/
theorem Extends.walk {before after : Disk} (hextends : before.Extends after) {purpose : Purpose}
    {names : List String} {slash : Bool} {entry : Entry}
    (h : before.walk purpose links here names slash = .ok ⟨location, some entry⟩) :
    after.walk purpose links here names slash = .ok ⟨location, some entry⟩ := by
  fun_induction Disk.walk before purpose links here names slash
  case case1 =>
    rw [Disk.walk]
    exact h
  case case2 ih =>
    rw [Disk.walk, if_pos rfl]
    exact ih h
  case case3 hhere ih =>
    rw [Disk.walk, if_neg hhere, if_pos rfl]
    exact ih h
  case case6 => simp at h
  case case8 hhere hup hslash hlong found hentry ih =>
    rw [Disk.walk, if_neg hhere, if_neg hup, if_neg hslash, if_neg hlong]
    dsimp only
    rw [hextends.get? _ _ hentry]
    exact ih h
  case case9 hhere hup hslash hlong found content hentry hlast =>
    rw [Disk.walk, if_neg hhere, if_neg hup, if_neg hslash, if_neg hlong]
    dsimp only
    rw [hextends.get? _ _ hentry]
    exact (if_pos hlast).trans h
  case case11 hhere hup hslash hlong found target hentry hlook =>
    rw [Disk.walk, if_neg hhere, if_neg hup, if_neg hslash, if_neg hlong]
    dsimp only
    rw [hextends.get? _ _ hentry]
    exact (if_pos hlook).trans h
  case case13 hhere hup hslash hlong found target hentry hlook links route ih =>
    rw [Disk.walk, if_neg hhere, if_neg hup, if_neg hslash, if_neg hlong]
    dsimp only
    rw [hextends.get? _ _ hentry]
    exact (if_neg hlook).trans (ih h)
  all_goals cases h

theorem Extends.route {before after : Disk} (hextends : before.Extends after) (path : Path) :
    after.route path = before.route path := by
  rw [Disk.route, Disk.route, hextends.workDir]

theorem Extends.find {before after : Disk} (hextends : before.Extends after) {entry : Entry}
    (h : before.find path = .ok (location, entry)) : after.find path = .ok (location, entry) := by
  rw [find_eq_ok_iff] at h ⊢
  rw [hextends.route, hextends.workDir]
  exact h.imp_right hextends.walk

/-- What comes behind names that lead to a directory is followed from there. -/
theorem walk_reach_append {front rest : List String} {slash : Bool} {base : Location}
    (hrest : rest ≠ [])
    (h : disk.walk .reach links here front slash = .ok ⟨base, some .directory⟩) (slash' : Bool) :
    ∃ left, disk.walk .reach links here (front ++ rest) slash'
      = disk.walk .reach left base rest slash' := by
  have hmore : ∀ {names : List String}, (names ++ rest).isEmpty = false := by simp [hrest]
  fun_induction Disk.walk disk .reach links here front slash
  case case1 =>
    cases h
    exact ⟨_, rfl⟩
  case case2 ih =>
    rw [List.cons_append, walk, if_pos rfl]
    exact ih h
  case case3 hhere ih =>
    rw [List.cons_append, walk, if_neg hhere, if_pos rfl]
    exact ih h
  case case8 hhere hup _ hlong _ hentry ih =>
    rw [List.cons_append, walk_reach_directory hhere hup hlong hentry]
    exact ih h
  case case13 hhere hup _ hlong _ target hentry _ links route ih =>
    rw [List.cons_append, walk_reach_free hhere hup hlong, hentry]
    dsimp only
    rw [hmore, Bool.false_and, Bool.or_false, ← List.append_assoc]
    exact ih h
  case case6 => simp at h
  case case9 => simp at h
  case case11 hlook => exact absurd hlook.1 (by decide)
  all_goals cases h

/-- The names on the way to a directory lead to a directory. -/
theorem walk_reach_front {front rest : List String} {slash slash' : Bool} (hslash : slash' = true)
    (h : disk.walk .reach links here (front ++ rest) slash = .ok ⟨location, some .directory⟩) :
    ∃ base, disk.walk .reach links here front slash' = .ok ⟨base, some .directory⟩ := by
  fun_induction Disk.walk disk .reach links here front slash' generalizing slash
  case case1 => exact ⟨_, rfl⟩
  case case2 ih =>
    rw [List.cons_append, walk, if_pos rfl] at h
    exact ih hslash h
  case case3 hhere ih =>
    rw [List.cons_append, walk, if_neg hhere, if_pos rfl] at h
    exact ih hslash h
  case case4 hwrite => exact absurd hwrite.1 (by decide)
  case case5 hhere hup _ hlong =>
    rw [List.cons_append, walk, if_neg hhere, if_neg hup, if_neg (by simp), if_pos hlong] at h
    cases h
  case case6 hhere hup _ hlong _ hentry _ =>
    rw [List.cons_append, walk_reach_free hhere hup hlong, hentry] at h
    dsimp only at h
    split at h
    · simp at h
    · cases h
  case case7 hhere hup _ hlong _ hentry _ =>
    rw [List.cons_append, walk_reach_free hhere hup hlong, hentry] at h
    dsimp only at h
    split at h
    · simp at h
    · cases h
  case case8 hhere hup _ hlong _ hentry ih =>
    rw [List.cons_append, walk_reach_directory hhere hup hlong hentry] at h
    exact ih hslash h
  case case9 hlast => simp [hslash] at hlast
  case case10 hhere hup _ hlong _ content hentry _ =>
    rw [List.cons_append, walk_reach_free hhere hup hlong, hentry] at h
    dsimp only at h
    split at h
    · simp at h
    · cases h
  case case11 hlook => exact absurd hlook.1 (by decide)
  case case12 hhere hup _ hlong _ target hentry _ =>
    rw [List.cons_append, walk_reach_free hhere hup hlong, hentry] at h
    cases h
  case case13 hhere hup _ hlong _ target hentry _ links route ih =>
    rw [List.cons_append, walk_reach_free hhere hup hlong, hentry] at h
    dsimp only at h
    rw [← List.append_assoc] at h
    exact ih (by simp [hslash]) h

theorem walk_reach_nothing {name : String} {rest : List String} {slash : Bool}
    (hhere : name ≠ ".") (hup : name ≠ "..") (hshort : ¬ maxName < name.utf8ByteSize)
    (hfree : disk.get? (here ++ [name]) = none) :
    disk.walk .reach links here (name :: rest) slash
      = if rest.isEmpty then .ok ⟨here ++ [name], none⟩ else .error .notFound := by
  rw [walk_reach_free hhere hup hshort, hfree]

/-! ### One directory -/

theorem eq_directory_of_walk {names : List String} {entry : Entry}
    (h : disk.walk .reach links here names true = .ok ⟨location, some entry⟩) :
    entry = .directory := by
  cases entry with
  | directory => rfl
  | file content => exact absurd (slash_of_walk h) (by decide)
  | link target => exact absurd h IsTree.not_link_of_walk

/-- What is new gets a name that stands for nothing yet. -/
theorem exists_names_of_vacancy {route : Route} {vacant : Location}
    (hroute : disk.route path = .ok route) (h : disk.vacancy route = .ok vacant) :
    ∃ parent name, disk.Names path route parent name ∧ disk.get? (parent ++ [name]) = none ∧
      vacant = parent ++ [name] := by
  rw [vacancy] at h
  obtain ⟨place, hplace, hvacant⟩ := exists_of_bind_eq_ok h
  rw [placeOf] at hplace
  obtain ⟨⟨parent, _ | entry⟩, hwalk, hplace⟩ := exists_of_bind_eq_ok hplace
  · cases hplace
  obtain rfl := eq_directory_of_walk hwalk
  dsimp only at hplace
  split at hplace
  · cases hplace; cases hvacant
  · cases hplace; cases hvacant
  · cases hplace; cases hvacant
  next name hhere hup hlast =>
  split at hplace
  · cases hplace
  next hshort =>
  cases hplace
  dsimp only at hvacant
  split at hvacant
  · cases hvacant
  next hfree =>
  cases hvacant
  exact ⟨parent, name, ⟨hroute, hwalk, hlast, hhere, hup, hshort⟩, by simpa using hfree, rfl⟩

/-- A directory is made where its path gives a name that stands for nothing yet. -/
theorem names_of_makeDirectory {after : Disk} (h : disk.makeDirectory path = .ok after) :
    ∃ route parent name, disk.Names path route parent name ∧
      disk.get? (parent ++ [name]) = none ∧ after = disk.set (parent ++ [name]) .directory := by
  rw [makeDirectory] at h
  obtain ⟨route, hroute, h⟩ := exists_of_bind_eq_ok h
  obtain ⟨vacant, hvacant, h⟩ := exists_of_bind_eq_ok h
  cases h
  obtain ⟨parent, name, hnamed, hfree, rfl⟩ := exists_names_of_vacancy hroute hvacant
  exact ⟨route, parent, name, hnamed, hfree, rfl⟩

/-- A directory that is there cannot be made, and not for want of a parent. -/
theorem exists_error_of_directory (h : disk.find path = .ok (location, .directory)) :
    ∃ error, disk.makeDirectory path = .error error ∧ error ≠ .notFound := by
  obtain ⟨hroute, hwalk⟩ := find_eq_ok_iff.mp h
  generalize routeFrom disk.workDir path = route at hroute hwalk
  rw [makeDirectory, hroute]
  change ∃ error, (disk.vacancy route >>= fun place => pure (disk.set place .directory))
    = Except.error error ∧ error ≠ .notFound
  rcases List.eq_nil_or_concat' route.names with hnames | ⟨front, last, hnames⟩
  · have hplace : disk.placeOf route = .ok .root := by
      rw [placeOf, hnames, List.dropLast_nil, walk]
      rfl
    rw [vacancy, hplace]
    exact ⟨_, rfl, by decide⟩
  rw [hnames] at hwalk
  obtain ⟨base, hbase⟩ : ∃ base, disk.walk .reach maxLinks route.start front true
      = .ok ⟨base, some .directory⟩ := walk_reach_front rfl hwalk
  by_cases hhere : last = "."
  · have hplace : disk.placeOf route = .ok .here := by
      rw [placeOf, hnames, List.dropLast_concat, hbase, List.getLast?_concat, hhere]
      rfl
    rw [vacancy, hplace]
    exact ⟨_, rfl, by decide⟩
  by_cases hup : last = ".."
  · have hplace : disk.placeOf route = .ok .up := by
      rw [placeOf, hnames, List.dropLast_concat, hbase, List.getLast?_concat, hup]
      rfl
    rw [vacancy, hplace]
    exact ⟨_, rfl, by decide⟩
  by_cases hlong : maxName < last.utf8ByteSize
  · have hplace : disk.placeOf route = .error .nameTooLong := by
      rw [placeOf, hnames, List.dropLast_concat, hbase, List.getLast?_concat]
      simp [hlong, bind, Except.bind]
    rw [vacancy, hplace]
    exact ⟨_, rfl, by decide⟩
  have hnamed : disk.Names path route base last :=
    ⟨hroute, by rw [hnames, List.dropLast_concat, hbase], by rw [hnames, List.getLast?_concat],
      hhere, hup, hlong⟩
  have hthere : (disk.get? (base ++ [last])).isSome := by
    obtain ⟨left, hleft⟩ := walk_reach_append (List.cons_ne_nil last []) hbase route.slash
    rw [hleft, walk_reach_free hhere hup hlong] at hwalk
    cases hentry : disk.get? (base ++ [last]) with
    | none => rw [hentry] at hwalk; simp at hwalk
    | some entry => rfl
  rw [vacancy, hnamed.placeOf]
  refine ⟨.exists, ?_, by decide⟩
  simp [hthere, bind, Except.bind]

/-- The directory that is made is where its path leads. -/
theorem Names.find_set {route : Route} {parent : Location} {name : String}
    (h : disk.Names path route parent name) (hfree : disk.get? (parent ++ [name]) = none) :
    (disk.set (parent ++ [name]) .directory).find path = .ok (parent ++ [name], .directory) := by
  have hextends : disk.Extends (disk.set (parent ++ [name]) .directory) := extends_set hfree
  have hnames : route.names = route.names.dropLast ++ [name] := by
    obtain ⟨front, hfront⟩ := List.getLast?_eq_some_iff.mp h.last
    rw [hfront, List.dropLast_concat]
  have hentry : (disk.set (parent ++ [name]) .directory).get? (parent ++ [name])
      = some .directory := by
    rw [get?_set (by simp), if_pos rfl]
  obtain ⟨left, hleft⟩ := walk_reach_append (List.cons_ne_nil name []) (hextends.walk h.reached)
    route.slash
  have hroute : routeFrom disk.workDir path = route := (eq_routeFrom_of_route h.routed).symm
  rw [find_eq_ok_iff, hextends.route, hextends.workDir, hroute]
  refine ⟨h.routed, ?_⟩
  rw [hnames, hleft, walk_reach_directory h.ne_here h.ne_up h.short hentry, walk]

theorem Names.isEntryName {route : Route} {parent : Location} {name : String}
    (h : disk.Names path route parent name) : IsEntryName name := by
  have hmem : name ∈ path.names := by
    have hlast := List.mem_of_getLast? h.last
    rwa [eq_routeFrom_of_route h.routed] at hlast
  obtain ⟨hslash, hempty⟩ := Path.noSlash_of_mem_names hmem
  exact ⟨hslash, hempty, h.ne_here, h.ne_up⟩

theorem mem_putEntry {entry : Entry} {entries : List (Location × Entry)} {e : Location × Entry}
    (h : e ∈ putEntry location entry entries) : e = (location, entry) ∨ e ∈ entries := by
  induction entries with
  | nil => exact .inl (List.mem_singleton.mp h)
  | cons first entries ih =>
    rw [putEntry] at h
    split at h
    · exact (List.mem_cons.mp h).imp_right (List.mem_cons_of_mem _)
    · rcases List.mem_cons.mp h with rfl | h
      · exact .inr List.mem_cons_self
      · exact (ih h).imp_right (List.mem_cons_of_mem _)

/-- What is put in a directory, and not in the place of one, keeps the disk a tree. -/
theorem IsTree.set (htree : disk.IsTree) {name : String} {entry : Entry} (hname : IsEntryName name)
    (hhere : disk.get? here = some .directory)
    (hold : disk.get? (here ++ [name]) ≠ some .directory) :
    (disk.set (here ++ [name]) entry).IsTree := by
  -- Directories stay, because none is replaced.
  have hstays : ∀ location, disk.get? location = some .directory →
      (disk.set (here ++ [name]) entry).get? location = some .directory := by
    intro location hlocation
    rw [get?_set (by simp), if_neg]
    · exact hlocation
    · rintro rfl
      exact hold hlocation
  refine ⟨fun other hother part hpart => ?_, fun location last hlast => ?_⟩
  · rcases mem_putEntry hother with rfl | hother
    · rcases List.mem_append.mp hpart with hpart | hpart
      · exact htree.isEntryName_of_get? hhere part hpart
      · rwa [List.mem_singleton.mp hpart]
    · exact htree.isEntryName other hother part hpart
  · rw [get?_set (by simp)] at hlast
    split at hlast
    · next heq =>
      obtain ⟨rfl, -⟩ := List.append_inj' heq rfl
      exact hstays _ hhere
    · exact hstays _ (htree.parent location last hlast)

theorem IsTree.get?_of_reached (htree : disk.IsTree) (habs : path.isAbsolute = true)
    {route : Route} {parent : Location} {name : String} (h : disk.Names path route parent name) :
    disk.get? parent = some .directory := by
  have hstart : disk.get? route.start = some .directory := by
    rw [eq_routeFrom_of_route h.routed]
    exact IsTree.get?_start_of_isAbsolute habs _
  exact htree.get?_of_walk hstart h.reached

/-! ### Directories with their parents -/

/-- How a directory is made by itself, or else after its parents. -/
inductive MakesWith (path : Path) (parents : Disk → Option DiskError × Disk) (disk : Disk) :
    Option DiskError × Disk → Prop where
  | made {after : Disk} : disk.makeDirectory path = .ok after →
      MakesWith path parents disk (none, after)
  | orphan {error : DiskError} {middle : Disk} : disk.makeDirectory path = .error .notFound →
      parents disk = (some error, middle) → MakesWith path parents disk (some error, middle)
  | madeAfter {middle after : Disk} : disk.makeDirectory path = .error .notFound →
      parents disk = (none, middle) → middle.makeDirectory path = .ok after →
      MakesWith path parents disk (none, after)
  | settledAfter {error : DiskError} {middle : Disk} :
      disk.makeDirectory path = .error .notFound → parents disk = (none, middle) →
      middle.makeDirectory path = .error error →
      MakesWith path parents disk (if middle.isDirectory? path then none else some error, middle)
  | settled {error : DiskError} : disk.makeDirectory path = .error error → error ≠ .notFound →
      MakesWith path parents disk (if disk.isDirectory? path then none else some error, disk)

theorem makesWith (path : Path) (parents : Disk → Option DiskError × Disk) (disk : Disk) :
    MakesWith path parents disk (disk.makeDirectoryWith path parents) := by
  have hsettle : ∀ (disk : Disk) (error : DiskError),
      (if disk.isDirectory? path then (none, disk) else (some error, disk))
        = (if disk.isDirectory? path then none else some error, disk) := by
    intro disk error
    split
    · rfl
    · rfl
  rw [makeDirectoryWith]
  dsimp only
  simp only [hsettle]
  split
  · next hmake => exact .made hmake
  · next hfirst =>
    split
    · next hparents => exact .orphan hfirst hparents
    · next hparents =>
      split
      · next hmake => exact .madeAfter hfirst hparents hmake
      · next hsecond => exact .settledAfter hfirst hparents hsecond
  · next error herror hfirst => exact .settled hfirst fun heq => herror (heq ▸ rfl)

theorem extends_makeDirectory {after : Disk} (h : disk.makeDirectory path = .ok after) :
    disk.Extends after := by
  obtain ⟨_, _, _, -, hfree, rfl⟩ := names_of_makeDirectory h
  exact extends_set hfree

/-- What every directory that is made leaves true is true when all of them are made. -/
theorem makeChain_keeps {property : Disk → Prop} {paths : List Path} (h : property disk)
    (hmake : ∀ path ∈ paths, ∀ before after, property before →
      before.makeDirectory path = .ok after → property after) :
    property (makeChain paths disk).2 := by
  induction paths generalizing disk with
  | nil => exact h
  | cons path parents ih =>
    rw [makeChain]
    split
    · exact h
    have hpath := hmake path List.mem_cons_self
    have hparents := ih h fun parent hparent => hmake parent (List.mem_cons_of_mem _ hparent)
    have hmakes := makesWith path (makeChain parents) disk
    generalize disk.makeDirectoryWith path (makeChain parents) = result at hmakes ⊢
    cases hmakes with
    | made hmade => exact hpath _ _ h hmade
    | orphan _ hrun =>
      rw [hrun] at hparents
      exact hparents
    | madeAfter _ hrun hmade =>
      rw [hrun] at hparents
      exact hpath _ _ hparents hmade
    | settledAfter _ hrun =>
      rw [hrun] at hparents
      exact hparents
    | settled => exact h

theorem extends_makeChain (paths : List Path) (disk : Disk) :
    disk.Extends (makeChain paths disk).2 :=
  makeChain_keeps (Extends.refl disk) fun _ _ _ _ hbefore hmake =>
    hbefore.trans (extends_makeDirectory hmake)

/-- Nothing that was there changes when a directory is made with its parents. -/
theorem extends_makeDirectories (disk : Disk) (path : Path) :
    disk.Extends (disk.makeDirectories path).2 :=
  extends_makeChain _ disk

/-- All that is new when a directory is made with its parents are directories. -/
theorem get?_makeDirectories (disk : Disk) (path : Path) (location : Location) :
    (disk.makeDirectories path).2.get? location = disk.get? location ∨
      disk.get? location = none ∧ (disk.makeDirectories path).2.get? location = some .directory := by
  refine @makeChain_keeps disk (fun after => after.get? location = disk.get? location ∨
    disk.get? location = none ∧ after.get? location = some .directory) _ (.inl rfl) ?_
  intro _ _ before after hbefore hmake
  obtain ⟨route, parent, name, -, hfree, rfl⟩ := names_of_makeDirectory hmake
  rw [get?_set (by simp)]
  split
  · next heq =>
    rw [heq, hfree] at hbefore
    rcases hbefore with hsame | ⟨-, hdirectory⟩
    · exact .inr ⟨by rw [heq, ← hsame], rfl⟩
    · cases hdirectory
  · exact hbefore

/-- A directory is made by itself or after its parents, or it is there by then. -/
theorem exists_of_makeChain {parents : List Path} {after : Disk} (hempty : path.text.isEmpty = false)
    (h : makeChain (path :: parents) disk = (none, after)) :
    disk.makeDirectory path = .ok after ∨
    (disk.makeDirectory path = .error .notFound ∧ ∃ middle, makeChain parents disk = (none, middle) ∧
      (middle.makeDirectory path = .ok after ∨ middle.isDirectory? path = true ∧ after = middle)) ∨
    disk.isDirectory? path = true ∧ after = disk := by
  have hsettled : ∀ {middle : Disk} {error : DiskError},
      ((none : Option DiskError), after)
        = (if middle.isDirectory? path then none else some error, middle) →
      middle.isDirectory? path = true ∧ after = middle := by
    intro middle error hresult
    obtain ⟨hnone, rfl⟩ := Prod.mk.inj hresult
    refine ⟨?_, rfl⟩
    by_contra hnot
    rw [if_neg hnot] at hnone
    cases hnone
  rw [makeChain, if_neg (by simp [hempty])] at h
  have hmakes := makesWith path (makeChain parents) disk
  rw [h] at hmakes
  generalize hresult : ((none : Option DiskError), after) = result at hmakes
  cases hmakes with
  | made hmake =>
    cases hresult
    exact .inl hmake
  | orphan => cases hresult
  | madeAfter hfirst hrun hmake =>
    cases hresult
    exact .inr (.inl ⟨hfirst, _, hrun, .inl hmake⟩)
  | settledAfter hfirst hrun => exact .inr (.inl ⟨hfirst, _, hrun, .inr (hsettled hresult)⟩)
  | settled => exact .inr (.inr (hsettled hresult))

/-- What is made with its parents is a directory in the end. -/
theorem isDirectory?_of_makeChain {parents : List Path} {after : Disk}
    (hempty : path.text.isEmpty = false) (h : makeChain (path :: parents) disk = (none, after)) :
    after.isDirectory? path = true := by
  have hmade : ∀ {middle : Disk}, middle.makeDirectory path = .ok after →
      after.isDirectory? path = true := by
    intro middle hmake
    obtain ⟨route, parent, name, hnamed, hfree, rfl⟩ := names_of_makeDirectory hmake
    exact isDirectory?_eq_true_iff.mpr ⟨_, hnamed.find_set hfree⟩
  obtain hmake | ⟨-, middle, -, hmake | ⟨hdirectory, rfl⟩⟩ | ⟨hdirectory, rfl⟩ :=
    exists_of_makeChain hempty h
  · exact hmade hmake
  · exact hmade hmake
  · exact hdirectory
  · exact hdirectory

theorem isEmpty_of_isAbsolute (habs : path.isAbsolute = true) : path.text.isEmpty = false := by
  rw [Bool.eq_false_iff]
  intro hempty
  simp [Path.isAbsolute, String.isEmpty_iff.mp hempty] at habs

theorem isEmpty_of_find {entry : Entry} (h : disk.find path = .ok (location, entry)) :
    path.text.isEmpty = false := by
  rw [Bool.eq_false_iff]
  intro hempty
  have hroute := (find_eq_ok_iff.mp h).1
  rw [Disk.route, if_pos hempty] at hroute
  split at hroute
  · cases hroute
  · cases hroute

/-- A directory that is there already is fine. -/
theorem makeChain_of_find (h : disk.find path = .ok (location, .directory)) (parents : List Path) :
    makeChain (path :: parents) disk = (none, disk) := by
  obtain ⟨error, hmake, hfound⟩ := exists_error_of_directory h
  have hdirectory := isDirectory?_eq_true_iff.mpr ⟨location, h⟩
  rw [makeChain, if_neg (by simp [isEmpty_of_find h]), makeDirectoryWith, hmake]
  cases error
  case notFound => exact absurd rfl hfound
  all_goals exact if_pos hdirectory

theorem makeDirectories_of_find (h : disk.find path = .ok (location, .directory)) :
    disk.makeDirectories path = (none, disk) :=
  makeChain_of_find h path.parents

/-- Where the parent of a directory is there, nothing else is made. -/
theorem makeDirectory_of_parent {parent : Path} {error : DiskError} {after : Disk}
    (habs : path.isAbsolute = true) (hmissing : disk.find path = .error error)
    (hparent : path.parent? = some parent) (hthere : disk.isDirectory? parent = true)
    (h : disk.makeDirectories path = (none, after)) : disk.makeDirectory path = .ok after := by
  obtain ⟨base, hbase⟩ := isDirectory?_eq_true_iff.mp hthere
  obtain ⟨rest, hparents⟩ : ∃ rest, path.parents = parent :: rest := by
    obtain ⟨segment, segments, hsegments⟩ := List.exists_cons_of_ne_nil path.segments_ne_nil
    rw [Path.parents, hsegments, List.length_cons, Path.parents.go, hparent]
    exact ⟨_, rfl⟩
  have hno : disk.isDirectory? path ≠ true := by simp [isDirectory?, hmissing]
  rw [makeDirectories, hparents] at h
  obtain hmake | ⟨-, middle, hrun, hlater⟩ | ⟨hdirectory, -⟩ :=
    exists_of_makeChain (isEmpty_of_isAbsolute habs) h
  · exact hmake
  · rw [makeChain_of_find hbase rest] at hrun
    cases hrun
    exact hlater.resolve_right fun hsettled => hno hsettled.1
  · exact absurd hdirectory hno

/-- A directory that is there as soon as its parents are made is fine as well. -/
theorem makeDirectories_of_parents {middle : Disk}
    (hfirst : disk.makeDirectory path = .error .notFound)
    (hparents : makeChain path.parents disk = (none, middle))
    (h : middle.find path = .ok (location, .directory)) :
    disk.makeDirectories path = (none, middle) := by
  obtain ⟨error, hmake, -⟩ := exists_error_of_directory h
  have hdirectory := isDirectory?_eq_true_iff.mpr ⟨location, h⟩
  rw [makeDirectories, makeChain, if_neg (by simp [isEmpty_of_find h]), makeDirectoryWith, hfirst]
  dsimp only
  rw [hparents]
  dsimp only
  rw [hmake]
  exact if_pos hdirectory

/-- Behind a directory in which there is nothing of a name, a path that goes on by that name leads
to nothing. -/
theorem isDirectory?_of_nothing {parent : Path} {base : Location} {dots more : List String}
    {last : String} (habs : path.isAbsolute = true) (hparent : parent.isAbsolute = true)
    (hnames : path.names = parent.names ++ dots ++ last :: more)
    (hdots : ∀ dot ∈ dots, dot = ".") (hlast : Path.isIdle last = false) (hup : last ≠ "..")
    (hbase : disk.find parent = .ok (base, .directory))
    (hnothing : disk.get? (base ++ [last]) = none) : disk.isDirectory? path = false := by
  rw [Bool.eq_false_iff, Ne, isDirectory?_eq_true_iff]
  rintro ⟨location, hfind⟩
  obtain ⟨-, hwalk⟩ := find_eq_ok_iff.mp hbase
  obtain ⟨-, hpath⟩ := find_eq_ok_iff.mp hfind
  have hhere : last ≠ "." := by
    rintro rfl
    cases hlast
  rw [Path.routeFrom_of_isAbsolute hparent] at hwalk
  rw [Path.routeFrom_of_isAbsolute habs, hnames, List.append_assoc] at hpath
  have hrest : dots ++ last :: more ≠ [] := by simp
  obtain ⟨left, hleft⟩ := walk_reach_append hrest hwalk (names path).2
  rw [hleft, walk_dots hdots] at hpath
  by_cases hlong : maxName < last.utf8ByteSize
  · rw [walk, if_neg hhere, if_neg hup, if_neg (by simp), if_pos hlong] at hpath
    cases hpath
  · rw [walk_reach_free hhere hup hlong, hnothing] at hpath
    dsimp only at hpath
    split at hpath
    · simp at hpath
    · cases hpath

/-- A directory that is there before something is made, or is new and empty behind it. -/
structure Settles (before after : Disk) (path : Path) (location : Location) : Prop where
  found : after.find path = .ok (location, .directory)
  isTree : after.IsTree
  fresh : after = before ∨
    (before.get? location = none ∧ ∀ name, after.get? (location ++ [name]) = none)

/-- What is made once other directories were made is new, and there is nothing in it. -/
theorem IsTree.settles_of_makeDirectory {before : Disk} (htree : disk.IsTree)
    (hextends : before.Extends disk) (habs : path.isAbsolute = true) {after : Disk}
    (h : disk.makeDirectory path = .ok after) : ∃ location, Settles before after path location := by
  obtain ⟨route, parent, name, hnamed, hfree, rfl⟩ := names_of_makeDirectory h
  have hnew : before.get? (parent ++ [name]) = none := by
    by_contra hsome
    obtain ⟨entry, hentry⟩ := Option.ne_none_iff_exists'.mp hsome
    rw [hextends.get? _ _ hentry] at hfree
    cases hfree
  refine ⟨parent ++ [name], hnamed.find_set hfree,
    htree.set hnamed.isEntryName (htree.get?_of_reached habs hnamed) (by simp [hfree]), .inr ⟨hnew, ?_⟩⟩
  intro other
  rw [get?_set (by simp), if_neg (by simp)]
  by_contra hsome
  have hparent := htree.parent _ _ (Option.isSome_iff_ne_none.mpr hsome)
  rw [hfree] at hparent
  cases hparent

/-- Where a parent is wanting, there is no directory yet. -/
theorem isDirectory?_of_notFound (h : disk.makeDirectory path = .error .notFound) :
    disk.isDirectory? path = false := by
  rw [Bool.eq_false_iff, Ne, isDirectory?_eq_true_iff]
  rintro ⟨location, hfind⟩
  obtain ⟨error, herror, hne⟩ := exists_error_of_directory hfind
  rw [h] at herror
  exact hne (Except.error.inj herror).symm

/-- What a path leads to was there or is new, if that holds of its parent and if the path goes on
from there by a name. -/
theorem IsTree.settles_of_parents (htree : disk.IsTree) {parents : List Path} {after : Disk}
    (habs : path.isAbsolute = true)
    (hname : disk.isDirectory? path = false → path.fileName?.isSome = true)
    (hparents : ∀ middle, makeChain parents disk = (none, middle) →
      ∃ parent base, path.parent? = some parent ∧ Settles disk middle parent base)
    (h : makeChain (path :: parents) disk = (none, after)) :
    ∃ location, Settles disk after path location := by
  obtain hmake | ⟨hfirst, middle, hrun, hlater⟩ | ⟨hdirectory, rfl⟩ :=
    exists_of_makeChain (isEmpty_of_isAbsolute habs) h
  · exact htree.settles_of_makeDirectory (Extends.refl disk) habs hmake
  · obtain ⟨parent, base, hparent?, hparent⟩ := hparents middle hrun
    obtain hmake | ⟨hdirectory, rfl⟩ := hlater
    · have hextends := extends_makeChain parents disk
      rw [hrun] at hextends
      exact hparent.isTree.settles_of_makeDirectory hextends habs hmake
    · -- The parents are new and empty, so the path goes on by a name that leads to nothing.
      have hmissing := isDirectory?_of_notFound hfirst
      obtain rfl | ⟨-, hbelow⟩ := hparent.fresh
      · rw [hmissing] at hdirectory
        cases hdirectory
      · obtain ⟨hparentAbs, dots, last, more, hnames, hlast, hdots, hmore⟩ :=
          Path.names_of_parent? habs hparent?
        have hup := Path.ne_up_of_fileName? (hname hmissing) hnames habs hlast hmore
        rw [isDirectory?_of_nothing habs hparentAbs hnames hdots hlast hup hparent.found
          (hbelow last)] at hdirectory
        cases hdirectory
  · obtain ⟨location, hfind⟩ := isDirectory?_eq_true_iff.mp hdirectory
    exact ⟨location, hfind, htree, .inl rfl⟩

/-- What a path leads to behind its parents was there or is new, as long as all that has to be made
on the way to it are names. -/
theorem IsTree.settles_of_makeChain (htree : disk.IsTree) {parents : List Path} {after : Disk}
    (hchain : (path :: parents).IsChain fun path parent => path.parent? = some parent)
    (habs : path.isAbsolute = true)
    (hnames : ∀ other ∈ path :: parents, disk.isDirectory? other = false →
      other.fileName?.isSome = true)
    (h : makeChain (path :: parents) disk = (none, after)) :
    ∃ location, Settles disk after path location := by
  induction parents generalizing path after with
  | nil =>
    exact htree.settles_of_parents habs (hnames path List.mem_cons_self) (fun _ hrun => by cases hrun) h
  | cons parent parents ih =>
    obtain ⟨hparent, hchain⟩ := List.isChain_cons_cons.mp hchain
    have hparentAbs := (Path.names_of_parent? habs hparent).1
    refine htree.settles_of_parents habs (hnames path List.mem_cons_self) (fun middle hrun => ?_) h
    obtain ⟨base, hsettles⟩ := ih hchain hparentAbs
      (fun other hother => hnames other (List.mem_cons_of_mem _ hother)) hrun
    exact ⟨parent, base, hparent, hsettles⟩

theorem IsTree.settles_of_makeDirectories (htree : disk.IsTree) {after : Disk}
    (habs : path.isAbsolute = true)
    (hnames : ∀ other ∈ path :: path.parents, disk.isDirectory? other = false →
      other.fileName?.isSome = true)
    (h : disk.makeDirectories path = (none, after)) :
    ∃ location, Settles disk after path location :=
  htree.settles_of_makeChain path.isChain_parents habs hnames h

end SiteTree.Disk
