import SiteTree.Proofs.Files.Copying

/-!
# What outlasts copies

Whatever is copied, and behind whichever links it goes, the disk stays a tree and no directory goes
away: only files and links are replaced. So a path goes on leading where it led, as long as the file at
its end and the links on its way are there.

* `Disk.KeepsTree` — the tree and the directories of a disk, kept by single changes.
* `Files.keeps_tree_copyContents` — and by whole copies.
-/

namespace SiteTree

/-! ### Single changes -/

namespace Disk

variable {disk after later : Disk} {here location : Location} {name : String} {entry : Entry}
  {path : Path}

/-- The name of what is missing comes from a path. -/
theorem isEntryName_of_walk {purpose : Purpose} {links : Nat} {names : List String} {slash : Bool}
    (hnames : ∀ name ∈ names, '/' ∉ name.toList ∧ name ≠ "")
    (h : disk.walk purpose links here names slash = .ok ⟨location, none⟩) :
    ∃ parent name, location = parent ++ [name] ∧ IsEntryName name := by
  fun_induction Disk.walk disk purpose links here names slash
  case case2 ih => exact ih (fun name hname => hnames name (List.mem_cons_of_mem _ hname)) h
  case case3 ih => exact ih (fun name hname => hnames name (List.mem_cons_of_mem _ hname)) h
  case case6 name rest hhere hup _ _ found hentry hlast =>
    obtain rfl : found = location := by simpa using h
    obtain ⟨hslash, hempty⟩ := hnames name List.mem_cons_self
    exact ⟨_, name, rfl, hslash, hempty, hhere, hup⟩
  case case8 ih => exact ih (fun name hname => hnames name (List.mem_cons_of_mem _ hname)) h
  case case13 ih =>
    refine ih (fun name hname => ?_) h
    rcases List.mem_append.mp hname with hname | hname
    · exact Path.noSlash_of_mem_names hname
    · exact hnames name (List.mem_cons_of_mem _ hname)
  all_goals simp at h

/-- What a path leads to, if it is no directory, has a name in a directory. -/
theorem IsTree.exists_parent_of_locate (htree : disk.IsTree)
    (hwork : disk.get? disk.workDir = some .directory) {purpose : Purpose} {found : Option Entry}
    (h : disk.locate purpose path = .ok ⟨location, found⟩) (hfound : found ≠ some .directory) :
    ∃ parent name, location = parent ++ [name] ∧ IsEntryName name ∧
      disk.get? parent = some .directory ∧ disk.get? (parent ++ [name]) = found := by
  rw [locate] at h
  obtain ⟨route, hroute, hwalk⟩ := exists_of_bind_eq_ok h
  obtain rfl := eq_routeFrom_of_route hroute
  have hstart := get?_routeFrom_start hwork path
  obtain ⟨parent, name, rfl, hparent⟩ := htree.parent_of_walk hstart hwalk hfound
  have hget := htree.get?_of_walk hstart hwalk
  refine ⟨parent, name, rfl, ?_, hparent, hget⟩
  cases found with
  | some entry => exact htree.isEntryName_of_get? hget name (by simp)
  | none =>
    obtain ⟨front, last, heq, hlast⟩ :=
      isEntryName_of_walk (fun name hname => Path.noSlash_of_mem_names hname) hwalk
    obtain ⟨-, rfl⟩ := List.append_singleton_inj.mp heq
    exact hlast

/-- A tree with all directories that a disk has. -/
structure KeepsTree (disk after : Disk) : Prop where
  isTree : after.IsTree
  ways : disk.KeepsWays [] after
  workDir : disk.get? disk.workDir = some .directory

theorem IsTree.keepsTree (htree : disk.IsTree) (hwork : disk.get? disk.workDir = some .directory) :
    disk.KeepsTree disk :=
  ⟨htree, KeepsWays.refl disk [], hwork⟩

namespace KeepsTree

variable (h : disk.KeepsTree after)

include h

theorem get?_workDir : after.get? after.workDir = some .directory := by
  rw [h.ways.workDir]
  exact h.ways.directory _ h.workDir

theorem set (hname : IsEntryName name) (hhere : after.get? here = some .directory)
    (hold : after.get? (here ++ [name]) ≠ some .directory) :
    disk.KeepsTree (after.set (here ++ [name]) entry) :=
  ⟨h.isTree.set hname hhere hold,
    h.ways.trans ((KeepsWays.refl after []).set (by simp) hold List.not_mem_nil entry), h.workDir⟩

theorem eraseTree (hroot : location ≠ []) (hold : after.get? location ≠ some .directory) :
    disk.KeepsTree (after.eraseTree location) :=
  ⟨h.isTree.eraseTree location,
    h.ways.trans (KeepsWays.eraseTree h.isTree hroot hold List.not_mem_nil), h.workDir⟩

theorem get?_parent {route : Route} {parent : Location} (hnamed : after.Names path route parent name) :
    after.get? parent = some .directory := by
  obtain rfl := eq_routeFrom_of_route hnamed.routed
  exact h.isTree.get?_of_walk (IsTree.get?_routeFrom_start h.get?_workDir path) hnamed.reached

theorem makeDirectory (hmake : after.makeDirectory path = .ok later) : disk.KeepsTree later := by
  obtain ⟨route, parent, name, hnamed, hfree, rfl⟩ := names_of_makeDirectory hmake
  exact h.set hnamed.isEntryName (h.get?_parent hnamed) (by simp [hfree])

theorem makeDirectories (path : Path) : disk.KeepsTree (after.makeDirectories path).2 :=
  makeChain_keeps h fun _ _ _ _ hbefore hmake => hbefore.makeDirectory hmake

theorem writeBytes {content : List UInt8} (hwrite : after.writeBytes path content = .ok later) :
    disk.KeepsTree later := by
  rw [Disk.writeBytes] at hwrite
  obtain ⟨⟨location, found⟩, hspot, hwrite⟩ := exists_of_bind_eq_ok hwrite
  have hfound : found ≠ some .directory := by
    rintro rfl
    cases hwrite
  obtain ⟨parent, name, rfl, hname, hparent, hget⟩ :=
    h.isTree.exists_parent_of_locate h.get?_workDir hspot hfound
  have hlater : later = after.set (parent ++ [name]) (.file content) := by
    rcases found with _ | _ | old | target
    · exact (Except.ok.inj hwrite).symm
    · exact absurd rfl hfound
    · exact (Except.ok.inj hwrite).symm
    · exact (Except.ok.inj hwrite).symm
  rw [hlater]
  exact h.set hname hparent (hget ▸ hfound)

theorem copyFile {source : Path} (hcopy : after.copyFile source path = .ok later) :
    disk.KeepsTree later := by
  rw [Disk.copyFile] at hcopy
  obtain ⟨⟨location, _ | content | target⟩, -, hcopy⟩ := exists_of_bind_eq_ok hcopy
  · cases hcopy
  · obtain ⟨emptied, hempty, hcopy⟩ := exists_of_bind_eq_ok hcopy
    obtain ⟨content, -, hwrite⟩ := exists_of_bind_eq_ok hcopy
    exact (h.writeBytes hempty).writeBytes hwrite
  · cases hcopy

theorem removeFile (hremove : after.removeFile path = .ok later) : disk.KeepsTree later := by
  rw [Disk.removeFile, Disk.entryAt] at hremove
  obtain ⟨⟨found, entry⟩, hthere, hremove⟩ := exists_of_bind_eq_ok hremove
  obtain ⟨⟨location, _ | entry⟩, hspot, hthere⟩ := exists_of_bind_eq_ok hthere
  · cases hthere
  cases hthere
  have hentry : some entry ≠ some .directory := by
    intro heq
    cases heq
    cases hremove
  obtain ⟨parent, name, rfl, -, -, hget⟩ :=
    h.isTree.exists_parent_of_locate h.get?_workDir hspot hentry
  have hlater : later = after.eraseTree (parent ++ [name]) := by
    cases entry with
    | directory => exact absurd rfl hentry
    | file content => exact (Except.ok.inj hremove).symm
    | link target => exact (Except.ok.inj hremove).symm
  rw [hlater]
  exact h.eraseTree (by simp) (hget ▸ hentry)

theorem makeLink {target : Path} (hmake : after.makeLink path target = .ok later) :
    disk.KeepsTree later := by
  rw [Disk.makeLink] at hmake
  obtain ⟨route, hroute, hmake⟩ := exists_of_bind_eq_ok hmake
  obtain ⟨vacant, hvacant, hmake⟩ := exists_of_bind_eq_ok hmake
  obtain ⟨parent, name, hnamed, hfree, rfl⟩ := exists_names_of_vacancy hroute hvacant
  split at hmake
  · cases hmake
  cases hmake
  exact h.set hnamed.isEntryName (h.get?_parent hnamed) (by simp [hfree])

end KeepsTree

end Disk

/-! ### Copies -/

namespace Files

open Job (Keeps keeps_change keeps_changeAnyway keeps_disk_bind keeps_forIn keeps_ofExcept keeps_pure
  keeps_throw)

variable {disk : Disk}

theorem keeps_tree_makeDirectory (path : Path) : Keeps disk.KeepsTree (makeDirectory path) :=
  keeps_changeAnyway _ fun _ h => h.makeDirectories path

theorem keeps_tree_copyFile (source target : Path) : Keeps disk.KeepsTree (copyFile source target) := by
  have hcopy : Keeps disk.KeepsTree
      (Job.change (fun disk => disk.copyFile source target) fun error =>
        (Failure.plain error.message).within
          ("could not copy " ++ ticked source.text ++ " to " ++ ticked target.text)) :=
    keeps_change _ fun _ _ h hcopy => h.copyFile hcopy
  rw [copyFile]
  cases target.parent? with
  | none => exact (keeps_pure ()).andThen fun _ => hcopy
  | some parent => exact (keeps_tree_makeDirectory parent).andThen fun _ => hcopy

theorem keeps_tree_copyLink (source target : Path) : Keeps disk.KeepsTree (copyLink source target) := by
  have hmake : ∀ pointee, Keeps disk.KeepsTree (Job.change (fun disk => disk.makeLink target pointee)
      fun error => (Failure.plain error.message).within ("could not link " ++ ticked target.text)) :=
    fun _ => keeps_change _ fun _ _ h hmake => h.makeLink hmake
  rw [copyLink]
  refine keeps_disk_bind fun now _ => ?_
  cases now.readLink source with
  | error error => exact (keeps_throw _).bind fun _ _ _ _ hrun => by cases hrun
  | ok pointee =>
    refine (keeps_pure pointee).andThen fun pointee => keeps_disk_bind fun later _ => ?_
    split
    · refine Keeps.andThen ?_ fun _ => hmake pointee
      exact keeps_change _ fun _ _ h hremove => h.removeFile hremove
    · exact hmake pointee

theorem keeps_tree_copyEntry (source target : Path) (relative : Location) (entry : Entry) :
    Keeps disk.KeepsTree (copyEntry source target relative entry) := by
  cases entry with
  | directory => exact keeps_tree_makeDirectory _
  | file content => exact keeps_tree_copyFile _ _
  | link pointee => exact keeps_tree_copyLink _ _

theorem keeps_tree_copyContents (source target : Path) :
    Keeps disk.KeepsTree (copyContents source target) := by
  rw [copyContents]
  refine (keeps_tree_makeDirectory target).andThen fun _ => keeps_disk_bind fun now _ => ?_
  refine (keeps_ofExcept _).andThen fun entries => ?_
  refine Keeps.andThen (keeps_forIn fun item _ => ?_) fun _ => keeps_pure _
  exact (keeps_tree_copyEntry source target item.1 item.2).andThen fun _ => keeps_pure _

theorem keeps_tree_copyDirectory (source target : Path) :
    Keeps disk.KeepsTree (copyDirectory source target) := by
  rw [copyDirectory]
  cases source.fileName? with
  | none => exact keeps_throw _
  | some name => exact (keeps_tree_copyContents source _).andThen fun _ => keeps_pure _

end Files

end SiteTree
