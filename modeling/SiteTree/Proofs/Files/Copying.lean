import SiteTree.Files
import SiteTree.Proofs.Disk.WellFormed
import SiteTree.Proofs.Job

/-!
# Copying one entry

A file, a link or a directory is copied to another place of the same disk. What stands there
afterwards is what stands at the source, and nothing else changes.

* `gives_copyEntry` — an entry is copied, in place of nothing or of what makes way for it.
* `fails_copyEntry` — else it is not copied.
* `found_of_copyFile` — what a copied file holds, whatever is in the way.
-/

namespace SiteTree

/-- Are both files, both links or both directories? -/
def Entry.isLike : Entry → Entry → Bool
  | .directory, .directory => true
  | .file _, .file _ => true
  | .link _, .link _ => true
  | _, _ => false

/-- Is the first one replaced by a copy of the second? A directory stays one, and in the place of a file
or a link there can be a link, but a file that is to replace a link is written behind it. -/
def Entry.makesWayFor : Entry → Entry → Bool
  | .directory, .directory => true
  | .file _, .file _ => true
  | .file _, .link _ => true
  | .link _, .link _ => true
  | _, _ => false

theorem Entry.makesWayFor_of_isLike {old entry : Entry} (h : old.isLike entry = true) :
    old.makesWayFor entry = true := by
  cases old with
  | directory | file content | link target =>
    cases entry with
    | directory | file content | link target => first | rfl | cases h

theorem Entry.eq_directory_of_makesWayFor {entry : Entry}
    (h : Entry.directory.makesWayFor entry = true) : entry = .directory := by
  cases entry with
  | directory => rfl
  | file content => cases h
  | link target => cases h

namespace Disk

variable {disk : Disk} {directory : Path} {base relative : Location} {name : String}

/-- Only a place without a directory is lost. -/
theorem KeepsWays.eraseTree (htree : disk.IsTree) {ways : List Location} {location : Location}
    (hroot : location ≠ []) (hdirectory : disk.get? location ≠ some .directory)
    (hlink : location ∉ ways) : disk.KeepsWays ways (disk.eraseTree location) := by
  refine ⟨rfl, fun other hother => ?_, fun link hmem => ?_⟩
  · rw [htree.get?_eraseTree_of_leaf hroot hdirectory, if_neg]
    · exact hother
    · rintro rfl
      exact hdirectory hother
  · rw [htree.get?_eraseTree_of_leaf hroot hdirectory, if_neg]
    rintro rfl
    exact hlink hmem

/-- A disk that differs from another one in one entry. -/
structure Puts (disk : Disk) (location : Location) (entry : Entry) (after : Disk) : Prop where
  wellFormed : after.WellFormed
  workDir : after.workDir = disk.workDir
  get? : ∀ other, after.get? other = if other = location then some entry else disk.get? other

theorem WellFormed.puts_self (hdisk : disk.WellFormed) {location : Location} {entry : Entry}
    (h : disk.get? location = some entry) : disk.Puts location entry disk := by
  refine ⟨hdisk, rfl, fun other => ?_⟩
  split
  · next heq => rw [heq, h]
  · rfl

theorem WellFormed.puts_set (hdisk : disk.WellFormed) {here : Location} {entry : Entry}
    (hname : IsFileName name) (hhere : disk.get? here = some .directory)
    (hold : disk.get? (here ++ [name]) ≠ some .directory) (hentry : entry ≠ .link ⟨""⟩) :
    disk.Puts (here ++ [name]) entry (disk.set (here ++ [name]) entry) :=
  ⟨hdisk.set hname hhere hold hentry, rfl, get?_set (by simp)⟩

/-- A file that is copied is found at the end of the other path. It is emptied if that path leads to the
file itself, and nothing else changes. -/
theorem exists_of_copyFile {source target : Path} {after : Disk} {location : Location}
    {content : List UInt8} (hfind : disk.find source = .ok (location, .file content))
    (h : disk.copyFile source target = .ok after) :
    ∃ goal, after.find target = .ok (goal, .file (if goal = location then [] else content)) ∧
      ∀ other, other ≠ goal → after.get? other = disk.get? other := by
  rw [copyFile] at h
  obtain ⟨found, hfound, h⟩ := exists_of_bind_eq_ok h
  rw [hfind] at hfound
  cases hfound
  obtain ⟨emptied, hempty, h⟩ := exists_of_bind_eq_ok h
  obtain ⟨copied, hread, hwrite⟩ := exists_of_bind_eq_ok h
  obtain ⟨goal, hgoal⟩ : ∃ goal, disk.target? target = some goal := by
    cases htarget : disk.target? target with
    | some goal => exact ⟨goal, rfl⟩
    | none =>
      obtain ⟨error, herror⟩ := exists_error_of_target? htarget []
      rw [hempty] at herror
      cases herror
  obtain rfl : disk.put (target, []) = emptied := by
    rw [put, hempty]
    rfl
  obtain rfl : (disk.put (target, [])).put (target, copied) = after := by
    rw [put, hwrite]
    rfl
  have hgoalEmptied : (disk.put (target, [])).target? target = some goal := by
    rw [← target?_congr (sameFrame_put disk _), hgoal]
  -- The content is read when the file has been emptied.
  have hcopied : copied = if goal = location then [] else content := by
    obtain ⟨hlocation, hcontent⟩ := find_eq_file_iff.mp hfind
    obtain ⟨place, hplace, hfile⟩ := readBytes_eq_ok_iff.mp hread
    rw [← target?_congr (sameFrame_put disk _), hlocation] at hplace
    cases hplace
    rw [get?_put, hgoal, hcontent] at hfile
    split at hfile
    · next heq =>
      cases heq
      cases hfile
      rw [if_pos rfl]
    · next hne =>
      cases hfile
      rw [if_neg fun heq => hne (congrArg some heq)]
  refine ⟨goal, find_eq_file_iff.mpr ⟨?_, ?_⟩, fun other hother => ?_⟩
  · rw [← target?_congr (sameFrame_put _ _), hgoalEmptied]
  · rw [get?_put, if_pos hgoalEmptied, hcopied]
  · have hne : ¬ some goal = some other := fun heq => hother (Option.some.inj heq).symm
    rw [get?_put, hgoalEmptied, if_neg hne, get?_put, hgoal, if_neg hne]

end Disk

namespace Files

open Job (Fails Gives fails_change fails_changeAnyway fails_disk_bind gives_change gives_changeAnyway
  gives_disk_bind gives_pure)

variable {disk : Disk} {source target : Path} {start goal relative : Location} {name : String}

theorem gives_makeDirectory {path : Path} {after : Disk}
    (h : disk.makeDirectories path = (none, after)) : Gives (makeDirectory path) disk () after :=
  gives_changeAnyway _ h

/-- What is needed to copy what has a name from one directory into another one. -/
structure Copies (disk : Disk) (source target : Path) (start goal relative : Location)
    (name : String) : Prop where
  wellFormed : disk.WellFormed
  reads : disk.GoesOn source start relative name
  writes : disk.GoesOn target goal relative name
  apart : start ++ relative ++ [name] ≠ goal ++ relative ++ [name]
  off : goal ++ relative ++ [name] ∉ disk.linksTo source ++ disk.linksTo target

namespace Copies

variable (h : Copies disk source target start goal relative name)

include h

/-- The ways to both directories stay when something is put in place of no directory. -/
theorem goesOn_of_keepsWays {after : Disk}
    (hkeeps : disk.KeepsWays (disk.linksTo source ++ disk.linksTo target) after) :
    after.GoesOn source start relative name ∧ after.GoesOn target goal relative name :=
  ⟨h.reads.keep (hkeeps.mono (List.subset_append_left _ _)),
    h.writes.keep (hkeeps.mono (List.subset_append_right _ _))⟩

theorem gives_directory
    (hold : ∀ old, disk.get? (goal ++ relative ++ [name]) = some old →
      old.makesWayFor .directory = true) :
    ∃ after, Gives (makeDirectory (target.down (relative ++ [name]))) disk () after ∧
      disk.Puts (goal ++ relative ++ [name]) .directory after := by
  have htree := h.wellFormed.toIsTree
  cases hentry : disk.get? (goal ++ relative ++ [name]) with
  | some old =>
    obtain rfl : old = .directory := by
      have hlike := hold old hentry
      cases old with
      | directory => rfl
      | file content => cases hlike
      | link pointee => cases hlike
    exact ⟨disk, gives_makeDirectory (Disk.makeDirectories_of_find
      (h.writes.find htree hentry (by simp))), h.wellFormed.puts_self hentry⟩
  | none =>
    exact ⟨_, gives_makeDirectory (Disk.makeDirectories_of_free (h.writes.names_last htree) hentry),
      h.wellFormed.puts_set h.writes.isFileName h.writes.parent (by rw [hentry]; exact nofun)
        (by simp)⟩

theorem gives_file {content : List UInt8}
    (hentry : disk.get? (start ++ relative ++ [name]) = some (.file content))
    (hold : ∀ old, disk.get? (goal ++ relative ++ [name]) = some old →
      old.makesWayFor (.file content) = true) :
    ∃ after, Gives (copyFile (source.down (relative ++ [name])) (target.down (relative ++ [name])))
        disk () after ∧
      disk.Puts (goal ++ relative ++ [name]) (.file content) after := by
  have htree := h.wellFormed.toIsTree
  have hplace : disk.get? (goal ++ relative ++ [name]) = none ∨
      ∃ old, disk.get? (goal ++ relative ++ [name]) = some (.file old) := by
    cases hthere : disk.get? (goal ++ relative ++ [name]) with
    | none => exact .inl rfl
    | some old =>
      have hlike := hold old hthere
      cases old with
      | directory => cases hlike
      | file content => exact .inr ⟨content, rfl⟩
      | link pointee => cases hlike
  have hdirectory : disk.get? (goal ++ relative ++ [name]) ≠ some .directory := by
    rcases hplace with hnone | ⟨old, hold⟩
    · rw [hnone]
      exact nofun
    · rw [hold]
      exact nofun
  -- The file is emptied first; the ways to both files stay.
  let emptied := disk.set (goal ++ relative ++ [name]) (.file [])
  have hemptied : disk.Puts (goal ++ relative ++ [name]) (.file []) emptied :=
    h.wellFormed.puts_set h.writes.isFileName h.writes.parent hdirectory (by simp)
  obtain ⟨hsource, htarget⟩ := h.goesOn_of_keepsWays
    ((Disk.KeepsWays.refl disk _).set (by simp) hdirectory h.off (.file []))
  have hread : emptied.get? (start ++ relative ++ [name]) = some (.file content) := by
    rw [hemptied.get?, if_neg h.apart, hentry]
  have hempty : emptied.get? (goal ++ relative ++ [name]) = some (.file []) := by
    rw [hemptied.get?, if_pos rfl]
  have hcopy : disk.copyFile (source.down (relative ++ [name])) (target.down (relative ++ [name]))
      = .ok (emptied.set (goal ++ relative ++ [name]) (.file content)) := by
    rw [Disk.copyFile, h.reads.find htree hentry (by simp)]
    simp only [bind, Except.bind]
    rw [h.writes.writeBytes htree hplace]
    dsimp only
    rw [hsource.readBytes hemptied.wellFormed.toIsTree hread]
    exact htarget.writeBytes hemptied.wellFormed.toIsTree (.inr ⟨[], hempty⟩) content
  obtain ⟨parent, hparent, hmake⟩ := h.writes.exists_parent? htree
  refine ⟨emptied.set (goal ++ relative ++ [name]) (.file content), ?_, ?_⟩
  · rw [copyFile, hparent]
    exact (gives_makeDirectory hmake).bind (gives_change _ hcopy)
  · have hlater : emptied.Puts (goal ++ relative ++ [name]) (.file content)
        (emptied.set (goal ++ relative ++ [name]) (.file content)) :=
      hemptied.wellFormed.puts_set h.writes.isFileName htarget.parent (by rw [hempty]; simp) (by simp)
    refine ⟨hlater.wellFormed, rfl, fun other => ?_⟩
    rw [hlater.get?, hemptied.get?]
    split
    · rfl
    · rfl

theorem gives_link {pointee : Path}
    (hentry : disk.get? (start ++ relative ++ [name]) = some (.link pointee))
    (hold : ∀ old, disk.get? (goal ++ relative ++ [name]) = some old →
      old.makesWayFor (.link pointee) = true) :
    ∃ after, Gives (copyLink (source.down (relative ++ [name])) (target.down (relative ++ [name])))
        disk () after ∧
      disk.Puts (goal ++ relative ++ [name]) (.link pointee) after := by
  have htree := h.wellFormed.toIsTree
  have hpointee := h.wellFormed.ne_empty_of_link hentry
  have hsome : Entry.link pointee ≠ .link ⟨""⟩ := fun heq => hpointee (by cases heq; rfl)
  have hread : disk.readLink (source.down (relative ++ [name])) = .ok pointee := by
    rw [Disk.readLink, h.reads.entryAt htree hentry]
    rfl
  cases hthere : disk.get? (goal ++ relative ++ [name]) with
  | none =>
    refine ⟨_, ?_, h.wellFormed.puts_set h.writes.isFileName h.writes.parent
      (by rw [hthere]; exact nofun) hsome⟩
    rw [copyLink]
    refine gives_disk_bind ?_
    rw [hread]
    refine (gives_pure pointee disk).bind (gives_disk_bind ?_)
    rw [h.writes.entryAt_of_free htree hthere]
    exact gives_change _ (h.writes.makeLink htree hthere hpointee)
  | some old =>
    have hold : old ≠ .directory := by
      rintro rfl
      cases hold .directory hthere
    have hdirectory : disk.get? (goal ++ relative ++ [name]) ≠ some .directory := by
      rw [hthere]
      exact fun heq => hold (Option.some.inj heq)
    let erased := disk.eraseTree (goal ++ relative ++ [name])
    have herased : erased.WellFormed := h.wellFormed.eraseTree hdirectory
    have hget := h.wellFormed.get?_eraseTree_of_leaf (by simp) hdirectory
    obtain ⟨-, htarget⟩ := h.goesOn_of_keepsWays
      (Disk.KeepsWays.eraseTree htree (by simp) hdirectory h.off)
    have hfree : erased.get? (goal ++ relative ++ [name]) = none := by rw [hget, if_pos rfl]
    have hremove : disk.removeFile (target.down (relative ++ [name])) = .ok erased := by
      rw [Disk.removeFile, h.writes.entryAt htree hthere]
      cases old with
      | directory => exact absurd rfl hold
      | file content => rfl
      | link former => rfl
    have hputs : erased.Puts (goal ++ relative ++ [name]) (.link pointee)
        (erased.set (goal ++ relative ++ [name]) (.link pointee)) :=
      herased.puts_set h.writes.isFileName htarget.parent (by rw [hfree]; exact nofun) hsome
    refine ⟨erased.set (goal ++ relative ++ [name]) (.link pointee), ?_, hputs.wellFormed, rfl,
      fun other => ?_⟩
    · rw [copyLink]
      refine gives_disk_bind ?_
      rw [hread]
      refine (gives_pure pointee disk).bind (gives_disk_bind ?_)
      rw [h.writes.entryAt htree hthere]
      exact (gives_change _ hremove).bind
        (gives_change _ (htarget.makeLink herased.toIsTree hfree hpointee))
    · rw [hputs.get?, hget]
      split
      · rfl
      · rfl

/-! #### What is refused -/

/-- No directory is made in the place of a file. -/
theorem fails_directory {content : List UInt8}
    (hthere : disk.get? (goal ++ relative ++ [name]) = some (.file content)) :
    Fails (makeDirectory (target.down (relative ++ [name]))) disk := by
  have htree := h.wellFormed.toIsTree
  have hfind := h.writes.find htree hthere (by simp)
  have hmake : disk.makeDirectory (target.down (relative ++ [name])) = .error .exists := by
    rw [(h.writes.names_last htree).makeDirectory, hthere]
    rfl
  have hrefused : (disk.makeDirectories (target.down (relative ++ [name]))).1 = some .exists := by
    rw [Disk.makeDirectories, Disk.makeChain, if_neg (by simp [Disk.isEmpty_of_find hfind]),
      Disk.makeDirectoryWith, hmake]
    simp [Disk.isDirectory?, hfind, Entry.isDirectory]
  exact fails_changeAnyway _ hrefused

/-- No file is written in the place of a directory. -/
theorem fails_file {content : List UInt8}
    (hentry : disk.get? (start ++ relative ++ [name]) = some (.file content))
    (hthere : disk.get? (goal ++ relative ++ [name]) = some .directory) :
    Fails (copyFile (source.down (relative ++ [name])) (target.down (relative ++ [name]))) disk := by
  have htree := h.wellFormed.toIsTree
  have hlink : ∀ former, disk.get? (goal ++ relative ++ [name]) ≠ some (.link former) := by
    rw [hthere]
    exact nofun
  have hwrite : disk.writeBytes (target.down (relative ++ [name])) [] = .error .isDirectory := by
    rw [Disk.writeBytes, h.writes.locate htree (.inr hlink), hthere]
    rfl
  have hcopy : disk.copyFile (source.down (relative ++ [name])) (target.down (relative ++ [name]))
      = .error .isDirectory := by
    rw [Disk.copyFile, h.reads.find htree hentry (by simp)]
    simp only [bind, Except.bind]
    rw [hwrite]
  obtain ⟨parent, hparent, hmake⟩ := h.writes.exists_parent? htree
  rw [copyFile, hparent]
  exact (gives_makeDirectory hmake).bind_fails (fails_change _ hcopy)

/-- No link is put in the place of a directory. -/
theorem fails_link {pointee : Path}
    (hentry : disk.get? (start ++ relative ++ [name]) = some (.link pointee))
    (hthere : disk.get? (goal ++ relative ++ [name]) = some .directory) :
    Fails (copyLink (source.down (relative ++ [name])) (target.down (relative ++ [name]))) disk := by
  have htree := h.wellFormed.toIsTree
  have hread : disk.readLink (source.down (relative ++ [name])) = .ok pointee := by
    rw [Disk.readLink, h.reads.entryAt htree hentry]
    rfl
  have hplace := h.writes.entryAt htree hthere
  have hremove : disk.removeFile (target.down (relative ++ [name])) = .error .isDirectory := by
    rw [Disk.removeFile, hplace]
    rfl
  rw [copyLink]
  refine fails_disk_bind ?_
  rw [hread]
  refine (gives_pure pointee disk).bind_fails (fails_disk_bind ?_)
  rw [hplace]
  exact (fails_change _ hremove).bind _

end Copies

/-- An entry is copied, in place of nothing or of what makes way for it, and nothing else changes. -/
theorem gives_copyEntry (h : Copies disk source target start goal relative name) {entry : Entry}
    (hentry : disk.get? (start ++ relative ++ [name]) = some entry)
    (hold : ∀ old, disk.get? (goal ++ relative ++ [name]) = some old → old.makesWayFor entry = true) :
    ∃ after, Gives (copyEntry source target (relative ++ [name]) entry) disk () after ∧
      disk.Puts (goal ++ relative ++ [name]) entry after := by
  cases entry with
  | directory => exact h.gives_directory hold
  | file content => exact h.gives_file hentry hold
  | link pointee => exact h.gives_link hentry hold

/-- Nothing is copied in place of what does not make way for it, as long as that is no link. -/
theorem fails_copyEntry (h : Copies disk source target start goal relative name) {entry old : Entry}
    (hentry : disk.get? (start ++ relative ++ [name]) = some entry)
    (hthere : disk.get? (goal ++ relative ++ [name]) = some old) (hlink : ∀ former, old ≠ .link former)
    (hold : old.makesWayFor entry = false) :
    Fails (copyEntry source target (relative ++ [name]) entry) disk := by
  cases old with
  | directory =>
    cases entry with
    | directory => cases hold
    | file content => exact h.fails_file hentry hthere
    | link pointee => exact h.fails_link hentry hthere
  | file former =>
    cases entry with
    | directory => exact h.fails_directory hthere
    | file content => cases hold
    | link pointee => cases hold
  | link former => exact absurd rfl (hlink former)

/-! ### Files, whatever is in the way -/

/-- The parents of the copy are made before the file is copied. -/
theorem exists_middle_of_copyFile {now later : Session}
    (hrun : (copyFile source target).run.run now = (.ok (), later)) :
    ∃ middle : Disk, now.disk.Extends middle ∧
      (∀ other, middle.get? other = now.disk.get? other ∨
        now.disk.get? other = none ∧ middle.get? other = some .directory) ∧
      middle.copyFile source target = .ok later.disk := by
  have hcopy : ∀ middle : Session, (Job.change (fun disk => disk.copyFile source target) fun error =>
        (Failure.plain error.message).within
          ("could not copy " ++ ticked source.text ++ " to " ++ ticked target.text)).run.run middle
        = (.ok (), later) → middle.disk.copyFile source target = .ok later.disk := by
    intro middle hchange
    rw [Job.run_change] at hchange
    cases hcopied : middle.disk.copyFile source target with
    | error error =>
      rw [hcopied] at hchange
      cases hchange
    | ok after =>
      rw [hcopied] at hchange
      cases hchange
      rfl
  rw [copyFile] at hrun
  cases hparent : target.parent? with
  | none =>
    rw [hparent] at hrun
    exact ⟨now.disk, Disk.Extends.refl _, fun _ => .inl rfl, hcopy now hrun⟩
  | some parent =>
    rw [hparent] at hrun
    obtain ⟨_, middle, hmake, hchange⟩ := run_bind_eq_ok hrun
    rw [makeDirectory, Job.run_changeAnyway] at hmake
    obtain rfl : { now with disk := (now.disk.makeDirectories parent).2 } = middle :=
      (Prod.mk.inj hmake).2
    exact ⟨_, now.disk.extends_makeDirectories parent, now.disk.get?_makeDirectories parent,
      hcopy _ hchange⟩

/-- What is copied as a file is one. -/
theorem exists_content_of_copyFile {location : Location} {entry : Entry} {now later : Session}
    (hrun : (copyFile source target).run.run now = (.ok (), later))
    (hfind : now.disk.find source = .ok (location, entry)) : ∃ content, entry = .file content := by
  obtain ⟨middle, hextends, -, hcopy⟩ := exists_middle_of_copyFile hrun
  rw [Disk.copyFile] at hcopy
  obtain ⟨found, hfound, hcopy⟩ := exists_of_bind_eq_ok hcopy
  rw [hextends.find hfind] at hfound
  cases hfound
  cases entry with
  | directory => cases hcopy
  | file content => exact ⟨content, rfl⟩
  | link pointee => cases hcopy

/-- What a file is copied to has its content, unless that is the file itself. -/
theorem found_of_copyFile {location : Location} {content : List UInt8} {now later : Session}
    (hrun : (copyFile source target).run.run now = (.ok (), later))
    (hfind : now.disk.find source = .ok (location, .file content)) :
    ∃ goal, later.disk.find target = .ok (goal, .file (if goal = location then [] else content)) ∧
      ∀ other, other ≠ goal → later.disk.get? other = now.disk.get? other ∨
        now.disk.get? other = none ∧ later.disk.get? other = some .directory := by
  obtain ⟨middle, hextends, hchanged, hcopy⟩ := exists_middle_of_copyFile hrun
  obtain ⟨goal, hgoal, hothers⟩ := Disk.exists_of_copyFile (hextends.find hfind) hcopy
  refine ⟨goal, hgoal, fun other hother => ?_⟩
  rw [hothers other hother]
  exact hchanged other

end Files

end SiteTree
