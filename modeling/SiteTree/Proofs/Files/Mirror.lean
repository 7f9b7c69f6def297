import Mathlib
import SiteTree.Proofs.Disk.Listing
import SiteTree.Proofs.Disk.MissingDirectories
import SiteTree.Proofs.Files.Copying

/-!
# Copying a directory

The entries of a directory are copied one by one, a directory before what is in it. After each of them
the other directory holds what was copied so far, and everything else is as it was.

* `Mirrorable.exists_step`, `Mirrorable.fails_or_exists_step` — one entry more is copied.
* `Mirrorable.exists_run`, `Mirrorable.mirrors_of_run` — all entries are copied.
* `Separate.mirrored_of_run` — the other directory mirrors the one that is copied, if the job succeeds.
* `copyContents_mirrors` — it succeeds if what is replaced is of the same kind.
-/

namespace SiteTree.Files

open Job (Fails Gives fails_bind fails_change fails_changeAnyway fails_disk_bind gives_change
  gives_disk_bind gives_forIn gives_ofExcept gives_pure)

variable {disk : Disk} {source target : Path} {start goal : Location}

/-! ### Entry by entry -/

/-- Copies the entries of a directory one after another. -/
def copyEach (source target : Path) (entries : List (Location × Entry)) : Job PUnit :=
  forIn entries PUnit.unit fun item _ => do
    copyEntry source target item.1 item.2
    pure (ForInStep.yield PUnit.unit)

/-- What is needed to copy what is in a directory into another one that is there: neither is in the
other, no link on the way to one of them is replaced, and no path is too long. -/
structure Mirrorable (disk : Disk) (source target : Path) (start goal : Location) : Prop where
  wellFormed : disk.WellFormed
  reads : disk.Leads source start
  writes : disk.Leads target goal
  notInto : ¬ start <+: goal
  notOver : ¬ goal <+: start
  off : ∀ link ∈ disk.linksTo source ++ disk.linksTo target, ∀ relative, relative ≠ [] →
    (disk.get? (start ++ relative)).isSome → link ≠ goal ++ relative
  routed : ∀ relative, relative ≠ [] → (disk.get? (start ++ relative)).isSome →
    disk.route (source.down relative) = .ok (Disk.routeFrom disk.workDir (source.down relative)) ∧
      disk.route (target.down relative) = .ok (Disk.routeFrom disk.workDir (target.down relative))

/-- Where an entry is copied to, there is a link only if the entry is a link too. -/
def Unlinked (disk : Disk) (start goal : Location) : Prop :=
  ∀ relative entry former, relative ≠ [] → disk.get? (start ++ relative) = some entry →
    disk.get? (goal ++ relative) = some (.link former) → ∃ pointee, entry = .link pointee

/-- The disk holds a copy of some of what is in a directory, and is as it was elsewhere. -/
structure Mirrors (before : Disk) (start goal : Location) (ways : List Location)
    (done : List Location) (disk : Disk) : Prop where
  wellFormed : disk.WellFormed
  keeps : before.KeepsWays ways disk
  copied : ∀ relative ∈ done, disk.get? (goal ++ relative) = before.get? (start ++ relative)
  others : ∀ location, (∀ relative ∈ done, location ≠ goal ++ relative) →
    disk.get? location = before.get? location

namespace Mirrorable

variable (h : Mirrorable disk source target start goal)

include h

/-- What is in one directory is not in the other. -/
theorem ne_append (first second : Location) : start ++ first ≠ goal ++ second := by
  intro heq
  have hprefix : start <+: goal ++ second := ⟨first, heq⟩
  rcases List.prefix_or_prefix_of_prefix hprefix (List.prefix_append goal second) with hinto | hover
  · exact h.notInto hinto
  · exact h.notOver hover

section Turn

variable {done : List Location} {now : Disk} {relative : Location} {name : String} {entry : Entry}
  (hnow : Mirrors disk start goal (disk.linksTo source ++ disk.linksTo target) done now)
  (hentry : disk.get? (start ++ relative ++ [name]) = some entry)

include hnow hentry

/-- The paths of an entry lead to it and to the place of its copy, if the directory that it is in was
copied before. -/
theorem goesOn (hdone : relative = [] ∨ relative ∈ done) :
    now.GoesOn source start relative name ∧ now.GoesOn target goal relative name := by
  have hthere : (disk.get? (start ++ (relative ++ [name]))).isSome := by
    rw [← List.append_assoc, hentry]
    rfl
  have hparent : disk.get? (start ++ relative) = some .directory :=
    h.wellFormed.parent _ name (by rw [hentry]; rfl)
  have hgoal : disk.get? goal = some .directory :=
    h.wellFormed.get?_of_walk (Disk.IsTree.get?_routeFrom_start h.wellFormed.workDir target) h.writes
  have hgoalNow : now.get? (goal ++ relative) = some .directory := by
    rcases hdone with rfl | hdone
    · rw [List.append_nil]
      exact hnow.keeps.directory goal hgoal
    · rw [hnow.copied relative hdone, hparent]
  have hnames : ∀ other ∈ relative ++ [name], IsFileName other := fun other hother =>
    h.wellFormed.isFileName_of_get? hentry other (by
      rw [List.append_assoc]
      exact List.mem_append_right _ hother)
  have hroute : ∀ path, now.route path = disk.route path := fun path => by
    rw [Disk.route, hnow.keeps.workDir, ← Disk.route]
  obtain ⟨hsourceRoute, htargetRoute⟩ := h.routed _ (by simp) hthere
  refine ⟨⟨?_, hnow.keeps.directory _ hparent, hnames, ?_⟩, ⟨?_, hgoalNow, hnames, ?_⟩⟩
  · exact ((hnow.keeps.mono (List.subset_append_left _ _)).leads h.reads).1
  · rw [hroute, hnow.keeps.workDir]
    exact hsourceRoute
  · exact ((hnow.keeps.mono (List.subset_append_right _ _)).leads h.writes).1
  · rw [hroute, hnow.keeps.workDir]
    exact htargetRoute

omit hnow in
/-- No link on the way is at the place of the copy. -/
theorem off_of_get? {link : Location} (hlink : link ∈ disk.linksTo source ++ disk.linksTo target) :
    link ≠ goal ++ relative ++ [name] := by
  rw [List.append_assoc]
  refine h.off link hlink _ (by simp) ?_
  rw [← List.append_assoc, hentry]
  rfl

theorem copies (hdone : relative = [] ∨ relative ∈ done) :
    Copies now source target start goal relative name := by
  obtain ⟨hsource, htarget⟩ := h.goesOn hnow hentry hdone
  obtain ⟨-, hsourceLinks⟩ := (hnow.keeps.mono (List.subset_append_left _ _)).leads h.reads
  obtain ⟨-, htargetLinks⟩ := (hnow.keeps.mono (List.subset_append_right _ _)).leads h.writes
  refine ⟨hnow.wellFormed, hsource, htarget, ?_, ?_⟩
  · rw [List.append_assoc, List.append_assoc]
    exact h.ne_append _ _
  · rw [hsourceLinks, htargetLinks]
    exact fun hlink => h.off_of_get? hentry hlink rfl

theorem get?_source : now.get? (start ++ relative ++ [name]) = some entry := by
  rw [hnow.others, hentry]
  intro other _
  rw [List.append_assoc]
  exact h.ne_append _ other

omit h hentry in
theorem get?_target (hnew : relative ++ [name] ∉ done) :
    now.get? (goal ++ relative ++ [name]) = disk.get? (goal ++ relative ++ [name]) := by
  refine hnow.others _ fun other hother heq => hnew ?_
  rw [List.append_assoc] at heq
  rwa [List.append_cancel_left heq]

variable (hdone : relative = [] ∨ relative ∈ done) (hnew : relative ++ [name] ∉ done)

include hdone hnew

/-- One entry more is copied, in place of nothing or of what makes way for it. -/
theorem exists_step (hold : ∀ old, disk.get? (goal ++ relative ++ [name]) = some old →
      old.makesWayFor entry = true) :
    ∃ later, Gives (copyEntry source target (relative ++ [name]) entry) now () later ∧
      Mirrors disk start goal (disk.linksTo source ++ disk.linksTo target)
        (done ++ [relative ++ [name]]) later := by
  have hassoc : ∀ base : Location, base ++ relative ++ [name] = base ++ (relative ++ [name]) :=
    fun base => List.append_assoc base relative [name]
  obtain ⟨later, hcopy, hputs⟩ := gives_copyEntry (h.copies hnow hentry hdone)
    (h.get?_source hnow hentry) (get?_target hnow hnew ▸ hold)
  refine ⟨later, hcopy, hputs.wellFormed, ⟨hputs.workDir.trans hnow.keeps.workDir, ?_, ?_⟩, ?_, ?_⟩
  · intro location hdirectory
    rw [hputs.get?]
    split
    · next heq =>
      rw [heq] at hdirectory
      rw [Entry.eq_directory_of_makesWayFor (hold _ hdirectory)]
    · exact hnow.keeps.directory location hdirectory
  · intro link hlink
    rw [hputs.get?, if_neg (h.off_of_get? hentry hlink)]
    exact hnow.keeps.link link hlink
  · intro other hother
    rw [hputs.get?, hassoc]
    rcases List.mem_append.mp hother with hother | hother
    · rw [if_neg]
      · exact hnow.copied other hother
      · intro heq
        exact hnew (List.append_cancel_left heq ▸ hother)
    · rw [List.mem_singleton.mp hother, if_pos rfl, ← hassoc, hentry]
  · intro location hothers
    rw [hputs.get?, if_neg]
    · exact hnow.others location fun other hother => hothers other (List.mem_append_left _ hother)
    · rw [hassoc]
      exact hothers _ (List.mem_append_right _ (List.mem_singleton_self _))

/-- Where nothing is written behind a link, one entry more is copied, or the job fails. -/
theorem fails_or_exists_step (hunlinked : ∀ former,
      disk.get? (goal ++ relative ++ [name]) = some (.link former) → ∃ pointee, entry = .link pointee) :
    Fails (copyEntry source target (relative ++ [name]) entry) now ∨
      ∃ later, Gives (copyEntry source target (relative ++ [name]) entry) now () later ∧
        Mirrors disk start goal (disk.linksTo source ++ disk.linksTo target)
          (done ++ [relative ++ [name]]) later := by
  by_cases hold : ∀ old, disk.get? (goal ++ relative ++ [name]) = some old →
      old.makesWayFor entry = true
  · exact .inr (h.exists_step hnow hentry hdone hnew hold)
  · push Not at hold
    obtain ⟨old, hthere, hway⟩ := hold
    refine .inl (fails_copyEntry (h.copies hnow hentry hdone) (h.get?_source hnow hentry)
      ((get?_target hnow hnew).trans hthere) ?_ (by simpa using hway))
    rintro former rfl
    obtain ⟨pointee, rfl⟩ := hunlinked former hthere
    exact hway rfl

end Turn

/-- What is in a listed directory comes after it. -/
theorem mem_of_listing {front rest : List (Location × Entry)} {relative : Location} {name : String}
    {entry : Entry} (hlisting : disk.listing start = front ++ (relative ++ [name], entry) :: rest) :
    disk.get? (start ++ relative ++ [name]) = some entry ∧
      (relative = [] ∨ relative ∈ front.map Prod.fst) ∧ relative ++ [name] ∉ front.map Prod.fst := by
  have hmem : (relative ++ [name], entry) ∈ disk.listing start := by
    rw [hlisting]
    simp
  obtain ⟨-, hentry⟩ := h.wellFormed.mem_listing_iff.mp hmem
  have hordered := disk.pairwise_listing start
  have hnodup : (disk.listing start).Nodup := h.wellFormed.nodup_listing
  rw [hlisting] at hordered hnodup
  refine ⟨by rwa [List.append_assoc], ?_, ?_⟩
  · by_cases hsome : relative = []
    · exact .inl hsome
    have hparent : (relative, Entry.directory) ∈ disk.listing start :=
      h.wellFormed.mem_listing_iff.mpr ⟨hsome, h.wellFormed.parent _ name (by
        rw [List.append_assoc, hentry]
        rfl)⟩
    rw [hlisting] at hparent
    rcases List.mem_append.mp hparent with hfront | hbehind
    · exact .inr (List.mem_map.mpr ⟨_, hfront, rfl⟩)
    rcases List.mem_cons.mp hbehind with heq | hrest
    · have hlength := congrArg (fun e => e.1.length) heq
      simp at hlength
    · have hlater := (List.pairwise_append.mp hordered).2.1
      have := List.rel_of_pairwise_cons hlater hrest
      exact absurd ⟨List.prefix_append _ _, by simp⟩ this
  · intro hfront
    obtain ⟨⟨_, other⟩, hother, rfl⟩ := List.mem_map.mp hfront
    obtain ⟨-, hsame⟩ := h.wellFormed.mem_listing_iff.mp
      (show (relative ++ [name], other) ∈ disk.listing start by rw [hlisting]; simp [hother])
    obtain rfl : other = entry := Option.some.inj (hsame.symm.trans hentry)
    exact (List.nodup_append.mp hnodup).2.2 _ hother _ List.mem_cons_self rfl

/-- An entry that is listed has a name and is in the directory. -/
theorem exists_name_of_listing {front rest : List (Location × Entry)} {item : Location × Entry}
    (hlisting : disk.listing start = front ++ item :: rest) :
    ∃ relative name entry, item = (relative ++ [name], entry) := by
  obtain ⟨relative, entry⟩ := item
  have hsome : relative ≠ [] := (h.wellFormed.mem_listing_iff.mp
    (show (relative, entry) ∈ disk.listing start by rw [hlisting]; simp)).1
  obtain ⟨parent, name, rfl⟩ := (List.eq_nil_or_concat' relative).resolve_left hsome
  exact ⟨parent, name, entry, rfl⟩

/-- All entries are copied, if what is there makes way for them. -/
theorem exists_run (hway : ∀ relative entry old, relative ≠ [] →
      disk.get? (start ++ relative) = some entry → disk.get? (goal ++ relative) = some old →
      old.makesWayFor entry = true) :
    ∃ after, Gives (copyEach source target (disk.listing start)) disk PUnit.unit after ∧
      Mirrors disk start goal (disk.linksTo source ++ disk.linksTo target)
        ((disk.listing start).map Prod.fst) after := by
  refine gives_forIn (fun done now =>
    Mirrors disk start goal (disk.linksTo source ++ disk.linksTo target) (done.map Prod.fst) now) ?_ ?_
  · intro done item rest now hlisting hnow
    obtain ⟨relative, name, entry, rfl⟩ := h.exists_name_of_listing hlisting
    obtain ⟨hentry, hdone, hnew⟩ := h.mem_of_listing hlisting
    have hold : ∀ old, disk.get? (goal ++ relative ++ [name]) = some old →
        old.makesWayFor entry = true := by
      intro old hthere
      rw [List.append_assoc] at hentry hthere
      exact hway _ entry old (by simp) hentry hthere
    obtain ⟨later, hcopy, hlater⟩ := h.exists_step hnow hentry hdone hnew hold
    refine ⟨later, hcopy.bind (gives_pure _ later), ?_⟩
    rwa [List.map_append]
  · exact ⟨h.wellFormed, Disk.KeepsWays.refl disk _, nofun, fun _ _ => rfl⟩

/-- All entries are copied, if the job succeeds and nothing is written behind a link. -/
theorem mirrors_of_run (hunlinked : Unlinked disk start goal) {console : List String} {value : PUnit}
    {last : Session}
    (hrun : (copyEach source target (disk.listing start)).run.run ⟨disk, console⟩ = (.ok value, last)) :
    Mirrors disk start goal (disk.linksTo source ++ disk.linksTo target)
      ((disk.listing start).map Prod.fst) last.disk := by
  refine Job.holds_of_forIn (fun done now =>
    Mirrors disk start goal (disk.linksTo source ++ disk.linksTo target) (done.map Prod.fst) now)
    ?_ ?_ hrun
  · intro done item rest now hlisting hnow
    obtain ⟨relative, name, entry, rfl⟩ := h.exists_name_of_listing hlisting
    obtain ⟨hentry, hdone, hnew⟩ := h.mem_of_listing hlisting
    have hlink : ∀ former, disk.get? (goal ++ relative ++ [name]) = some (.link former) →
        ∃ pointee, entry = .link pointee := by
      intro former hthere
      rw [List.append_assoc] at hentry hthere
      exact hunlinked _ entry former (by simp) hentry hthere
    rcases h.fails_or_exists_step hnow hentry hdone hnew hlink with hfails | ⟨later, hcopy, hlater⟩
    · exact .inl (hfails.bind _)
    · refine .inr ⟨later, hcopy.bind (gives_pure _ later), ?_⟩
      rwa [List.map_append]
  · exact ⟨h.wellFormed, Disk.KeepsWays.refl disk _, nofun, fun _ _ => rfl⟩

end Mirrorable

theorem contents_eq (hfind : disk.find source = .ok (start, .directory)) :
    contents disk source = .ok (disk.listing start) := by
  rw [contents, hfind]
  rfl

/-! ### Whole directories -/

/-- A directory and a place for a copy of it, which is there or can be made: neither is in the other,
no link that leads to one of them is replaced, and no path is too long. -/
structure Separate (disk : Disk) (source target : Path) (start goal : Location) : Prop where
  wellFormed : disk.WellFormed
  found : disk.find source = .ok (start, .directory)
  destination : disk.Destination target goal
  notInto : ¬ start <+: goal
  notOver : ¬ goal <+: start
  off : ∀ link ∈ disk.linksTo source ++ disk.linksTo target, ∀ relative, relative ≠ [] →
    (disk.get? (start ++ relative)).isSome → link ≠ goal ++ relative
  short : ∀ relative, relative ≠ [] → (disk.get? (start ++ relative)).isSome →
    (source.down relative).text.utf8ByteSize ≤ Disk.maxPath ∧
      (target.down relative).text.utf8ByteSize ≤ Disk.maxPath

/-- A directory that can be copied, because what is replaced is of the same kind. -/
structure Copyable (disk : Disk) (source target : Path) (start goal : Location) : Prop
    extends Separate disk source target start goal where
  alike : ∀ relative entry old, relative ≠ [] → disk.get? (start ++ relative) = some entry →
    disk.get? (goal ++ relative) = some old → old.isLike entry = true

/-- What a copy of a directory leaves: the other directory has all that is in the directory, by paths
that lead there, and everything else is as it was, apart from directories on the way that were made. -/
structure Mirrored (disk : Disk) (target : Path) (start goal : Location) (after : Disk) : Prop where
  copied : ∀ relative entry, relative ≠ [] → disk.get? (start ++ relative) = some entry →
    after.get? (goal ++ relative) = some entry ∧
      after.entryAt (target.down relative) = .ok (goal ++ relative, entry)
  kept : ∀ relative, after.get? (start ++ relative) = disk.get? (start ++ relative)
  others : ∀ location,
    (∀ relative, relative ≠ [] → location = goal ++ relative → disk.get? (start ++ relative) = none) →
    after.get? location = disk.get? location ∨
      disk.get? location = none ∧ after.get? location = some .directory ∧ location <+: goal

namespace Separate

variable {made : Disk} (h : Separate disk source target start goal)
  (hmade : disk.MakesSure target goal made)

include h hmade

/-- Nothing is made in the directory that is copied. -/
theorem get?_start (relative : Location) :
    made.get? (start ++ relative) = disk.get? (start ++ relative) := by
  refine (hmade.get? _).resolve_right ?_
  rintro ⟨-, -, hprefix⟩
  exact h.notInto ((List.prefix_append start relative).trans hprefix)

theorem find_source : made.find source = .ok (start, .directory) :=
  hmade.keeps.find h.found

theorem mirrorable : Mirrorable made source target start goal := by
  obtain ⟨hsourceRoute, hleads⟩ := Disk.find_eq_directory_iff.mp h.found
  obtain ⟨hreads, hlinks⟩ := (hmade.keepsWays source).leads hleads
  refine ⟨hmade.wellFormed, hreads, hmade.leads, h.notInto, h.notOver, ?_, ?_⟩
  · intro link hlink relative hsome hthere
    rw [h.get?_start hmade] at hthere
    rcases List.mem_append.mp hlink with hlink | hlink
    · rw [hlinks] at hlink
      exact h.off link (List.mem_append_left _ hlink) relative hsome hthere
    · rcases hmade.links link hlink with hlink | hapart
      · exact h.off link (List.mem_append_right _ hlink) relative hsome hthere
      · rintro rfl
        exact hapart (List.prefix_append _ _)
  · intro relative hsome hthere
    have hnames : ∀ name ∈ relative, IsFileName name := by
      obtain ⟨entry, hentry⟩ := Option.isSome_iff_exists.mp hthere
      exact fun name hname =>
        hmade.wellFormed.isFileName_of_get? hentry name (List.mem_append_right _ hname)
    rw [h.get?_start hmade] at hthere
    obtain ⟨hsourceShort, htargetShort⟩ := h.short relative hsome hthere
    exact ⟨Disk.route_down hsome (Disk.route_eq_ok_iff.mp hsourceRoute).1 hnames hsourceShort,
      Disk.route_down hsome (Disk.route_eq_ok_iff.mp h.destination.routed).1 hnames htargetShort⟩

/-- As many entries are listed as there were before the directory was made. -/
theorem length_listing : (made.listing start).length = (disk.below start).length := by
  have hperm : (made.listing start).Perm (disk.listing start) := by
    refine (List.perm_ext_iff_of_nodup hmade.wellFormed.nodup_listing h.wellFormed.nodup_listing).mpr
      fun (relative, entry) => ?_
    rw [hmade.wellFormed.mem_listing_iff, h.wellFormed.mem_listing_iff, h.get?_start hmade]
  rw [hperm.length_eq, Disk.listing, List.length_map]

/-- Once all that is listed is copied, the directory is mirrored. -/
theorem mirrored {after : Disk}
    (hmirrors : Mirrors made start goal (made.linksTo source ++ made.linksTo target)
      ((made.listing start).map Prod.fst) after) : Mirrored disk target start goal after := by
  have hmirrorable := h.mirrorable hmade
  refine ⟨?_, fun relative => ?_, fun location hothers => ?_⟩
  · intro relative entry hsome hentry
    rw [← h.get?_start hmade] at hentry
    have hlisted := hmade.wellFormed.mem_listing_iff.mpr ⟨hsome, hentry⟩
    have hcopied : after.get? (goal ++ relative) = some entry := by
      rw [hmirrors.copied relative (List.mem_map.mpr ⟨_, hlisted, rfl⟩), hentry]
    refine ⟨hcopied, ?_⟩
    obtain ⟨parent, name, rfl⟩ := (List.eq_nil_or_concat' relative).resolve_left hsome
    rw [← List.append_assoc] at hentry hcopied ⊢
    have hdone : parent = [] ∨ parent ∈ (made.listing start).map Prod.fst := by
      by_cases hparent : parent = []
      · exact .inl hparent
      · have hdirectory := hmade.wellFormed.parent _ name (by rw [hentry]; rfl)
        exact .inr (List.mem_map.mpr
          ⟨_, hmade.wellFormed.mem_listing_iff.mpr ⟨hparent, hdirectory⟩, rfl⟩)
    exact (hmirrorable.goesOn hmirrors hentry hdone).2.entryAt hmirrors.wellFormed.toIsTree hcopied
  · rw [← h.get?_start hmade]
    exact hmirrors.others _ fun other _ => hmirrorable.ne_append relative other
  · rw [hmirrors.others location]
    · exact hmade.get? location
    · rintro relative hrelative rfl
      obtain ⟨⟨_, entry⟩, hmem, rfl⟩ := List.mem_map.mp hrelative
      obtain ⟨hsome, hentry⟩ := hmade.wellFormed.mem_listing_iff.mp hmem
      rw [h.get?_start hmade, hothers _ hsome rfl] at hentry
      cases hentry

end Separate

/-- A directory that was copied is mirrored by the other one, which is there by its path, as long as
nothing was written behind a link. -/
theorem Separate.mirrored_of_run (h : Separate disk source target start goal)
    (hunlinked : Unlinked disk start goal) {console : List String} {count : Nat} {last : Session}
    (hrun : (copyContents source target).run.run ⟨disk, console⟩ = (.ok count, last)) :
    Mirrored disk target start goal last.disk ∧ last.disk.find target = .ok (goal, .directory) := by
  obtain ⟨made, hmade⟩ := h.destination.exists_made h.wellFormed
  rw [copyContents] at hrun
  obtain ⟨console, hrun⟩ := (gives_makeDirectory hmade.makeDirectories).exists_run hrun
  rw [run_bind, Job.run_disk] at hrun
  dsimp only at hrun
  obtain ⟨console, hrun⟩ :=
    (gives_ofExcept (contents_eq (h.find_source hmade)) made).exists_run hrun
  obtain ⟨value, later, hloop, hrest⟩ := run_bind_eq_ok hrun
  cases hrest
  have hunlinkedMade : Unlinked made start goal := by
    intro relative entry former hsome hentry hthere
    rw [h.get?_start hmade] at hentry
    rw [hmade.get?_below hsome] at hthere
    exact hunlinked relative entry former hsome hentry hthere
  have hmirrors := (h.mirrorable hmade).mirrors_of_run hunlinkedMade hloop
  refine ⟨h.mirrored hmade hmirrors, ?_⟩
  obtain ⟨hleads, -⟩ := (hmirrors.keeps.mono (List.subset_append_right _ _)).leads hmade.leads
  have hworkDir := hmirrors.keeps.workDir.trans hmade.keeps.workDir
  refine Disk.find_eq_directory_iff.mpr ⟨?_, hleads⟩
  have hrouted := h.destination.routed
  rwa [Disk.route, ← hworkDir, ← Disk.route] at hrouted

/-- A directory that can be copied is copied with all that is in it: directories, files and links, which
are not followed. The answer is how much that is. -/
theorem copyContents_mirrors (h : Copyable disk source target start goal) :
    ∃ after, Gives (copyContents source target) disk (disk.below start).length after ∧
      Mirrored disk target start goal after := by
  obtain ⟨made, hmade⟩ := h.destination.exists_made h.wellFormed
  obtain ⟨after, hcopies, hmirrors⟩ := (h.mirrorable hmade).exists_run (by
    intro relative entry old hsome hentry hold
    rw [h.get?_start hmade] at hentry
    rw [hmade.get?_below hsome] at hold
    exact Entry.makesWayFor_of_isLike (h.alike relative entry old hsome hentry hold))
  have hcopy : Gives (copyContents source target) disk (made.listing start).length after := by
    rw [copyContents]
    refine (gives_makeDirectory hmade.makeDirectories).bind (gives_disk_bind ?_)
    refine (gives_ofExcept (contents_eq (h.find_source hmade)) made).bind ?_
    exact hcopies.bind (gives_pure _ after)
  rw [h.length_listing hmade] at hcopy
  exact ⟨after, hcopy, h.mirrored hmade hmirrors⟩

section Chest

/-- A directory with a drawer and a link that leads nowhere. -/
def chest : Disk where
  entries := [(["s"], .directory), (["s", "d"], .directory), (["s", "d", "f"], .file [120]),
    (["s", "l"], .link ⟨"nowhere"⟩)]
  workDir := []

theorem copyable_chest : Copyable chest ⟨"s"⟩ ⟨"out/copy"⟩ ["s"] ["out", "copy"] where
  wellFormed := Disk.wellFormed_of_entries (by decide) (by decide) rfl
  found := by
    have hroute : chest.route ⟨"s"⟩ = .ok ⟨[], ["s"], false⟩ := rfl
    rw [Disk.find, Disk.locate, hroute]
    cbv
  destination := by
    have hmissing : chest.Missing ⟨"out/copy"⟩ [] ["out", "copy"] := by
      refine ⟨rfl, ⟨[], ["out", "copy"], rfl, Disk.walk.eq_1 .., rfl, rfl⟩, ?_, by decide⟩
      intro first hfirst
      cases hfirst
      rfl
    exact .missing hmissing (List.cons_ne_nil _ _)
  notInto := by decide
  notOver := by decide
  alike := by
    intro relative entry old _ _ hold
    simp [chest, Disk.get?, List.lookup] at hold
  off := by
    have hsource : chest.linksTo ⟨"s"⟩ = [] := by
      change chest.linksOn 40 [] ["s"] = []
      cbv
    have htarget : chest.linksTo ⟨"out/copy"⟩ = [] := by
      change chest.linksOn 40 [] ["out", "copy"] = []
      cbv
    rw [hsource, htarget]
    exact List.forall_mem_nil _
  short := by
    intro relative hsome hthere
    obtain ⟨entry, hentry⟩ := Option.isSome_iff_exists.mp hthere
    have hmem := Disk.mem_of_get? (by simp) hentry
    simp only [chest, List.singleton_append, List.mem_cons, Prod.mk.injEq, List.cons.injEq, true_and,
      List.not_mem_nil, or_false] at hmem
    rcases hmem with ⟨rfl, -⟩ | ⟨rfl, -⟩ | ⟨rfl, -⟩ | ⟨rfl, -⟩
    · exact absurd rfl hsome
    all_goals decide

/-- The chest is copied into a directory that has to be made, the link as it is. -/
theorem chest_mirrored :
    ∃ after, Gives (copyContents ⟨"s"⟩ ⟨"out/copy"⟩) chest 3 after ∧
      after.get? ["out", "copy", "d", "f"] = some (.file [120]) ∧
      after.get? ["out", "copy", "l"] = some (.link ⟨"nowhere"⟩) ∧
      after.get? ["s", "l"] = some (.link ⟨"nowhere"⟩) := by
  obtain ⟨after, hcopy, hmirrored⟩ := copyContents_mirrors copyable_chest
  have hcount : (chest.below ["s"]).length = 3 := by cbv
  rw [hcount] at hcopy
  exact ⟨after, hcopy, (hmirrored.copied ["d", "f"] _ (by decide) rfl).1,
    (hmirrored.copied ["l"] _ (by decide) rfl).1, hmirrored.kept ["l"]⟩

end Chest

/-! ### What is in the way of a copy -/

theorem fails_copyContents {error : DiskError} (h : (disk.makeDirectories target).1 = some error) :
    Fails (copyContents source target) disk :=
  Fails.bind (fails_changeAnyway _ h) _

/-- Nothing is copied to a path that is too long. -/
theorem fails_copyFile (h : Disk.maxPath < target.text.utf8ByteSize) (source : Path) (disk : Disk) :
    Fails (copyFile source target) disk := by
  have hchange : ∀ disk : Disk, ∃ refusal, disk.copyFile source target = .error refusal := by
    intro disk
    obtain ⟨error, hroute⟩ : ∃ error, disk.route target = .error error := Disk.exists_route_error h
    have hwrite : disk.writeBytes target [] = .error error := by
      rw [Disk.writeBytes, Disk.locate, hroute]
      rfl
    rw [Disk.copyFile]
    rcases disk.find source with refusal | ⟨_, _ | _ | _⟩
    · exact ⟨refusal, rfl⟩
    · exact ⟨.notFile, rfl⟩
    · exact ⟨error, by simp [hwrite, bind, Except.bind]⟩
    · exact ⟨.notFile, rfl⟩
  have hfails : ∀ disk, Fails (Job.change (fun disk => disk.copyFile source target) fun error =>
      (Failure.plain error.message).within
        ("could not copy " ++ ticked source.text ++ " to " ++ ticked target.text)) disk := by
    intro disk
    obtain ⟨refusal, hrefusal⟩ := hchange disk
    exact fails_change _ hrefusal
  rw [copyFile]
  cases target.parent? with
  | some parent => exact fails_bind _ (fun _ => hfails) disk
  | none => exact fails_bind (pure ()) (fun _ => hfails) disk

section Attic

/-- A directory with a file, and a file beside it. -/
def attic : Disk :=
  ⟨[(["s"], .directory), (["s", "a"], .file [120]), (["f"], .file [])], []⟩

theorem find_attic : attic.find ⟨"s"⟩ = .ok (["s"], .directory) := by
  have hroute : attic.route ⟨"s"⟩ = .ok ⟨[], ["s"], false⟩ := rfl
  rw [Disk.find, Disk.locate, hroute]
  cbv

/-- No directory is made below a file. -/
theorem fails_below_file :
    attic.find ⟨"f/t"⟩ = .error .notDirectory ∧ Fails (copyContents ⟨"s"⟩ ⟨"f/t"⟩) attic := by
  have hroute : attic.route ⟨"f/t"⟩ = .ok ⟨[], ["f", "t"], false⟩ := rfl
  have hfind : attic.find ⟨"f/t"⟩ = .error .notDirectory := by
    rw [Disk.find, Disk.locate, hroute]
    cbv
  have hmake : attic.makeDirectory ⟨"f/t"⟩ = .error .notDirectory := by
    rw [Disk.makeDirectory, hroute]
    cbv
  have hrefused : (attic.makeDirectories ⟨"f/t"⟩).1 = some .notDirectory := by
    rw [Disk.makeDirectories, Disk.makeChain, if_neg (by decide), Disk.makeDirectoryWith, hmake]
    simp [Disk.isDirectory?, hfind]
  exact ⟨hfind, fails_copyContents hrefused⟩

/-- No directory is made by a path that ends in a dot. -/
theorem fails_dot :
    attic.find ⟨"t/."⟩ = .error .notFound ∧ Fails (copyContents ⟨"s"⟩ ⟨"t/."⟩) attic := by
  have hroute : attic.route ⟨"t/."⟩ = .ok ⟨[], ["t", "."], false⟩ := rfl
  have hfind : attic.find ⟨"t/."⟩ = .error .notFound := by
    rw [Disk.find, Disk.locate, hroute]
    cbv
  have hmake : attic.makeDirectory ⟨"t/."⟩ = .error .notFound := by
    rw [Disk.makeDirectory, hroute]
    cbv
  have hparents : (Path.mk "t/.").parents = [⟨""⟩] := by decide
  have hrefused : (attic.makeDirectories ⟨"t/."⟩).1 = some .notFound := by
    rw [Disk.makeDirectories, hparents, Disk.makeChain, if_neg (by decide), Disk.makeDirectoryWith,
      hmake, Disk.makeChain, if_pos (by decide)]
    dsimp only
    rw [hmake]
    simp [Disk.isDirectory?, hfind]
  exact ⟨hfind, fails_copyContents hrefused⟩

/-- The attic with a directory that is led through. -/
def detour : Disk :=
  attic.set ["m"] .directory

theorem find_detour : detour.find ⟨"m/../s"⟩ = .ok (["s"], .directory) := by
  have hroute : detour.route ⟨"m/../s"⟩ = .ok ⟨[], ["m", "..", "s"], false⟩ := rfl
  rw [Disk.find, Disk.locate, hroute]
  cbv

theorem makeDirectories_detour : attic.makeDirectories ⟨"m/../s"⟩ = (none, detour) := by
  have hroute : attic.route ⟨"m/../s"⟩ = .ok ⟨[], ["m", "..", "s"], false⟩ := rfl
  have hparentRoute : attic.route ⟨"m/.."⟩ = .ok ⟨[], ["m", ".."], false⟩ := rfl
  have hfirst : attic.makeDirectory ⟨"m/../s"⟩ = .error .notFound := by
    rw [Disk.makeDirectory, hroute]
    cbv
  have hparentFirst : attic.makeDirectory ⟨"m/.."⟩ = .error .notFound := by
    rw [Disk.makeDirectory, hparentRoute]
    cbv
  have hnames : attic.Names ⟨"m"⟩ ⟨[], ["m"], false⟩ [] "m" :=
    ⟨rfl, Disk.walk.eq_1 .., rfl, by decide, by decide, by decide⟩
  have hmake : attic.makeDirectories ⟨"m"⟩ = (none, detour) := Disk.makeDirectories_of_free hnames rfl
  have hfound : detour.find ⟨"m/.."⟩ = .ok ([], .directory) := by
    have hroute : detour.route ⟨"m/.."⟩ = .ok ⟨[], ["m", ".."], false⟩ := rfl
    rw [Disk.find, Disk.locate, hroute]
    cbv
  have hparents : (Path.mk "m/../s").parents = ⟨"m/.."⟩ :: (Path.mk "m/..").parents := by decide
  have hgrandparents : (Path.mk "m/..").parents = ⟨"m"⟩ :: (Path.mk "m").parents := by decide
  refine Disk.makeDirectories_of_parents hfirst ?_ find_detour
  rw [hparents]
  refine Disk.makeDirectories_of_parents hparentFirst ?_ hfound
  rw [hgrandparents]
  exact hmake

/-- A file that is copied onto itself is emptied. -/
theorem gives_copyFile_detour :
    Gives (copyFile ⟨"s/a"⟩ ⟨"m/../s/a"⟩) detour () (detour.set ["s", "a"] (.file [])) := by
  let emptied := detour.set ["s", "a"] (.file [])
  have hsource : detour.route ⟨"s/a"⟩ = .ok ⟨[], ["s", "a"], false⟩ := rfl
  have hsourceAgain : emptied.route ⟨"s/a"⟩ = .ok ⟨[], ["s", "a"], false⟩ := rfl
  have htarget : detour.route ⟨"m/../s/a"⟩ = .ok ⟨[], ["m", "..", "s", "a"], false⟩ := rfl
  have htargetAgain : emptied.route ⟨"m/../s/a"⟩ = .ok ⟨[], ["m", "..", "s", "a"], false⟩ := rfl
  have hfind : detour.find ⟨"s/a"⟩ = .ok (["s", "a"], .file [120]) := by
    rw [Disk.find, Disk.locate, hsource]
    cbv
  have hwrite : detour.writeBytes ⟨"m/../s/a"⟩ [] = .ok emptied := by
    rw [Disk.writeBytes, Disk.locate, htarget]
    cbv
  have hread : emptied.readBytes ⟨"s/a"⟩ = .ok [] := by
    rw [Disk.readBytes, Disk.find, Disk.locate, hsourceAgain]
    cbv
  have hagain : emptied.writeBytes ⟨"m/../s/a"⟩ [] = .ok emptied := by
    rw [Disk.writeBytes, Disk.locate, htargetAgain]
    cbv
  have hcopy : detour.copyFile ⟨"s/a"⟩ ⟨"m/../s/a"⟩ = .ok emptied := by
    rw [Disk.copyFile, hfind]
    simp only [bind, Except.bind]
    rw [hwrite]
    dsimp only
    rw [hread]
    exact hagain
  have hparent : (Path.mk "m/../s/a").parent? = some ⟨"m/../s"⟩ := by decide
  rw [copyFile, hparent]
  exact (gives_makeDirectory (Disk.makeDirectories_of_find find_detour)).bind (gives_change _ hcopy)

/-- A directory that leads back to the one that is copied once it is made is copied onto itself. -/
theorem gives_copyContents_detour :
    attic.find ⟨"m/../s"⟩ = .error .notFound ∧
      ∃ after, Gives (copyContents ⟨"s"⟩ ⟨"m/../s"⟩) attic 1 after ∧
        after.get? ["s", "a"] = some (.file []) := by
  have hmissing : attic.find ⟨"m/../s"⟩ = .error .notFound := by
    have hroute : attic.route ⟨"m/../s"⟩ = .ok ⟨[], ["m", "..", "s"], false⟩ := rfl
    rw [Disk.find, Disk.locate, hroute]
    cbv
  have hfind : detour.find ⟨"s"⟩ = .ok (["s"], .directory) := by
    have hroute : detour.route ⟨"s"⟩ = .ok ⟨[], ["s"], false⟩ := rfl
    rw [Disk.find, Disk.locate, hroute]
    cbv
  have hlisting : detour.listing ["s"] = [(["a"], .file [120])] := by cbv
  have hcopy : Gives (copyEntry ⟨"s"⟩ ⟨"m/../s"⟩ ["a"] (.file [120])) detour ()
      (detour.set ["s", "a"] (.file [])) := gives_copyFile_detour
  refine ⟨hmissing, detour.set ["s", "a"] (.file []), ?_, rfl⟩
  rw [copyContents]
  refine (gives_makeDirectory makeDirectories_detour).bind (gives_disk_bind ?_)
  refine (gives_ofExcept (contents_eq hfind) detour).bind ?_
  have hstep : Gives (do
      copyEntry ⟨"s"⟩ ⟨"m/../s"⟩ ["a"] (.file [120])
      pure (ForInStep.yield PUnit.unit)) detour (ForInStep.yield PUnit.unit)
      (detour.set ["s", "a"] (.file [])) := hcopy.bind (gives_pure _ _)
  rw [hlisting, List.forIn_cons]
  refine Gives.bind (hstep.bind (?_ : Gives _ _ PUnit.unit _)) (gives_pure _ _)
  exact gives_pure _ _

end Attic

section Ring

/-- Two links that lead to a directory which has links of the same names. -/
def ring : Disk where
  entries := [(["d"], .directory), (["d", "l"], .link ⟨"."⟩), (["d", "m"], .link ⟨"../r"⟩),
    (["r"], .directory), (["r", "l"], .link ⟨"x"⟩), (["r", "m"], .link ⟨"x"⟩)]
  workDir := []

/-- The ring once the first link was replaced. -/
def brokenRing : Disk :=
  (ring.eraseTree ["d", "l"]).set ["d", "l"] (.link ⟨"x"⟩)

theorem find_ring :
    ring.find ⟨"d/l/m"⟩ = .ok (["r"], .directory) ∧ ring.find ⟨"d"⟩ = .ok (["d"], .directory) := by
  have hsource : ring.route ⟨"d/l/m"⟩ = .ok ⟨[], ["d", "l", "m"], false⟩ := rfl
  have htarget : ring.route ⟨"d"⟩ = .ok ⟨[], ["d"], false⟩ := rfl
  constructor
  · rw [Disk.find, Disk.locate, hsource]
    cbv
  · rw [Disk.find, Disk.locate, htarget]
    cbv

/-- A link is replaced that leads to the directory that is copied. -/
theorem gives_copyLink_ring : Gives (copyLink ⟨"d/l/m/l"⟩ ⟨"d/l"⟩) ring () brokenRing := by
  have hsource : ring.route ⟨"d/l/m/l"⟩ = .ok ⟨[], ["d", "l", "m", "l"], false⟩ := rfl
  have htarget : ∀ entries, Disk.route ⟨entries, []⟩ ⟨"d/l"⟩ = .ok ⟨[], ["d", "l"], false⟩ :=
    fun _ => rfl
  have hread : ring.readLink ⟨"d/l/m/l"⟩ = .ok ⟨"x"⟩ := by
    rw [Disk.readLink, Disk.entryAt, Disk.locate, hsource]
    cbv
  have hthere : ring.entryAt ⟨"d/l"⟩ = .ok (["d", "l"], .link ⟨"."⟩) := by
    rw [Disk.entryAt, Disk.locate, ring, htarget]
    cbv
  have hremove : ring.removeFile ⟨"d/l"⟩ = .ok (ring.eraseTree ["d", "l"]) := by
    rw [Disk.removeFile, hthere]
    rfl
  have hmake : (ring.eraseTree ["d", "l"]).makeLink ⟨"d/l"⟩ ⟨"x"⟩ = .ok brokenRing := by
    rw [Disk.makeLink, Disk.eraseTree, ring, htarget]
    cbv
  rw [copyLink]
  refine gives_disk_bind ?_
  rw [hread]
  refine (gives_pure _ ring).bind (gives_disk_bind ?_)
  rw [hthere]
  exact (gives_change _ hremove).bind (gives_change _ hmake)

/-- What is left of the directory is not found once the link is replaced. -/
theorem fails_ring : Fails (copyContents ⟨"d/l/m"⟩ ⟨"d"⟩) ring := by
  have hlisting : ring.listing ["r"] = [(["l"], .link ⟨"x"⟩), (["m"], .link ⟨"x"⟩)] := by cbv
  have hfirst : Gives (copyEntry ⟨"d/l/m"⟩ ⟨"d"⟩ ["l"] (.link ⟨"x"⟩)) ring () brokenRing :=
    gives_copyLink_ring
  have hsecond : Fails (copyEntry ⟨"d/l/m"⟩ ⟨"d"⟩ ["m"] (.link ⟨"x"⟩)) brokenRing := by
    have hroute : brokenRing.route ⟨"d/l/m/m"⟩ = .ok ⟨[], ["d", "l", "m", "m"], false⟩ := rfl
    have hread : brokenRing.readLink ⟨"d/l/m/m"⟩ = .error .notFound := by
      rw [Disk.readLink, Disk.entryAt, Disk.locate, hroute]
      cbv
    change Fails (copyLink ⟨"d/l/m/m"⟩ ⟨"d/m"⟩) brokenRing
    rw [copyLink]
    refine fails_disk_bind ?_
    rw [hread]
    exact Fails.bind (fun console => ⟨_, _, rfl⟩) _
  obtain ⟨hsource, htarget⟩ := find_ring
  rw [copyContents]
  refine (gives_makeDirectory (Disk.makeDirectories_of_find htarget)).bind_fails (fails_disk_bind ?_)
  refine (gives_ofExcept (contents_eq hsource) ring).bind_fails ?_
  rw [hlisting, List.forIn_cons]
  have hstep : Gives (do
      copyEntry ⟨"d/l/m"⟩ ⟨"d"⟩ ["l"] (.link ⟨"x"⟩)
      pure (ForInStep.yield PUnit.unit)) ring (ForInStep.yield PUnit.unit) brokenRing :=
    hfirst.bind (gives_pure _ _)
  refine Fails.bind (hstep.bind_fails ?_) _
  dsimp only
  rw [List.forIn_cons]
  exact (hsecond.bind _).bind _

end Ring

section Slashes

theorem splitSlashes_replicate (n : Nat) :
    Path.splitSlashes (List.replicate n '/') = ([], List.replicate n []) := by
  induction n with
  | zero => rfl
  | succ n ih => simp [List.replicate_succ, Path.splitSlashes, ih]

theorem utf8ByteSize_replicate (n : Nat) :
    (String.ofList (List.replicate n '/')).utf8ByteSize = n := by
  induction n with
  | zero => rfl
  | succ n ih =>
    have hsplit : String.ofList (List.replicate (n + 1) '/')
        = String.singleton '/' ++ String.ofList (List.replicate n '/') :=
      String.toList_injective (by simp [List.replicate_succ])
    rw [hsplit, String.utf8ByteSize_append, ih, String.utf8ByteSize_singleton]
    exact Nat.add_comm 1 n

/-- A name with slashes behind it. -/
def slashed (n : Nat) : Path :=
  ⟨"d" ++ String.ofList (List.replicate (n + 1) '/')⟩

theorem utf8ByteSize_slashed (n : Nat) : (slashed n).text.utf8ByteSize = n + 2 := by
  rw [slashed, String.utf8ByteSize_append, utf8ByteSize_replicate]
  exact Nat.add_comm 1 (n + 1)

theorem routeFrom_slashed (n : Nat) : Disk.routeFrom [] (slashed n) = ⟨[], ["d"], true⟩ := by
  have htext : (slashed n).text.toList = 'd' :: List.replicate (n + 1) '/' := by simp [slashed]
  have habs : (slashed n).isAbsolute = false := by simp [Path.isAbsolute, htext]
  have hsegments : (slashed n).segments = "d" :: List.replicate (n + 1) "" := by
    rw [Path.segments_eq, habs, htext]
    simp [Path.stretches, Path.splitSlashes, splitSlashes_replicate]
  rw [Disk.routeFrom, Disk.names, hsegments]
  simp [habs, List.getLast?_replicate, List.getLast?_cons]

/-- A directory with a file, and another directory beside it. -/
def hall : Disk :=
  ⟨[(["s"], .directory), (["s", "note.txt"], .file [120]), (["d"], .directory)], []⟩

theorem find_slashed {n : Nat} (h : n + 2 ≤ Disk.maxPath) :
    hall.find (slashed n) = .ok (["d"], .directory) := by
  have hroute : hall.route (slashed n) = .ok (Disk.routeFrom [] (slashed n)) := by
    refine Disk.route_eq_ok_iff.mpr ⟨?_, ?_, ?_⟩
    · simp [slashed]
    · intro hempty
      have hsize := utf8ByteSize_slashed n
      rw [hempty] at hsize
      cases hsize
    · rwa [utf8ByteSize_slashed]
  rw [Disk.find, Disk.locate, hroute, routeFrom_slashed]
  cbv

/-- A directory is there by a path that is not too long, and still the paths of files in it are. -/
theorem fails_slashed {n : Nat} (h : n + 2 ≤ Disk.maxPath) (hlong : Disk.maxPath < n + 10) :
    Fails (copyContents ⟨"s"⟩ (slashed n)) hall := by
  have hfind : hall.find ⟨"s"⟩ = .ok (["s"], .directory) := by
    have hroute : hall.route ⟨"s"⟩ = .ok ⟨[], ["s"], false⟩ := rfl
    rw [Disk.find, Disk.locate, hroute]
    cbv
  have hlisting : hall.listing ["s"] = [(["note.txt"], .file [120])] := by cbv
  have hpath : Disk.maxPath < ((slashed n).down ["note.txt"]).text.utf8ByteSize := by
    have htext : (slashed n).text.toList = 'd' :: List.replicate n '/' ++ ['/'] := by
      simp [slashed, List.replicate_succ']
    have hlast : (slashed n).text.toList.getLast? = some '/' := by rw [htext, List.getLast?_concat]
    have hjoin : ((slashed n).down ["note.txt"]).text = (slashed n).text ++ "note.txt" := by
      rw [Path.down, Path.join, if_neg (by decide), if_neg (by simp [slashed]), if_pos hlast]
      rfl
    have hname : "note.txt".utf8ByteSize = 8 := by decide
    rw [hjoin, String.utf8ByteSize_append, utf8ByteSize_slashed, hname]
    exact hlong
  rw [copyContents]
  refine (gives_makeDirectory (Disk.makeDirectories_of_find (find_slashed h))).bind_fails
    (fails_disk_bind ?_)
  refine (gives_ofExcept (contents_eq hfind) hall).bind_fails ?_
  have hentry : Fails (copyEntry ⟨"s"⟩ (slashed n) ["note.txt"] (.file [120])) hall := by
    change Fails (copyFile (Path.down ⟨"s"⟩ ["note.txt"]) ((slashed n).down ["note.txt"])) hall
    exact fails_copyFile hpath _ hall
  rw [hlisting, List.forIn_cons]
  exact ((hentry.bind _).bind _).bind _

end Slashes

/-- A directory is not copied into one that is missing below a file or behind a last dot, and one that
leads back to it once it is made empties its files. Nor is a directory copied whose way leads through a
link that is replaced, or into one whose path leaves no room for the names of files. -/
theorem copyContents_limits :
    (attic.find ⟨"s"⟩ = .ok (["s"], .directory) ∧
      (attic.find ⟨"f/t"⟩ = .error .notDirectory ∧ Fails (copyContents ⟨"s"⟩ ⟨"f/t"⟩) attic) ∧
      (attic.find ⟨"t/."⟩ = .error .notFound ∧ Fails (copyContents ⟨"s"⟩ ⟨"t/."⟩) attic) ∧
      attic.find ⟨"m/../s"⟩ = .error .notFound ∧
        ∃ after, Gives (copyContents ⟨"s"⟩ ⟨"m/../s"⟩) attic 1 after ∧
          after.get? ["s", "a"] = some (.file [])) ∧
    ((ring.find ⟨"d/l/m"⟩ = .ok (["r"], .directory) ∧ ring.find ⟨"d"⟩ = .ok (["d"], .directory)) ∧
      Fails (copyContents ⟨"d/l/m"⟩ ⟨"d"⟩) ring) ∧
    hall.find (slashed 4089) = .ok (["d"], .directory) ∧
      Fails (copyContents ⟨"s"⟩ (slashed 4089)) hall :=
  ⟨⟨find_attic, fails_below_file, fails_dot, gives_copyContents_detour⟩, ⟨find_ring, fails_ring⟩,
    find_slashed (by decide), fails_slashed (by decide) (by decide)⟩

end SiteTree.Files
