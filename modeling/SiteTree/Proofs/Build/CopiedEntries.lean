import SiteTree.Build
import SiteTree.Proofs.Config.Loading
import SiteTree.Proofs.Files.Lasting
import SiteTree.Proofs.Files.Mirror
import SiteTree.Proofs.Path.LastName

/-!
# Entries that are copied into the output

The entries of the copy list have their turns one after another. An entry lands in the output under the
name of what its path leads to, because that is looked up before the name is taken: a link lands under
the name of what it points to. What an entry leaves is found in the end, as far as later entries leave
it alone.

* `Build.CopiesAll` — the turns of several entries.
* `Build.lands_of_copyTarget` — what the turn of one entry leaves.
* `Build.copyTargets_land` — what is left of an entry in the end.
* `Build.copyTargets_rename_links` — links do not keep their names.
-/

namespace SiteTree

/-! ### The copy list -/

namespace Config

variable {config : Config} {host : Host} {disk : Disk}

/-- What is copied for an entry of the copy list. -/
def copyTarget (config : Config) (host : Host) (disk : Disk) (written : String) : CopyTarget where
  path := config.locate host disk ⟨written⟩
  contentsOnly := written.toList.getLast? == some '/' || written.toList.getLast? == some '\\'

theorem copyTargets_eq : config.copyTargets host disk
    = config.build.copy.map (config.copyTarget host disk) :=
  rfl

/-- An entry keeps its last name, unless that is the name of a link or stands for the home directory. -/
theorem fileName?_copyTarget (htree : disk.IsTree) (hwork : disk.get? disk.workDir = some .directory)
    {written name : String} (hname : IsEntryName name)
    (hlast : (Path.mk written).segments.getLast? = some name) (hhome : written ≠ "~")
    (hlink : ∀ place pointee,
      disk.entryAt (config.written host ⟨written⟩) ≠ .ok (place, .link pointee)) :
    (config.copyTarget host disk written).path.fileName? = some name := by
  have hwritten : (config.written host ⟨written⟩).segments.getLast? = some name := by
    rw [Config.written]
    split
    · rw [Path.getLast?_segments_expandHome hhome, hlast]
    · rw [Path.getLast?_segments_join, Path.getLast?_segments_expandHome hhome, hlast]
  exact Disk.fileName?_normalize htree hwork hname hwritten hlink

/-- An entry has the name of what its path leads to. -/
theorem fileName?_copyTarget_of_find (htree : disk.IsTree)
    (hwork : disk.get? disk.workDir = some .directory) {written : String} {location : Location}
    {entry : Entry} (hfind : disk.find (config.written host ⟨written⟩) = .ok (location, entry)) :
    (config.copyTarget host disk written).path.fileName? = location.getLast? := by
  have hpath : (config.copyTarget host disk written).path = location.path :=
    Disk.normalize_of_find hfind
  obtain ⟨-, hwalk⟩ := Disk.find_eq_ok_iff.mp hfind
  have hentry := htree.get?_of_walk (Disk.IsTree.get?_routeFrom_start hwork _) hwalk
  rw [hpath]
  cases hlast : location.getLast? with
  | none =>
    obtain rfl := List.getLast?_eq_none_iff.mp hlast
    decide
  | some name => exact Location.fileName?_path (htree.isEntryName_of_get? hentry) hlast

end Config

namespace Build

variable {host : Host} {config : Config} {output : Path} {target : Config.CopyTarget}
  {now later start last : Session}

/-! ### Turns -/

/-- Entries are copied one after another. -/
inductive CopiesAll (output : Path) : List Config.CopyTarget → Session → Session → Prop
  | nil (session : Session) : CopiesAll output [] session session
  | cons {target : Config.CopyTarget} {rest : List Config.CopyTarget} {now later last : Session}
      (turn : (copyTarget output target).run.run now = (.ok (), later))
      (others : CopiesAll output rest later last) : CopiesAll output (target :: rest) now last

theorem copiesAll_of_run (h : (copyTargets host config).run.run start = (.ok (), last)) :
    CopiesAll config.build.output (config.copyTargets host start.disk) start last := by
  rw [copyTargets, run_bind, Job.run_disk] at h
  dsimp only at h
  obtain ⟨value, session, hloop, hpure⟩ := run_bind_eq_ok h
  cases hpure
  clear h
  generalize config.copyTargets host start.disk = targets at hloop ⊢
  induction targets generalizing start with
  | nil =>
    cases hloop
    exact .nil _
  | cons target targets ih =>
    rw [List.forIn_cons] at hloop
    obtain ⟨answer, middle, hturn, hrest⟩ := run_bind_eq_ok hloop
    obtain ⟨_, later, hcopy, hpure⟩ := run_bind_eq_ok hturn
    cases hpure
    exact .cons hcopy (ih hrest)

/-- Every entry has its turn. -/
theorem CopiesAll.exists_turn {before rest : List Config.CopyTarget}
    (h : CopiesAll output (before ++ target :: rest) start last) :
    ∃ now later, CopiesAll output before start now ∧
      (copyTarget output target).run.run now = (.ok (), later) ∧ CopiesAll output rest later last := by
  induction before generalizing start with
  | nil =>
    cases h with
    | cons turn others => exact ⟨start, _, .nil start, turn, others⟩
  | cons first before ih =>
    cases h with
    | cons turn others =>
      obtain ⟨now, later, hbefore, hturn, hrest⟩ := ih others
      exact ⟨now, later, .cons turn hbefore, hturn, hrest⟩

/-! ### What lasts -/

theorem keeps_tree_copyTarget {disk : Disk} (output : Path) (target : Config.CopyTarget) :
    Job.Keeps disk.KeepsTree (copyTarget output target) := by
  rw [copyTarget]
  refine Job.keeps_disk_bind fun now _ => ?_
  rcases now.entryAt target.path with error | ⟨location, entry⟩
  · exact Job.keeps_throw _
  dsimp only
  split
  · split
    · exact (Files.keeps_tree_copyContents _ _).andThen fun _ => Job.keeps_pure ()
    · exact (Files.keeps_tree_copyDirectory _ _).andThen fun _ => Job.keeps_pure ()
  · cases target.path.fileName? with
    | none => exact Job.keeps_pure ()
    | some name => exact Files.keeps_tree_copyFile _ _

theorem CopiesAll.keepsTree {disk : Disk} {targets : List Config.CopyTarget}
    (h : CopiesAll output targets start last) (hstart : disk.KeepsTree start.disk) :
    disk.KeepsTree last.disk := by
  induction h with
  | nil => exact hstart
  | @cons target _ now _ _ turn _ ih =>
    refine ih ?_
    have hturn := keeps_tree_copyTarget output target now hstart
    rwa [turn] at hturn

/-! ### Landing -/

/-- What is left of an entry after its turn: a file under the name of what the path leads to, with what
that held before the turn, or a directory of that name which mirrors the other one. -/
structure Lands (output : Path) (target : Config.CopyTarget) (name : String) (now later : Disk) :
    Prop where
  /-- A file that is copied onto itself is emptied. -/
  file : ∀ location content, now.find target.path = .ok (location, .file content) →
    ∃ goal, later.find (output.join ⟨name⟩)
        = .ok (goal, .file (if goal = location then [] else content)) ∧
      ∀ other, other ≠ goal → later.get? other = now.get? other ∨
        now.get? other = none ∧ later.get? other = some .directory
  directory : ∀ location goal, target.contentsOnly = false →
    Files.Separate now target.path (output.join ⟨name⟩) location goal →
    Files.Unlinked now location goal →
    later.find (output.join ⟨name⟩) = .ok (goal, .directory) ∧
      Files.Mirrored now (output.join ⟨name⟩) location goal later

theorem lands_of_copyTarget {name : String} (hname : target.path.fileName? = some name)
    (hrun : (copyTarget output target).run.run now = (.ok (), later)) :
    Lands output target name now.disk later.disk := by
  rw [copyTarget, run_bind, Job.run_disk] at hrun
  dsimp only at hrun
  cases hthere : now.disk.entryAt target.path with
  | error error =>
    rw [hthere] at hrun
    cases hrun
  | ok found =>
    obtain ⟨place, entry⟩ := found
    rw [hthere] at hrun
    dsimp only at hrun
    by_cases hdirectory : entry.isDirectory = true
    · obtain rfl : entry = .directory := by
        cases entry with
        | directory => rfl
        | file content => cases hdirectory
        | link pointee => cases hdirectory
      have hfind := Disk.find_of_entryAt (fun pointee => Entry.noConfusion) hthere
      refine ⟨fun location content hfile => ?_, fun location goal honly hseparate hunlinked => ?_⟩
      · rw [hfind] at hfile
        cases hfile
      rw [if_pos hdirectory, honly, if_neg Bool.false_ne_true, Files.copyDirectory, hname] at hrun
      obtain ⟨path, middle, hcopy, hpure⟩ := run_bind_eq_ok hrun
      cases hpure
      obtain ⟨count, middle, hcontents, hpure⟩ := run_bind_eq_ok hcopy
      cases hpure
      obtain ⟨hmirrored, hgoal⟩ := hseparate.mirrored_of_run hunlinked hcontents
      exact ⟨hgoal, hmirrored⟩
    · rw [if_neg hdirectory, hname] at hrun
      refine ⟨fun location content hfile => Files.found_of_copyFile hrun hfile,
        fun location goal _ hseparate _ => ?_⟩
      obtain ⟨content, hcontent⟩ := Files.exists_content_of_copyFile hrun hseparate.found
      cases hcontent

/-- If the copy list is worked off, every entry has its turn, in which it lands under the name of what its
path led to at first. That is its own last name, if this is not the name of a link. What is found after
the turn is found in the end, if later entries leave it and the links that lead to it alone. -/
theorem copyTargets_land (htree : start.disk.IsTree)
    (hwork : start.disk.get? start.disk.workDir = some .directory)
    (hrun : (copyTargets host config).run.run start = (.ok (), last))
    {before rest : List String} {written : String} (hcopy : config.build.copy = before ++ written :: rest) :
    (∀ name, IsEntryName name → (Path.mk written).segments.getLast? = some name → written ≠ "~" →
      (∀ place pointee,
        start.disk.entryAt (config.written host ⟨written⟩) ≠ .ok (place, .link pointee)) →
      (config.copyTarget host start.disk written).path.fileName? = some name) ∧
    (∀ location entry, start.disk.find (config.written host ⟨written⟩) = .ok (location, entry) →
      (config.copyTarget host start.disk written).path.fileName? = location.getLast?) ∧
    ∃ now later,
      CopiesAll config.build.output (before.map (config.copyTarget host start.disk)) start now ∧
      CopiesAll config.build.output (rest.map (config.copyTarget host start.disk)) later last ∧
      (∀ name, (config.copyTarget host start.disk written).path.fileName? = some name →
        Lands config.build.output (config.copyTarget host start.disk written) name now.disk later.disk) ∧
      ∀ path location entry, later.disk.find path = .ok (location, entry) →
        (∀ place ∈ location :: later.disk.linksTo path,
          last.disk.get? place = later.disk.get? place) →
        last.disk.find path = .ok (location, entry) := by
  have hall := copiesAll_of_run hrun
  rw [Config.copyTargets_eq, hcopy, List.map_append, List.map_cons] at hall
  obtain ⟨now, later, hbefore, hturn, hrest⟩ := hall.exists_turn
  refine ⟨fun name hname hlast hhome hlink =>
      Config.fileName?_copyTarget htree hwork hname hlast hhome hlink,
    fun location entry hfind => Config.fileName?_copyTarget_of_find htree hwork hfind,
    now, later, hbefore, hrest, fun name hname => lands_of_copyTarget hname hturn, ?_⟩
  intro path location entry hfind hsame
  have hturns : CopiesAll config.build.output [config.copyTarget host start.disk written] now later :=
    .cons hturn (.nil later)
  have hlater := hturns.keepsTree (hbefore.keepsTree (htree.keepsTree hwork))
  have hlast := hrest.keepsTree (hlater.isTree.keepsTree hlater.get?_workDir)
  have hways : later.disk.KeepsWays (later.disk.linksTo path) last.disk :=
    ⟨hlast.ways.workDir, hlast.ways.directory,
      fun link hlink => hsame link (List.mem_cons_of_mem _ hlink)⟩
  refine hways.find hfind ?_
  rintro content rfl
  rw [hsame location List.mem_cons_self]
  exact (Disk.find_eq_file_iff.mp hfind).2

/-! ### A pantry -/

section Pantry

/-- A file and a link to it beside the output. -/
def pantry : Disk where
  entries := [(["robots.txt"], .file [120]), (["alias.txt"], .link ⟨"robots.txt"⟩),
    (["public"], .directory)]
  workDir := []

def pantryConfig (copy : List String) : Config where
  path := ⟨"/quoia.toml"⟩
  build := { output := ⟨"/public"⟩, root := "home", copy }

/-- The pantry with a copy of the file. -/
def served : Disk :=
  (pantry.set ["public", "robots.txt"] (.file [])).set ["public", "robots.txt"] (.file [120])

theorem find_pantry : pantry.find ⟨"/robots.txt"⟩ = .ok (["robots.txt"], .file [120]) ∧
    pantry.find ⟨"/alias.txt"⟩ = .ok (["robots.txt"], .file [120]) ∧
    pantry.find ⟨"/public"⟩ = .ok (["public"], .directory) := by
  have hrobots : ∀ links, pantry.walk .reach links [] ["robots.txt"] false
      = .ok ⟨["robots.txt"], some (.file [120])⟩ :=
    fun _ => Disk.walk_reach_file (by decide) (by decide) (by decide) rfl
  refine ⟨Disk.find_eq_ok_iff.mpr ⟨rfl, hrobots _⟩, Disk.find_eq_ok_iff.mpr ⟨rfl, ?_⟩,
    Disk.find_eq_ok_iff.mpr ⟨rfl, ?_⟩⟩
  · change pantry.walk .reach (39 + 1) [] ["alias.txt"] false = _
    have halias : pantry.get? ([] ++ ["alias.txt"]) = some (.link ⟨"robots.txt"⟩) := rfl
    have hroute : Disk.routeFrom [] ⟨"robots.txt"⟩ = ⟨[], ["robots.txt"], false⟩ := rfl
    rw [Disk.walk, if_neg (by decide), if_neg (by decide), if_neg (by decide), if_neg (by decide)]
    simp only [halias, hroute]
    exact hrobots _
  · change pantry.walk .reach Disk.maxLinks [] ["public"] false = _
    rw [Disk.walk_reach_directory (by decide) (by decide) (by decide) rfl]
    exact Disk.walk.eq_1 ..

theorem copyFile_pantry :
    pantry.copyFile ⟨"/robots.txt"⟩ ⟨"/public/robots.txt"⟩ = .ok served := by
  have hroute : ∀ entries, Disk.route ⟨entries, []⟩ ⟨"/public/robots.txt"⟩
      = .ok ⟨[], ["public", "robots.txt"], false⟩ :=
    fun _ => rfl
  have hsource : ∀ entries, Disk.route ⟨entries, []⟩ ⟨"/robots.txt"⟩
      = .ok ⟨[], ["robots.txt"], false⟩ :=
    fun _ => rfl
  have hempty : pantry.writeBytes ⟨"/public/robots.txt"⟩ []
      = .ok (pantry.set ["public", "robots.txt"] (.file [])) := by
    rw [Disk.writeBytes, Disk.locate, pantry, hroute]
    cbv
  have hread : (pantry.set ["public", "robots.txt"] (.file [])).readBytes ⟨"/robots.txt"⟩
      = .ok [120] := by
    rw [Disk.readBytes, Disk.find, Disk.locate, Disk.set, pantry, hsource]
    cbv
  have hwrite : (pantry.set ["public", "robots.txt"] (.file [])).writeBytes ⟨"/public/robots.txt"⟩
      [120] = .ok served := by
    rw [Disk.writeBytes, Disk.locate, Disk.set, pantry, hroute]
    cbv
  rw [Disk.copyFile, find_pantry.1]
  change (pantry.writeBytes _ [] >>= _) = _
  rw [hempty]
  change (Disk.readBytes _ _ >>= _) = _
  rw [hread]
  exact hwrite

theorem gives_copyTarget_robots :
    Job.Gives (copyTarget ⟨"/public"⟩ ⟨⟨"/robots.txt"⟩, false⟩) pantry () served := by
  have hthere : pantry.entryAt ⟨"/robots.txt"⟩ = .ok (["robots.txt"], .file [120]) := by
    have hroute : pantry.route ⟨"/robots.txt"⟩ = .ok ⟨[], ["robots.txt"], false⟩ := rfl
    rw [Disk.entryAt, Disk.locate, hroute]
    cbv
  have hparent : (⟨"/public/robots.txt"⟩ : Path).parent? = some ⟨"/public"⟩ := by decide
  rw [copyTarget]
  refine Job.gives_disk_bind ?_
  rw [hthere]
  change Job.Gives (Files.copyFile ⟨"/robots.txt"⟩ ⟨"/public/robots.txt"⟩) pantry () served
  rw [Files.copyFile, hparent]
  exact Job.Gives.bind (Files.gives_makeDirectory (Disk.makeDirectories_of_find find_pantry.2.2))
    (Job.gives_change _ copyFile_pantry)

/-- An entry that leads to the file has the path of the file. -/
theorem gives_copyTargets_pantry {written : String}
    (hfind : pantry.find ((pantryConfig [written]).written Config.sampleHost ⟨written⟩)
      = .ok (["robots.txt"], .file [120]))
    (hslash : (Config.copyTarget (pantryConfig [written]) Config.sampleHost pantry
      written).contentsOnly = false) :
    Job.Gives (copyTargets Config.sampleHost (pantryConfig [written])) pantry () served := by
  have hpath : (pantryConfig [written]).locate Config.sampleHost pantry ⟨written⟩ = ⟨"/robots.txt"⟩ :=
    Disk.normalize_of_find hfind
  have htarget : (pantryConfig [written]).copyTarget Config.sampleHost pantry written
      = ⟨⟨"/robots.txt"⟩, false⟩ :=
    congr (congrArg Config.CopyTarget.mk hpath) hslash
  have hstep : Job.Gives (do
      copyTarget ⟨"/public"⟩ ⟨⟨"/robots.txt"⟩, false⟩
      pure (ForInStep.yield PUnit.unit)) pantry (ForInStep.yield PUnit.unit) served :=
    gives_copyTarget_robots.bind (Job.gives_pure _ _)
  rw [copyTargets]
  refine Job.gives_disk_bind ?_
  change Job.Gives (do
    forIn [Config.copyTarget (pantryConfig [written]) Config.sampleHost pantry written] PUnit.unit _
    pure PUnit.unit) pantry () served
  rw [htarget, List.forIn_cons]
  refine Job.Gives.bind (hstep.bind (?_ : Job.Gives _ _ PUnit.unit _)) (Job.gives_pure _ _)
  exact Job.gives_pure _ _

/-- A file is copied under its own name. -/
theorem pantry_served : ∃ last,
    (copyTargets Config.sampleHost (pantryConfig ["robots.txt"])).run.run ⟨pantry, []⟩ = (.ok (), last) ∧
    ∃ goal, last.disk.find ⟨"/public/robots.txt"⟩ = .ok (goal, .file [120]) := by
  have htree : pantry.IsTree := Disk.isTree_of_entries (by decide)
  have hfind : pantry.find ((pantryConfig ["robots.txt"]).written Config.sampleHost ⟨"robots.txt"⟩)
      = .ok (["robots.txt"], .file [120]) :=
    find_pantry.1
  obtain ⟨console, hrun⟩ := gives_copyTargets_pantry hfind rfl []
  refine ⟨_, hrun, ?_⟩
  obtain ⟨-, hname, now, later, hbefore, hrest, hlands, -⟩ :=
    @copyTargets_land _ _ _ _ htree rfl hrun [] [] "robots.txt" rfl
  cases hbefore
  cases hrest
  have hpath : ((pantryConfig ["robots.txt"]).copyTarget Config.sampleHost pantry "robots.txt").path
      = ⟨"/robots.txt"⟩ :=
    Disk.normalize_of_find hfind
  have hfile := (hlands "robots.txt" (hname _ _ hfind)).file ["robots.txt"] [120]
  rw [hpath] at hfile
  obtain ⟨goal, hgoal, -⟩ := hfile find_pantry.1
  -- The file itself was not emptied, so its copy stands elsewhere.
  have hapart : goal ≠ ["robots.txt"] := by
    rintro rfl
    have hemptied := (Disk.find_eq_file_iff.mp hgoal).2
    rw [if_pos rfl] at hemptied
    cases hemptied
  rw [if_neg hapart] at hgoal
  exact ⟨goal, hgoal⟩

/-- A link is copied under the name of the file that it leads to, and nothing has its own name. -/
theorem copyTargets_rename_links : ∃ last,
    (copyTargets Config.sampleHost (pantryConfig ["alias.txt"])).run.run ⟨pantry, []⟩ = (.ok (), last) ∧
    pantry.find ((pantryConfig ["alias.txt"]).written Config.sampleHost ⟨"alias.txt"⟩)
      = .ok (["robots.txt"], .file [120]) ∧
    last.disk.get? ["public", "alias.txt"] = none ∧
    last.disk.get? ["public", "robots.txt"] = some (.file [120]) := by
  have hfind : pantry.find ((pantryConfig ["alias.txt"]).written Config.sampleHost ⟨"alias.txt"⟩)
      = .ok (["robots.txt"], .file [120]) :=
    find_pantry.2.1
  obtain ⟨console, hrun⟩ := gives_copyTargets_pantry hfind rfl []
  exact ⟨_, hrun, hfind, rfl, rfl⟩

end Pantry

end Build

end SiteTree
