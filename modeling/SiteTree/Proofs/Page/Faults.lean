import SiteTree.Proofs.Page.Arena

/-!
# Faults of page trees

The pages of a tree are met in depth-first order. Three things can be wrong with a page when it is met,
and they are looked at in this order: its name, the names of the children before it, and the pages met
before it. Only the last of these looks further than the page above.

* `Layout.faults_arrivals_eq_nil_iff` — a tree has no faults exactly when all names are proper and no
  page is there twice.
* `Layout.run_foldlM_arrive` — laying out stops at the first fault.
* `Layout.walk_refuses_faulty_trees` — so exactly the trees with a fault are refused, with their first.
-/

namespace SiteTree

/-! ### Trees without faults -/

namespace Mount

/-- Every child is named by one ordinary component of a path, and no two have the same name. -/
def ProperlyNamed (children : List Mount) : Prop :=
  (∀ child ∈ children, ∃ name, (Path.mk child.name).components = [.name name]) ∧
    (children.map Mount.name).Nodup

/-- A tree in which all children are properly named and no component is mounted twice. -/
structure LaidOutWell (root : Mount) : Prop where
  keys : (root.preorder.map Mount.key).Nodup
  names : root.EveryPage ProperlyNamed

end Mount

namespace Disk

/-- All the directories can be made, one after the other. -/
def MakesAll (disk : Disk) : List Path → Prop
  | [] => True
  | path :: paths => ∃ after, disk.makeDirectories path = (none, after) ∧ after.MakesAll paths

theorem MakesAll.of_append {disk : Disk} {first second : List Path}
    (h : disk.MakesAll (first ++ second)) : disk.MakesAll first := by
  induction first generalizing disk with
  | nil => trivial
  | cons path paths ih =>
    obtain ⟨after, hmake, hothers⟩ := h
    exact ⟨after, hmake, ih hothers⟩

end Disk

namespace Layout

/-! ### Pages as they are met -/

/-- A page as it is met, beside children of the page above it: the name of that page and those of the
children before. The root stands beside nothing. -/
structure Arrival where
  page : Page
  beside : Option (String × List String)

mutual

/-- The pages of a tree as they are met. -/
def arrivals (directory : Path) (beside : Option (String × List String)) : Mount → List Arrival
  | .mk declaration overrides imports children =>
    ⟨⟨.mk declaration overrides imports children, directory⟩, beside⟩
      :: arrivalsBelow directory declaration.name [] children

/-- The pages of the trees below a page as they are met. -/
def arrivalsBelow (directory : Path) (parent : String) (siblings : List String) :
    List Mount → List Arrival
  | [] => []
  | child :: children =>
    arrivals (directory.join ⟨child.name⟩) (some (parent, siblings)) child
      ++ arrivalsBelow directory parent (siblings ++ [child.name]) children

end

namespace Arrival

/-- What is wrong with the name of the page. -/
def nameFaults (arrival : Arrival) : List LayoutError :=
  match arrival.beside with
  | none => []
  | some (parent, siblings) =>
    (if isPageName arrival.page.name then [] else [.invalidName arrival.page.name])
      ++ if arrival.page.name ∈ siblings then [.duplicateName parent arrival.page.name] else []

/-- What is wrong with the page if those of some keys were met before. -/
def faults (met : List Key) (arrival : Arrival) : List LayoutError :=
  arrival.nameFaults ++ if arrival.page.key ∈ met then [.duplicatePage arrival.page.key] else []

end Arrival

/-- All that is wrong with pages that are met in turn. -/
def faults (met : List Key) : List Arrival → List LayoutError
  | [] => []
  | arrival :: arrivals => arrival.faults met ++ faults (arrival.page.key :: met) arrivals

/-- There is room for the pages before the first fault, as there is where the directories of all pages
can be made. -/
def HasRoom (disk : Disk) (met : List Key) (arrivals : List Arrival) : Prop :=
  ∀ sound, sound <+: arrivals → faults met sound = [] →
    disk.MakesAll (sound.map fun arrival => arrival.page.directory)

theorem hasRoom_of_makesAll {disk : Disk} {arrivals : List Arrival} (met : List Key)
    (h : disk.MakesAll (arrivals.map fun arrival => arrival.page.directory)) :
    HasRoom disk met arrivals := by
  rintro sound ⟨others, rfl⟩ -
  rw [List.map_append] at h
  exact h.of_append

mutual

theorem map_page_arrivals : ∀ (mount : Mount) (directory : Path)
    (beside : Option (String × List String)),
    (arrivals directory beside mount).map Arrival.page = (PageTree.ofMount directory mount).pages
  | .mk declaration overrides imports children, directory, beside => by
    rw [arrivals, PageTree.ofMount, PageTree.pages, List.map_cons, map_page_arrivalsBelow children]

theorem map_page_arrivalsBelow : ∀ (children : List Mount) (directory : Path) (parent : String)
    (siblings : List String),
    (arrivalsBelow directory parent siblings children).map Arrival.page
      = PageTree.forestPages (PageTree.forestOf directory children)
  | [], _, _, _ => rfl
  | child :: children, directory, parent, siblings => by
    rw [arrivalsBelow, PageTree.forestOf, PageTree.forestPages, List.map_append,
      map_page_arrivals child, map_page_arrivalsBelow children]

end

/-! ### The walk as a run over the pages -/

/-- Looks at the name of a page, unless it is the root. -/
def inspectBeside (beside : Option (String × List String)) (name : String) : Job Unit :=
  match beside with
  | none => pure ()
  | some (parent, siblings) => inspect parent siblings name

/-- Meets a page: its name is looked at, and then it is entered. -/
def arrive (entered : List Key) (arrival : Arrival) : Job (List Key) := do
  inspectBeside arrival.beside arrival.page.name
  enter arrival.page.directory arrival.page.name arrival.page.key entered

mutual

/-- The visit of a page whose name was looked at meets the pages of its tree in turn. -/
theorem inspectBeside_bind_visit : ∀ (mount : Mount) (directory : Path)
    (beside : Option (String × List String)) (entered : List Key),
    (do
      inspectBeside beside mount.name
      visit directory mount entered)
      = (arrivals directory beside mount).foldlM arrive entered
  | .mk declaration overrides imports children, directory, beside, entered => by
    rw [arrivals, List.foldlM_cons, visit, arrive]
    simp only [visitChildren_eq_foldlM children, bind_assoc]
    rfl

theorem visitChildren_eq_foldlM : ∀ (children : List Mount) (directory : Path) (parent : String)
    (siblings : List String) (entered : List Key),
    visitChildren directory parent siblings children entered
      = (arrivalsBelow directory parent siblings children).foldlM arrive entered
  | [], _, _, _, _ => rfl
  | child :: children, directory, parent, siblings, entered => by
    rw [visitChildren, arrivalsBelow, List.foldlM_append,
      ← inspectBeside_bind_visit child _ (some (parent, siblings)) entered]
    simp only [visitChildren_eq_foldlM children, bind_assoc]
    rfl

end

theorem visit_eq_foldlM (mount : Mount) (directory : Path) (entered : List Key) :
    visit directory mount entered = (arrivals directory none mount).foldlM arrive entered :=
  inspectBeside_bind_visit mount directory none entered

section Runs

variable {session : Session} {met : List Key}

/-- A name with a fault is refused for the first one. -/
theorem run_inspectBeside (arrival : Arrival) :
    (inspectBeside arrival.beside arrival.page.name).run.run session
      = (match arrival.nameFaults with
          | [] => .ok ()
          | fault :: _ => .error (.of (.layout fault)), session) := by
  unfold inspectBeside Arrival.nameFaults
  rcases arrival.beside with _ | ⟨parent, siblings⟩
  · rfl
  · dsimp only
    by_cases hname : isPageName arrival.page.name = true
    · rw [inspect, if_neg (by simp [hname]), if_pos hname]
      by_cases hnew : arrival.page.name ∈ siblings
      · rw [if_pos hnew, if_pos hnew]
        rfl
      · rw [if_neg hnew, if_neg hnew]
        rfl
    · rw [inspect, if_pos (by simp [hname]), if_neg hname]
      rfl

theorem run_enter_of_mem {directory : Path} {name : String} {key : Key} (h : key ∈ met) :
    (enter directory name key met).run.run session
      = (.error (.of (.layout (.duplicatePage key))), session) := by
  rw [enter, if_pos h]
  rfl

/-- A page with a fault is refused for the first one, and nothing is changed. -/
theorem run_arrive_of_faults {arrival : Arrival} {fault : LayoutError} {others : List LayoutError}
    (h : arrival.faults met = fault :: others) :
    (arrive met arrival).run.run session = (.error (.of (.layout fault)), session) := by
  rw [arrive, run_bind, run_inspectBeside]
  rw [Arrival.faults] at h
  cases hnames : arrival.nameFaults with
  | cons first rest =>
    rw [hnames] at h
    cases h
    rfl
  | nil =>
    rw [hnames, List.nil_append] at h
    split at h
    · next hkey =>
      cases h
      exact run_enter_of_mem hkey
    · cases h

/-- A page without faults is entered if its directory can be made. -/
theorem run_arrive {arrival : Arrival} {after : Disk} (h : arrival.faults met = [])
    (hmake : session.disk.makeDirectories arrival.page.directory = (none, after)) :
    (arrive met arrival).run.run session
      = (.ok (arrival.page.key :: met), { session with disk := after }) := by
  obtain ⟨hnames, hkeys⟩ := List.append_eq_nil_iff.mp h
  have hkey : arrival.page.key ∉ met := by
    intro hmem
    rw [if_pos hmem] at hkeys
    cases hkeys
  rw [arrive, run_bind, run_inspectBeside, hnames]
  exact run_enter hkey hmake

/-- Meeting pages for which there is room succeeds if they have no faults, and otherwise it fails with
the first one. -/
theorem run_foldlM_arrive {arrivals : List Arrival} (hroom : HasRoom session.disk met arrivals) :
    match faults met arrivals with
    | [] => ∃ keys later, (arrivals.foldlM arrive met).run.run session = (.ok keys, later)
    | fault :: _ => ∃ later, (arrivals.foldlM arrive met).run.run session
        = (.error (.of (.layout fault)), later) := by
  induction arrivals generalizing session met with
  | nil => exact ⟨met, session, rfl⟩
  | cons arrival arrivals ih =>
    rw [faults, List.foldlM_cons, run_bind]
    cases hfaults : arrival.faults met with
    | cons fault others =>
      rw [run_arrive_of_faults hfaults]
      exact ⟨session, rfl⟩
    | nil =>
      obtain ⟨after, hmake, -⟩ := hroom [arrival] (List.prefix_append [arrival] arrivals)
        (by simp [faults, hfaults])
      rw [run_arrive hfaults hmake]
      refine ih fun sound hsound hnone => ?_
      obtain ⟨other, hother, hothers⟩ := hroom (arrival :: sound)
        (List.cons_prefix_cons.mpr ⟨rfl, hsound⟩) (by simp [faults, hfaults, hnone])
      obtain ⟨-, rfl⟩ := Prod.mk.inj (hmake.symm.trans hother)
      exact hothers

end Runs

/-! ### Trees with and without faults -/

theorem faults_eq_nil_iff (met : List Key) (arrivals : List Arrival) :
    faults met arrivals = []
      ↔ (∀ arrival ∈ arrivals, arrival.nameFaults = []) ∧
        (arrivals.map fun arrival => arrival.page.key).Nodup ∧
        ∀ arrival ∈ arrivals, arrival.page.key ∉ met := by
  induction arrivals generalizing met with
  | nil => simp [faults]
  | cons arrival arrivals ih =>
    have hkey : (if arrival.page.key ∈ met then [LayoutError.duplicatePage arrival.page.key] else [])
        = [] ↔ arrival.page.key ∉ met := by
      simp
    rw [faults, List.append_eq_nil_iff, ih, Arrival.faults, List.append_eq_nil_iff, hkey,
      List.forall_mem_cons, List.forall_mem_cons, List.map_cons, List.nodup_cons]
    simp only [List.mem_map, List.mem_cons, not_or, not_exists, not_and]
    constructor
    · rintro ⟨⟨hname, hmet⟩, hnames, hnodup, hothers⟩
      exact ⟨⟨hname, hnames⟩, ⟨fun other hmem => (hothers other hmem).1, hnodup⟩, hmet,
        fun other hmem => (hothers other hmem).2⟩
    · rintro ⟨⟨hname, hnames⟩, ⟨hnew, hnodup⟩, hmet, hothers⟩
      exact ⟨⟨hname, hmet⟩, hnames, hnodup, fun other hmem => ⟨hnew other hmem, hothers other hmem⟩⟩

theorem isPageName_iff (name : String) :
    isPageName name = true ↔ ∃ component, (Path.mk name).components = [.name component] := by
  constructor
  · intro h
    obtain ⟨component, hname⟩ := isName_of_isPageName h
    exact ⟨component, hname.components⟩
  · rintro ⟨component, hcomponents⟩
    rw [isPageName, hcomponents]

theorem nameFaults_beside_eq_nil_iff {page : Page} {parent : String} {siblings : List String} :
    Arrival.nameFaults ⟨page, some (parent, siblings)⟩ = []
      ↔ isPageName page.name = true ∧ page.name ∉ siblings := by
  simp [Arrival.nameFaults]

theorem properlyNamed_cons (child : Mount) (children : List Mount) :
    Mount.ProperlyNamed (child :: children)
      ↔ isPageName child.name = true ∧ child.name ∉ children.map Mount.name ∧
        Mount.ProperlyNamed children := by
  rw [Mount.ProperlyNamed, List.forall_mem_cons, List.map_cons, List.nodup_cons, isPageName_iff,
    Mount.ProperlyNamed]
  constructor
  · rintro ⟨⟨hname, hnames⟩, hnew, hnodup⟩
    exact ⟨hname, hnew, hnames, hnodup⟩
  · rintro ⟨hname, hnew, hnames, hnodup⟩
    exact ⟨⟨hname, hnames⟩, hnew, hnodup⟩

mutual

/-- The names of a tree have no faults exactly when that of its root has none and all children are
properly named. -/
theorem nameFaults_arrivals_eq_nil_iff : ∀ (mount : Mount) (directory : Path)
    (beside : Option (String × List String)),
    (∀ arrival ∈ arrivals directory beside mount, arrival.nameFaults = [])
      ↔ Arrival.nameFaults ⟨⟨mount, directory⟩, beside⟩ = [] ∧ mount.EveryPage Mount.ProperlyNamed
  | .mk declaration overrides imports children, directory, beside => by
    have hnew : ∀ child ∈ children, child.name ∉ ([] : List String) :=
      fun child _ => List.not_mem_nil
    rw [arrivals, List.forall_mem_cons, nameFaults_arrivalsBelow_eq_nil_iff children, Mount.EveryPage,
      and_iff_right hnew]

theorem nameFaults_arrivalsBelow_eq_nil_iff : ∀ (children : List Mount) (directory : Path)
    (parent : String) (siblings : List String),
    (∀ arrival ∈ arrivalsBelow directory parent siblings children, arrival.nameFaults = [])
      ↔ Mount.ProperlyNamed children ∧ (∀ child ∈ children, child.name ∉ siblings) ∧
        Mount.AllPages Mount.ProperlyNamed children
  | [], _, _, _ => by simp [arrivalsBelow, Mount.ProperlyNamed, Mount.AllPages]
  | child :: children, directory, parent, siblings => by
    rw [arrivalsBelow, List.forall_mem_append, nameFaults_arrivals_eq_nil_iff child,
      nameFaults_arrivalsBelow_eq_nil_iff children, nameFaults_beside_eq_nil_iff,
      properlyNamed_cons, List.forall_mem_cons, Mount.AllPages]
    simp only [List.mem_append, List.mem_singleton, not_or, List.mem_map, not_exists, not_and]
    constructor
    · rintro ⟨⟨⟨hname, hnew⟩, hbelow⟩, hproper, hothers, hall⟩
      exact ⟨⟨hname, fun other hmem => (hothers other hmem).2, hproper⟩,
        ⟨hnew, fun other hmem => (hothers other hmem).1⟩, hbelow, hall⟩
    · rintro ⟨⟨hname, hapart, hproper⟩, ⟨hnew, hothers⟩, hbelow, hall⟩
      exact ⟨⟨⟨hname, hnew⟩, hbelow⟩, hproper,
        fun other hmem => ⟨hothers other hmem, hapart other hmem⟩, hall⟩

end

/-- A tree has no faults exactly when it is laid out well. -/
theorem faults_arrivals_eq_nil_iff (root : Mount) (output : Path) :
    faults [] (arrivals output none root) = [] ↔ root.LaidOutWell := by
  have hkeys : (arrivals output none root).map (fun arrival => arrival.page.key)
      = root.preorder.map Mount.key := by
    rw [← PageTree.map_mount_pages output root, ← map_page_arrivals root output none, List.map_map,
      List.map_map]
    rfl
  have hnames : (∀ arrival ∈ arrivals output none root, arrival.nameFaults = [])
      ↔ root.EveryPage Mount.ProperlyNamed := by
    rw [nameFaults_arrivals_eq_nil_iff root]
    exact and_iff_right rfl
  rw [faults_eq_nil_iff, hnames, hkeys]
  constructor
  · rintro ⟨hnames, hkeys, -⟩
    exact ⟨hkeys, hnames⟩
  · rintro ⟨hkeys, hnames⟩
    exact ⟨hnames, hkeys, fun _ _ => List.not_mem_nil⟩

/-- Where there is room for the pages, exactly the trees that are not laid out well are refused, each
for its first fault: the pages are met in depth-first order, and of each the name is looked at first, then
the names of the children before it, and then whether it was met before. The trees that are laid out
well are not refused if the generator has an identifier for every component. -/
theorem walk_refuses_faulty_trees {σ : Type} {root : Mount} {output : Path} {registry : Registry σ}
    {session : Session} (hroom : HasRoom session.disk [] (arrivals output none root)) :
    ((∃ later, assignAll registry (scopeOrder (PageTree.ofMount output root).pages []) = .ok later) →
      ((∃ layout later, (walk root output registry).run.run session = (.ok layout, later))
        ↔ root.LaidOutWell)) ∧
    (¬ root.LaidOutWell → ∃ fault others later,
      faults [] (arrivals output none root) = fault :: others ∧
      (walk root output registry).run.run session = (.error (.of (.layout fault)), later)) := by
  have hrun := run_foldlM_arrive hroom
  rw [← visit_eq_foldlM] at hrun
  rw [walk, run_bind, ← faults_arrivals_eq_nil_iff root output]
  cases hfaults : faults [] (arrivals output none root) with
  | nil =>
    rw [hfaults] at hrun
    obtain ⟨keys, later, hvisit⟩ := hrun
    refine ⟨?_, fun hfaulty => absurd rfl hfaulty⟩
    rintro ⟨registry, hassign⟩
    rw [hvisit]
    dsimp only
    rw [run_bind, Job.run_ofExcept, hassign]
    exact iff_of_true ⟨_, _, rfl⟩ rfl
  | cons fault others =>
    rw [hfaults] at hrun
    obtain ⟨later, hvisit⟩ := hrun
    rw [hvisit]
    refine ⟨fun _ => iff_of_false ?_ (List.cons_ne_nil fault others), fun _ => ⟨_, _, _, rfl, rfl⟩⟩
    rintro ⟨layout, last, h⟩
    cases h

theorem makeDirectories_docs_again :
    (folders [["out"], ["out", "docs"]]).makeDirectories ((Path.mk "out").join ⟨"docs"⟩)
      = (none, folders [["out"], ["out", "docs"]]) := by
  have hplace : (folders [["out"], ["out", "docs"]]).Names ((Path.mk "out").join ⟨"docs"⟩)
      ⟨[], ["out", "docs"], false⟩ ["out"] "docs" :=
    names_below_out rfl (by decide) (by decide) (by decide)
  refine Disk.makeDirectories_of_directory hplace ?_ rfl
  exact (Disk.walk_reach_directory (by decide) (by decide) (by decide) rfl).trans
    ((Disk.walk_reach_directory (by decide) (by decide) (by decide) rfl).trans
      (Disk.walk.eq_1 ..))

/-- The shelf `news` is laid out, and a shelf with `docs` twice is refused for the second one. -/
theorem shelf_docs_refused :
    (∃ layout later, (walk (shelf "news") ⟨"out"⟩ (Registry.new sequentialIds 0)).run.run
      ⟨folders [], []⟩ = (.ok layout, later)) ∧
    ∃ later, (walk (shelf "docs") ⟨"out"⟩ (Registry.new sequentialIds 0)).run.run ⟨folders [], []⟩
      = (.error (.of (.layout (.duplicateName "index" "docs"))), later) := by
  have hnews : faults [] (arrivals ⟨"out"⟩ none (shelf "news")) = [] := rfl
  have hdocs : faults [] (arrivals ⟨"out"⟩ none (shelf "docs")) = [.duplicateName "index" "docs"] := rfl
  have hroomNews : HasRoom (Session.mk (folders []) []).disk [] (arrivals ⟨"out"⟩ none (shelf "news")) :=
    hasRoom_of_makesAll [] ⟨_, makeDirectories_out, _, makeDirectories_docs, _, makeDirectories_news,
      trivial⟩
  have hroomDocs : HasRoom (Session.mk (folders []) []).disk [] (arrivals ⟨"out"⟩ none (shelf "docs")) :=
    hasRoom_of_makesAll [] ⟨_, makeDirectories_out, _, makeDirectories_docs, _,
      makeDirectories_docs_again, trivial⟩
  constructor
  · exact ((walk_refuses_faulty_trees hroomNews).1 ⟨_, rfl⟩).mpr
      ((faults_arrivals_eq_nil_iff _ _).mp hnews)
  · have hfaulty : ¬ (shelf "docs").LaidOutWell := by
      rw [← faults_arrivals_eq_nil_iff _ ⟨"out"⟩, hdocs]
      exact List.cons_ne_nil _ _
    obtain ⟨fault, others, later, hfaults, hwalk⟩ :=
      (walk_refuses_faulty_trees hroomDocs).2 hfaulty
    obtain ⟨rfl, -⟩ := List.cons.inj (hdocs.symm.trans hfaults)
    exact ⟨later, hwalk⟩

end Layout

end SiteTree
