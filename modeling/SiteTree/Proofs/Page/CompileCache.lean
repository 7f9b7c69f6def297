import SiteTree.Page.Html
import SiteTree.Proofs.Component.Resolution
import SiteTree.Proofs.Disk.Directories
import SiteTree.Proofs.Outcome

/-!
# The cache of compiled markup

Compiling is compared with the same recursion without a cache. A cache is no more than a
shortcut as long as mounts that share a cache key have the same markup.

* `Compiler.transparent_iff` — a compiler answers every sequence of calls as it would without
  a cache exactly when the keys determine the markup.
* `Compiler.compileCache_transparent` — the keys do so when no two component tables share a
  name and a template, and fingerprints tell the values apart.
-/

namespace SiteTree.Compiler

/-! ### Compiling without a cache -/

mutual

/-- The markup of a mount, compiled from scratch. -/
def compileAfresh (compiler : Compiler) : Mount → Except Failure String
  | .mk declaration overrides imports children => do
    let html ← compiler.withScopeClass (.mk declaration overrides imports children)
    compiler.embedAfresh imports html

/-- Replaces the usages of imports, each of which is compiled from scratch. -/
def embedAfresh (compiler : Compiler) : List Mount → String → Except Failure String
  | [], html => return html
  | mount :: mounts, html =>
    match mount.declaration.selector with
    | none => compiler.embedAfresh mounts html
    | some selector => do
      let fragment ← (compiler.compileAfresh mount).mapError
        (Failure.within ("failed to compile import " ++ ticked mount.name))
      compiler.embedAfresh mounts (Markup.substitute html selector fragment)

end

theorem embedAfresh_nil (compiler : Compiler) (html : String) :
    compiler.embedAfresh [] html = .ok html := by
  rw [embedAfresh]
  rfl

theorem embedAfresh_cons_of_none {compiler : Compiler} {mount : Mount}
    (hselector : mount.declaration.selector = none) (mounts : List Mount) (html : String) :
    compiler.embedAfresh (mount :: mounts) html = compiler.embedAfresh mounts html := by
  rw [embedAfresh, hselector]

theorem embedAfresh_cons_of_ok {compiler : Compiler} {mount : Mount} {selector fragment : String}
    (hselector : mount.declaration.selector = some selector)
    (hmount : compiler.compileAfresh mount = .ok fragment) (mounts : List Mount) (html : String) :
    compiler.embedAfresh (mount :: mounts) html
      = compiler.embedAfresh mounts (Markup.substitute html selector fragment) := by
  rw [embedAfresh, hselector, hmount]
  rfl

theorem embedAfresh_cons_of_error {compiler : Compiler} {mount : Mount} {selector : String}
    {failure : Failure} (hselector : mount.declaration.selector = some selector)
    (hmount : compiler.compileAfresh mount = .error failure) (mounts : List Mount) (html : String) :
    compiler.embedAfresh (mount :: mounts) html
      = .error (failure.within ("failed to compile import " ++ ticked mount.name)) := by
  rw [embedAfresh, hselector, hmount]
  rfl

section Plain

variable {compiler : Compiler} {text : String} (hengine : compiler.engine = none)

include hengine

/-- Without an engine, a component without styles of its own starts from its template as it is. -/
theorem withScopeClass_plain {mount : Mount}
    (hread : Files.read compiler.disk mount.declaration.template = .ok text)
    (hstyles : mount.declaration.externalStyles = []) : compiler.withScopeClass mount = .ok text := by
  have hrendered : compiler.rendered mount = .ok text := by
    rw [rendered, hread, hengine]
    rfl
  rw [withScopeClass, hrendered, hstyles]
  rfl

theorem compileAfresh_plain {declaration : Declaration} {overrides : Option Json}
    {imports children : List Mount} (hread : Files.read compiler.disk declaration.template = .ok text)
    (hstyles : declaration.externalStyles = []) :
    compiler.compileAfresh (.mk declaration overrides imports children)
      = compiler.embedAfresh imports text := by
  have hscoped : compiler.withScopeClass (.mk declaration overrides imports children) = .ok text :=
    withScopeClass_plain hengine hread hstyles
  rw [compileAfresh, hscoped]
  rfl

end Plain

/-- The answers to calls that follow one another on one compiler. A call that fails does not
keep the next one from being made. -/
def answers (compiler : Compiler) : List Mount → Cache → List (Except Failure String)
  | [], _ => []
  | mount :: mounts, cache =>
    let run := (compiler.compile mount).run.run cache
    run.1 :: compiler.answers mounts run.2

/-- No sequence of calls for mounts of a tree shows that there is a cache. -/
def Transparent (compiler : Compiler) (root : Mount) : Prop :=
  ∀ calls : List Mount, (∀ mount ∈ calls, root.Reaches mount) →
    compiler.answers calls [] = calls.map compiler.compileAfresh

/-- Mounts of a tree that share a cache key have the same markup. -/
def KeysDetermine (compiler : Compiler) (root : Mount) : Prop :=
  ∀ first second, root.Reaches first → root.Reaches second → cacheKey first = cacheKey second →
    ∀ html, compiler.compileAfresh first = .ok html → compiler.compileAfresh second = .ok html

/-! ### Runs with a cache -/

section Run

variable {α : Type} (cache : Cache)

theorem run_lift (result : Except Failure α) : (lift result).run.run cache = (result, cache) := by
  cases result <;> rfl

theorem run_compile (compiler : Compiler) (declaration : Declaration) (overrides : Option Json)
    (imports children : List Mount) :
    (compiler.compile (.mk declaration overrides imports children)).run.run cache
      = match cache.lookup (cacheKey (.mk declaration overrides imports children)) with
        | some html => (.ok html, cache)
        | none =>
          match (lift (compiler.withScopeClass (.mk declaration overrides imports children))
              >>= compiler.embed imports).run.run cache with
          | (.ok html, later) =>
            (.ok html, (cacheKey (.mk declaration overrides imports children), html) :: later)
          | (.error failure, later) => (.error failure, later) := by
  rw [compile, run_bind]
  change (match cache.lookup _ with
    | some html => pure html
    | none => _ : Compilation String).run.run cache = _
  split
  · rfl
  · simp only [run_bind]
    rw [run_lift]
    cases compiler.withScopeClass (.mk declaration overrides imports children) with
    | error failure => rfl
    | ok html =>
      dsimp only
      generalize (compiler.embed imports html).run.run cache = result
      rcases result with ⟨_ | value, later⟩
      · rfl
      · rfl

/-- A component without styles and imports is compiled to its template, if there is no engine. -/
theorem run_compile_plain {cache : Cache} {compiler : Compiler} {declaration : Declaration}
    {children : List Mount} {text : String} (hengine : compiler.engine = none)
    (hread : Files.read compiler.disk declaration.template = .ok text)
    (hstyles : declaration.externalStyles = [])
    (hnew : cache.lookup (cacheKey (.mk declaration none [] children)) = none) :
    (compiler.compile (.mk declaration none [] children)).run.run cache
      = (.ok text, (cacheKey (.mk declaration none [] children), text) :: cache) := by
  have hrendered : compiler.rendered (.mk declaration none [] children) = .ok text := by
    rw [rendered]
    simp only [Mount.declaration, hread, hengine]
    rfl
  have hscoped : compiler.withScopeClass (.mk declaration none [] children) = .ok text := by
    rw [withScopeClass, hrendered]
    simp only [Mount.declaration, hstyles]
    rfl
  rw [run_compile, hnew]
  dsimp only
  rw [hscoped, run_bind, run_lift]
  dsimp only
  rw [embed]
  rfl

/-- What is compiled once is found in the cache. -/
theorem lookup_of_compile {compiler : Compiler} {mount : Mount} {html : String}
    (h : ((compiler.compile mount).run.run cache).1 = .ok html) :
    ((compiler.compile mount).run.run cache).2.lookup (cacheKey mount) = some html := by
  cases mount with
  | mk declaration overrides imports children =>
    rw [run_compile] at h ⊢
    split
    · next found hlookup =>
      rw [hlookup] at h
      cases h
      exact hlookup
    · next hlookup =>
      rw [hlookup] at h
      dsimp only at h
      split
      · next hrun =>
        rw [hrun] at h
        cases h
        exact List.lookup_cons_self
      · next hrun =>
        rw [hrun] at h
        cases h

end Run

/-! ### What a cache holds -/

section Sound

variable {compiler : Compiler} {root : Mount}

/-- Everything in the cache is the markup of all mounts that it is the cached markup of. -/
def Sound (compiler : Compiler) (root : Mount) (cache : Cache) : Prop :=
  ∀ mount, root.Reaches mount → ∀ html, cache.lookup (cacheKey mount) = some html →
    compiler.compileAfresh mount = .ok html

/-- From any sound cache the step gives the result and leaves the cache sound. -/
def Gives {α : Type} (compiler : Compiler) (root : Mount) (step : Compilation α)
    (result : Except Failure α) : Prop :=
  ∀ cache, Sound compiler root cache →
    (step.run.run cache).1 = result ∧ Sound compiler root (step.run.run cache).2

theorem gives_lift {α : Type} (result : Except Failure α) :
    Gives compiler root (lift result) result := by
  intro cache hsound
  rw [run_lift]
  exact ⟨rfl, hsound⟩

theorem Gives.bind {α β : Type} {step : Compilation α} {result : Except Failure α}
    {next : α → Compilation β} {nextResult : α → Except Failure β}
    (hstep : Gives compiler root step result)
    (hnext : ∀ value, Gives compiler root (next value) (nextResult value)) :
    Gives compiler root (step >>= next) (result >>= nextResult) := by
  intro cache hsound
  obtain ⟨hresult, hlater⟩ := hstep cache hsound
  rw [run_bind]
  generalize step.run.run cache = run at hresult hlater
  obtain ⟨answer, later⟩ := run
  subst hresult
  cases answer with
  | error failure => exact ⟨rfl, hlater⟩
  | ok value => exact hnext value later hlater

theorem Gives.adapt {α : Type} {step : Compilation α} {result : Except Failure α}
    (hstep : Gives compiler root step result) (context : Failure → Failure) :
    Gives compiler root (ExceptT.adapt context step) (result.mapError context) := by
  intro cache hsound
  obtain ⟨hresult, hlater⟩ := hstep cache hsound
  rw [run_adapt]
  exact ⟨by rw [hresult], hlater⟩

/-- An entry that is put into a sound cache for a mount has to be the markup of all mounts
with its key. -/
theorem Sound.cons (hkeys : compiler.KeysDetermine root) {cache : Cache}
    (hsound : Sound compiler root cache) {mount : Mount} (hreaches : root.Reaches mount)
    {html : String} (hhtml : compiler.compileAfresh mount = .ok html) :
    Sound compiler root ((cacheKey mount, html) :: cache) := by
  intro other hother found hfound
  rw [Disk.lookup_cons_ite] at hfound
  split at hfound
  · next heq =>
    cases hfound
    exact hkeys mount other hreaches hother (eq_of_beq heq).symm html hhtml
  · exact hsound other hother found hfound

/-! ### One call -/

mutual

theorem gives_compile (hkeys : compiler.KeysDetermine root) :
    ∀ mount, root.Reaches mount →
      Gives compiler root (compiler.compile mount) (compiler.compileAfresh mount)
  | .mk declaration overrides imports children, hreaches => by
    intro cache hsound
    have hembed (html : String) :=
      gives_embed hkeys imports (fun import_ hmem => hreaches.imported hmem) html
    have hfresh := (gives_lift (compiler.withScopeClass
      (.mk declaration overrides imports children))).bind hembed cache hsound
    rw [run_compile]
    split
    · next html hlookup => exact ⟨(hsound _ hreaches html hlookup).symm, hsound⟩
    · next hlookup =>
      rw [compileAfresh]
      obtain ⟨hresult, hlater⟩ := hfresh
      split
      · next html later hrun =>
        rw [hrun] at hresult hlater
        refine ⟨hresult, hlater.cons hkeys hreaches ?_⟩
        rw [compileAfresh]
        exact hresult.symm
      · next failure later hrun =>
        rw [hrun] at hresult hlater
        exact ⟨hresult, hlater⟩

theorem gives_embed (hkeys : compiler.KeysDetermine root) :
    ∀ mounts, (∀ mount ∈ mounts, root.Reaches mount) → ∀ html,
      Gives compiler root (compiler.embed mounts html) (compiler.embedAfresh mounts html)
  | [], _, html => by
    rw [embed, embedAfresh]
    exact gives_lift (.ok html)
  | mount :: mounts, hreaches, html => by
    have hrest := gives_embed hkeys mounts fun other hmem =>
      hreaches other (List.mem_cons_of_mem _ hmem)
    rw [embed, embedAfresh]
    cases mount.declaration.selector with
    | none => exact hrest html
    | some selector =>
      have hmount := gives_compile hkeys mount (hreaches mount List.mem_cons_self)
      exact (hmount.adapt _).bind fun fragment => hrest _

end

/-! ### Sequences of calls -/

theorem answers_of_sound (hkeys : compiler.KeysDetermine root) {calls : List Mount}
    (hcalls : ∀ mount ∈ calls, root.Reaches mount) {cache : Cache}
    (hsound : Sound compiler root cache) :
    compiler.answers calls cache = calls.map compiler.compileAfresh := by
  induction calls generalizing cache with
  | nil => rfl
  | cons mount calls ih =>
    obtain ⟨hanswer, hlater⟩ := gives_compile hkeys mount (hcalls mount List.mem_cons_self)
      cache hsound
    rw [answers, List.map_cons, hanswer,
      ih (fun other hmem => hcalls other (List.mem_cons_of_mem _ hmem)) hlater]

/-- The cache is not noticed exactly when the keys determine the markup. -/
theorem transparent_iff (compiler : Compiler) (root : Mount) :
    compiler.Transparent root ↔ compiler.KeysDetermine root := by
  constructor
  · intro htransparent first second hfirst hsecond hkey html hhtml
    have hcalls : ∀ mount ∈ [first, second], root.Reaches mount := by
      rintro mount (_ | ⟨_, _ | ⟨_, ⟨⟩⟩⟩)
      · exact hfirst
      · exact hsecond
    have hanswers := htransparent [first, second] hcalls
    simp only [answers, List.map_cons, List.map_nil, List.cons.injEq, and_true] at hanswers
    obtain ⟨hfirstAnswer, hsecondAnswer⟩ := hanswers
    rw [hhtml] at hfirstAnswer
    -- The second call finds what the first one has left.
    have hlookup := lookup_of_compile [] hfirstAnswer
    rw [hkey] at hlookup
    rw [← hsecondAnswer]
    cases second with
    | mk declaration overrides imports children =>
      rw [run_compile, hlookup]
  · intro hkeys calls hcalls
    exact answers_of_sound hkeys hcalls fun _ _ _ h => by cases h

end Sound

/-! ### Resolved trees -/

/-- Mounts of a tree that share a cache key are rendered alike, whatever the template. -/
def FingerprintsTell (compiler : Compiler) (root : Mount) : Prop :=
  ∀ first second, root.Reaches first → root.Reaches second → cacheKey first = cacheKey second →
    ∀ engine ∈ compiler.engine, ∀ template,
      engine template (first.values.getD (.object []))
        = engine template (second.values.getD (.object []))

theorem rendered_eq_of_sameComponent {compiler : Compiler} {first second : Mount}
    (hsame : first.SameComponent second)
    (hvalues : ∀ engine ∈ compiler.engine, ∀ template,
      engine template (first.values.getD (.object []))
        = engine template (second.values.getD (.object []))) :
    compiler.rendered first = compiler.rendered second := by
  rw [rendered, rendered, hsame.declaration]
  cases hengine : compiler.engine with
  | none => rfl
  | some engine => simp only [hvalues engine hengine]

/-- Without a cache, the markup of a mount is that of its component with its values. -/
theorem compileAfresh_eq_of_sameComponent {compiler : Compiler} {first second : Mount}
    (hsame : first.SameComponent second)
    (hvalues : ∀ engine ∈ compiler.engine, ∀ template,
      engine template (first.values.getD (.object []))
        = engine template (second.values.getD (.object []))) :
    compiler.compileAfresh first = compiler.compileAfresh second := by
  have hscoped : compiler.withScopeClass first = compiler.withScopeClass second := by
    rw [withScopeClass, withScopeClass, rendered_eq_of_sameComponent hsame hvalues, Mount.key,
      Mount.key, hsame.declaration]
  obtain ⟨declaration, overrides, imports, children⟩ := first
  obtain ⟨declaration', overrides', imports', children'⟩ := second
  obtain rfl : imports = imports' := hsame.imports
  rw [compileAfresh, compileAfresh, hscoped]

theorem keysDetermine_of_keysApart {manifest : Manifest} {key : String} {root : Mount}
    (h : manifest.resolve key = .ok root) {compiler : Compiler} (hapart : manifest.KeysApart)
    (htell : compiler.FingerprintsTell root) : compiler.KeysDetermine root := by
  intro first second hfirst hsecond hkey html hhtml
  have hsame := Manifest.sameComponent_of_key h hapart hfirst hsecond (congrArg CacheKey.key hkey)
  rw [← compileAfresh_eq_of_sameComponent hsame (htell first second hfirst hsecond hkey)]
  exact hhtml

/-- The cache of a compiler is not noticed on a resolved tree exactly when the cache keys
determine the markup. They do so when no two tables share a name and a template, and
fingerprints tell values apart. -/
theorem compileCache_transparent {manifest : Manifest} {key : String} {root : Mount}
    (h : manifest.resolve key = .ok root) (compiler : Compiler) :
    (compiler.Transparent root ↔ compiler.KeysDetermine root) ∧
      (manifest.KeysApart → compiler.FingerprintsTell root → compiler.Transparent root) := by
  refine ⟨compiler.transparent_iff root, fun hapart htell => ?_⟩
  exact (compiler.transparent_iff root).mpr (keysDetermine_of_keysApart h hapart htell)

/-! ### Two boxes

A page with two components embedded that have the template `box.html`. One of them embeds a
leaf in it. -/

section Boxes

/-- The tables, given the name of the second box. -/
def boxTables (second : String) : Config.Components :=
  [("home", {
      name := some "index", template := ⟨"home.html"⟩, imports := [⟨"a", none⟩, ⟨"b", none⟩] }),
    ("a", {
      name := some "box", template := ⟨"box.html"⟩, selector := some "x-a",
      imports := [⟨"leaf", none⟩] }),
    ("b", { name := some second, template := ⟨"box.html"⟩, selector := some "x-b" }),
    ("leaf", { template := ⟨"leaf.html"⟩, selector := some "x-leaf" })]

def boxes (second : String) : Manifest :=
  ⟨boxTables second, (Path.mk "/srv/site").join⟩

/-- The component of one of the tables. -/
def box (second key : String) (imports : List Mount) : Mount :=
  .mk ((boxes second).declaration key (((boxTables second).lookup key).getD ⟨none, ⟨""⟩, none,
    [], [], [], [], [], [], none⟩)) none imports []

def boxPage (second : String) : Mount :=
  box second "home" [box second "a" [box second "leaf" []], box second "b" []]

theorem resolve_boxes (second : String) :
    (boxes second).resolve "home" = .ok (boxPage second) := by
  rfl

/-- The files of the page. -/
def boxDisk : Disk where
  entries :=
    [(["srv"], .directory), (["srv", "site"], .directory),
      (["srv", "site", "home.html"], .file (Text.encodeUtf8 "<x-a/><x-b/>")),
      (["srv", "site", "box.html"], .file (Text.encodeUtf8 "<p><x-leaf/></p>")),
      (["srv", "site", "leaf.html"], .file (Text.encodeUtf8 "<i></i>"))]
  workDir := []

/-- The compiler of the page, which uses templates as they are. -/
def boxCompiler (second : String) : Compiler where
  layout := ⟨.ofMount ⟨"out"⟩ (boxPage second), []⟩
  engine := none
  disk := boxDisk

/-- Two boxes with names of their own are compiled as if there was no cache. -/
theorem frame_transparent :
    (boxes "frame").resolve "home" = .ok (boxPage "frame") ∧
      (boxCompiler "frame").Transparent (boxPage "frame") := by
  have hapart : (boxes "frame").KeysApart := Manifest.keysApart_of_nodup (by decide)
  have htell : (boxCompiler "frame").FingerprintsTell (boxPage "frame") := by
    intro first second _ _ _ engine hengine
    cases hengine
  exact ⟨resolve_boxes "frame",
    (compileCache_transparent (resolve_boxes "frame") (boxCompiler "frame")).2 hapart htell⟩

theorem read_boxDisk {path : Path} {text : String} (name : String)
    (hroute : boxDisk.route path = .ok ⟨[], ["srv", "site", name], false⟩)
    (hhere : name ≠ ".") (hup : name ≠ "..") (hshort : ¬ Disk.maxName < name.utf8ByteSize)
    (hfile : boxDisk.get? ["srv", "site", name] = some (.file (Text.encodeUtf8 text))) :
    Files.read boxDisk path = .ok text := by
  have hwalk : boxDisk.walk .reach Disk.maxLinks [] ["srv", "site", name] false
      = .ok ⟨["srv", "site", name], some (.file (Text.encodeUtf8 text))⟩ :=
    (Disk.walk_reach_directory (by decide) (by decide) (by decide) rfl).trans <|
      (Disk.walk_reach_directory (by decide) (by decide) (by decide) rfl).trans <|
        Disk.walk_reach_file hhere hup hshort hfile
  have hfind : boxDisk.find path = .ok (["srv", "site", name], .file (Text.encodeUtf8 text)) := by
    rw [Disk.find, Disk.locate, hroute]
    simp [hwalk, bind, Except.bind]
  rw [Files.read, Disk.readText, Disk.readBytes, hfind]
  simp [Text.decodeUtf8_encodeUtf8, bind, Except.bind]

theorem compileAfresh_box {second key text : String} {imports : List Mount} {path : Path}
    (hread : Files.read boxDisk path = .ok text)
    (hpath : (box second key imports).declaration.template = path)
    (hstyles : (box second key imports).declaration.externalStyles = []) :
    (boxCompiler second).compileAfresh (box second key imports)
      = (boxCompiler second).embedAfresh imports text := by
  have htemplate : Files.read boxDisk (box second key imports).declaration.template = .ok text :=
    hpath ▸ hread
  exact compileAfresh_plain rfl htemplate hstyles

theorem substitute_leaf :
    Markup.substitute "<p><x-leaf/></p>" "x-leaf" "<i></i>" = "<p><i></i></p>" := by
  have hmatch : Markup.firstMatch (Markup.opening "x-leaf".toList) "<p><x-leaf/></p>".toList
      = some ("<p>".toList, "<x-leaf/>".toList, "</p>".toList) := rfl
  have hlast : Markup.firstMatch (Markup.opening "x-leaf".toList)
      (Markup.afterUsage "x-leaf".toList "<x-leaf/>".toList "</p>".toList) = none := rfl
  rw [Markup.substitute, Markup.substituteText_of_some hmatch,
    Markup.substituteText_of_none hlast]
  rfl

/-- Two boxes with one name share their cache key, but only one of them holds the leaf. -/
theorem box_not_transparent :
    (boxes "box").resolve "home" = .ok (boxPage "box") ∧
      ¬ (boxCompiler "box").Transparent (boxPage "box") := by
  refine ⟨resolve_boxes "box", ?_⟩
  rw [transparent_iff]
  intro hkeys
  have hleaf : (boxCompiler "box").compileAfresh (box "box" "leaf" []) = .ok "<i></i>" :=
    compileAfresh_box
      (read_boxDisk "leaf.html" rfl (by decide) (by decide) (by decide) rfl) rfl rfl
  have hbox : Files.read boxDisk ⟨"/srv/site/box.html"⟩ = .ok "<p><x-leaf/></p>" :=
    read_boxDisk "box.html" rfl (by decide) (by decide) (by decide) rfl
  have hempty : (boxCompiler "box").compileAfresh (box "box" "b" []) = .ok "<p><x-leaf/></p>" :=
    compileAfresh_box hbox rfl rfl
  have hfull : (boxCompiler "box").compileAfresh (box "box" "a" [box "box" "leaf" []])
      = .ok "<p><i></i></p>" := by
    refine (compileAfresh_box hbox rfl rfl).trans ?_
    rw [embedAfresh]
    change (do
      let fragment ← ((boxCompiler "box").compileAfresh (box "box" "leaf" [])).mapError _
      (boxCompiler "box").embedAfresh []
        (Markup.substitute "<p><x-leaf/></p>" "x-leaf" fragment)) = _
    rw [hleaf]
    change (boxCompiler "box").embedAfresh [] (Markup.substitute _ _ "<i></i>") = _
    rw [substitute_leaf, embedAfresh]
    rfl
  have hsame := hkeys (box "box" "b" []) (box "box" "a" [box "box" "leaf" []])
    (.imported .refl (List.mem_cons_of_mem _ List.mem_cons_self))
    (.imported .refl List.mem_cons_self) rfl _ hempty
  rw [hfull] at hsame
  exact absurd hsame (by simp)

end Boxes

end SiteTree.Compiler
