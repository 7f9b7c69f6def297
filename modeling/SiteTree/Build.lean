import SiteTree.Config.Load
import SiteTree.Page.Html
import SiteTree.Page.Output
import SiteTree.Page.Scripts
import SiteTree.Page.Styles
import SiteTree.Template.Render

/-!
# Building a site

A build takes its steps in order and stops at the first one that fails. Every step is
announced on the console before it is taken and confirmed after it.
-/

namespace SiteTree.Build

/-- Takes a step under the name of a module. -/
def step {α : Type} (module name : String) (job : Job α) : Job α := do
  Job.log module (name ++ "...")
  let value ← tryCatch job fun failure => do
    Job.log "error" ("failed step '" ++ name ++ "': " ++ failure.message)
    throw (failure.within ("failed step '" ++ name ++ "'"))
  Job.log module ("✔ " ++ name)
  return value

/-! ### The parts that settings choose -/

/-- The engine that renders templates. -/
def engine : Config.Templating → Option TemplateEngine
  | .verbatim => none
  | .handlebars => some Template.render

/-- Runs stylesheets through a command that is told where to look for further ones. -/
def preprocessWith (host : Host) (directory : Option Path) (command : List String)
    (includePaths : List Path) (css : String) : Job String :=
  let arguments := includePaths.map fun path => "--load-path=" ++ path.text
  tryCatch (Command.pipe host directory command arguments css) fun failure =>
    throw (.of (.build (.preprocess (command.headD "preprocessor") failure.message)))

def styleTransform : Config.Transform → Path → String → Except Failure String
  | .nothing, _, text => .ok text
  | .minify, _, text => minifyStyles text

def scriptTransform : Config.Transform → Path → String → Except Failure String
  | .nothing, _, text => .ok text
  | .minify, _, text => .ok (minifyScripts text)

def styleOptions (host : Host) (config : Config) : StyleOptions :=
  let styles := config.build.styles
  { preprocess :=
      match styles.preprocessing with
      | .nothing => none
      | .command =>
        some (preprocessWith host (some config.directory) styles.command styles.includePaths)
    transform := styleTransform styles.transform }

def scriptOptions (config : Config) : ScriptOptions :=
  let scripts := config.build.scripts
  { position := scripts.position, transform := scriptTransform scripts.transform }

/-- Lays the site out, with identifiers made as the setting says. -/
def layOut (ids : Config.ScopeIds) (root : Mount) (output : Path) : Job Layout :=
  match ids with
  | .hashed => Layout.walk root output (Registry.new hashedIds ())
  | .sequential => Layout.walk root output (Registry.new sequentialIds 0)

/-! ### Steps -/

/-- Makes sure that there is an output directory, and that it is a new one unless the old one
is to be kept. -/
def prepareOutput (config : Config) : Job Unit := do
  if config.build.clean then Files.removeDirectory config.build.output
  Files.makeDirectory config.build.output

/-- The markup of all pages, compiled with a cache of its own. -/
def compilePages (config : Config) (layout : Layout) : Job (Pages .compiled) := do
  let compiler : Compiler :=
    { layout, engine := engine config.build.templating, disk := ← Job.disk }
  let (compiled, _) := compiler.compilePages.run.run []
  Job.ofExcept compiled

def copyAssets (config : Config) : Job Unit :=
  match config.build.assets with
  | some assets => do
    let _ ← Files.copyContents assets config.build.output
  | none => pure ()

/-- Copies a file or directory into the output. -/
def copyTarget (output : Path) (target : Config.CopyTarget) : Job Unit := do
  match (← Job.disk).entryAt target.path with
  | .error _ => throw (.plain ("path " ++ ticked target.path.text ++ " does not exist"))
  | .ok (_, entry) =>
    if entry.isDirectory then
      if target.contentsOnly then
        let _ ← Files.copyContents target.path output
      else
        let _ ← Files.copyDirectory target.path output
    else
      match target.path.fileName? with
      | some name => Files.copyFile target.path (output.join ⟨name⟩)
      | none => pure ()

def copyTargets (host : Host) (config : Config) : Job Unit := do
  for target in config.copyTargets host (← Job.disk) do
    copyTarget config.build.output target

/-! ### Runs -/

/-- Builds the whole site. -/
def buildSite (host : Host) (config : Config) : Job Unit := do
  let output := config.build.output
  Job.log "build" ("building " ++ ticked config.path.text)
  let root ←
    match config.rootMount host (← Job.disk) with
    | .ok root => pure root
    | .error error => throw (.of (.manifest error))
  step "clean" "clean output directory" (prepareOutput config)
  let layout ←
    step "layout" "assign page directories" (layOut config.build.scopeIds root output)
  Job.log "layout" (toString layout.pages.length ++ " pages")
  let compiled ← step "html" "compile html" (compilePages config layout)
  let styled ←
    step "styles" "build styles" (bundleStyles (styleOptions host config) layout compiled)
  let scripted ←
    step "scripts" "build scripts" (bundleScripts (scriptOptions config) layout styled)
  let written ← step "write" "write html" (writePages layout scripted config.build.minify)
  step "assets" "copy static assets" (copyAssets config)
  step "copy" "copy root files" (copyTargets host config)
  Job.log "done" (toString written ++ " pages written to " ++ ticked output.text)

/-- Deletes the output. -/
def cleanSite (config : Config) : Job Unit :=
  step "clean" "delete output directory" (Files.removeDirectory config.build.output)

end SiteTree.Build
