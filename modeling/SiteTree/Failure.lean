import SiteTree.Component.Basic
import SiteTree.Disk.Basic

/-!
# Failures

A failure has a cause and the contexts it passed through on its way out. Messages are
worded here and nowhere else.
-/

namespace SiteTree

/-- Why a stage of a build fails. -/
inductive BuildError where
  | read (path : Path) (error : DiskError)
  | write (path : Path) (error : DiskError)
  | preprocess (engine detail : String)
  | render (template : Path) (detail : String)
  /-- the root of the file system was to be deleted -/
  | rootPath (path : Path)
  deriving Repr

/-- Why a tree of pages has no layout. -/
inductive LayoutError where
  | duplicateName (parent name : String)
  | duplicatePage (key : Key)
  | invalidName (name : String)
  | unknownScope (key : Key)
  deriving DecidableEq, Repr

/-- Why component tables are no tree. -/
inductive ManifestError where
  | unknownComponent (key referencedBy : String)
  /-- the keys of a cycle, the first one repeated at the end -/
  | importCycle (keys : List String)
  | missingRoot (key : String)
  deriving DecidableEq, Repr

/-- Why a configuration is refused. -/
inductive ConfigError where
  | read (path : Path) (error : DiskError)
  /-- the text is no TOML, or not of the right shape -/
  | text (detail : String)
  | validation (detail : String)
  deriving Repr

/-- The cause of a failure. -/
inductive Cause where
  | build (error : BuildError)
  | layout (error : LayoutError)
  | manifest (error : ManifestError)
  | config (error : ConfigError)
  /-- anything else, as its message and the messages of what caused it in turn -/
  | other (message : String) (causes : List String)
  deriving Repr

/-- A cause, and the contexts around it, the outermost first. -/
structure Failure where
  contexts : List String
  cause : Cause
  deriving Repr

/-! ### Messages -/

/-- A text between grave accents. -/
def ticked (text : String) : String :=
  "`" ++ text ++ "`"

/-- The message of an error and those of its own causes. -/
def BuildError.messages : BuildError → List String
  | .read path error => ["could not read " ++ ticked path.text, error.message]
  | .write path error => ["could not write " ++ ticked path.text, error.message]
  | .preprocess engine detail => [engine ++ " failed: " ++ detail]
  | .render template detail =>
    ["could not render template " ++ ticked template.text ++ ": " ++ detail]
  | .rootPath path => ["refusing to delete filesystem root " ++ ticked path.text]

def LayoutError.message : LayoutError → String
  | .duplicateName parent name =>
    "page " ++ ticked parent ++ " has two children named " ++ ticked name
  | .duplicatePage key =>
    "component " ++ ticked key.text ++ " is mounted as a page more than once"
  | .invalidName name => ticked name ++ " is not a valid directory name for a child page"
  | .unknownScope key => "no scope id assigned to " ++ ticked key.text

def ManifestError.message : ManifestError → String
  | .unknownComponent key referencedBy =>
    "unknown component " ++ ticked key ++ " referenced by " ++ ticked referencedBy
  | .importCycle keys => "component cycle: " ++ " -> ".intercalate keys
  | .missingRoot key => "root component " ++ ticked key ++ " is not declared in [components]"

def ConfigError.messages : ConfigError → List String
  | .read path error => ["IO error when reading " ++ ticked path.text, error.message]
  | .text detail => ["Config file parsing error", detail]
  | .validation detail => ["Config validation error: " ++ detail]

def Cause.messages : Cause → List String
  | .build error => error.messages
  | .layout error => [error.message]
  | .manifest error => [error.message]
  | .config error => error.messages
  | .other message causes => message :: causes

namespace Failure

def of (cause : Cause) : Failure :=
  ⟨[], cause⟩

/-- A failure that is only its message. -/
def plain (message : String) : Failure :=
  of (.other message [])

/-- The failure as seen from one context further out. -/
def within (context : String) (failure : Failure) : Failure :=
  { failure with contexts := context :: failure.contexts }

/-- All messages, the outermost first. -/
def messages (failure : Failure) : List String :=
  failure.contexts ++ failure.cause.messages

/-- The failure on one line. -/
def message (failure : Failure) : String :=
  ": ".intercalate failure.messages

/-- A text whose lines after the first are indented. -/
def indentLines (indent : String) (text : String) : String :=
  String.ofList (text.toList.flatMap fun c => if c = '\n' then '\n' :: indent.toList else [c])

/-- The causes below a headline: a single one is indented, several are numbered. -/
def causeLines : List String → List String
  | [cause] => ["    " ++ indentLines "    " cause]
  | causes => causes.zipIdx.map fun (cause, i) =>
      let number := toString i
      String.ofList (List.replicate (5 - number.length) ' ') ++ number ++ ": "
        ++ indentLines "       " cause

/-- The failure as a report: the outermost message, and the others below it as its causes. -/
def report (failure : Failure) : String :=
  match failure.messages with
  | [] => "Error: "
  | headline :: causes =>
    let below := if causes.isEmpty then [] else "" :: "Caused by:" :: causeLines causes
    "\n".intercalate (("Error: " ++ headline) :: below)

end Failure

end SiteTree
