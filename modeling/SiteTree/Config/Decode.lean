import SiteTree.Config.Basic
import SiteTree.Failure
import SiteTree.Toml.Document

/-!
# Configurations from TOML

A record is a table of its fields, or an array that gives the values of its first fields in
order. A table may hold no fields that the record does not know; what stands behind the last
field of an array does not count.
-/

namespace SiteTree.Config

/-- Reads a value of some type, or says what it expected. -/
abbrev Decoder (α : Type) := Toml → Except String α

namespace Decoder

def string : Decoder String
  | .string value => .ok value
  | _ => .error "expected a string"

def filePath : Decoder Path := fun value =>
  (string value).map Path.mk

def boolean : Decoder Bool
  | .boolean value => .ok value
  | _ => .error "expected a boolean"

def list {α : Type} (decode : Decoder α) : Decoder (List α)
  | .array items => items.mapM decode
  | _ => .error "expected an array"

def present {α : Type} (decode : Decoder α) : Decoder (Option α) := fun value =>
  (decode value).map some

def json : Decoder Json := fun value =>
  .ok value.toJson

/-- Is this an array or a table with nothing in it? -/
def isHollow : Toml → Bool
  | .array items => items.isEmpty
  | .table fields => fields.isEmpty
  | _ => false

/-- A word, or a table whose only field has it as its name and nothing as its value. -/
def setting {α : Type} [Setting α] : Decoder α := fun value =>
  let read (word : String) : Except String α :=
    match Setting.ofWord? word with
    | some value => .ok value
    | none => .error ("unknown variant " ++ word)
  match value with
  | .string word => read word
  | .table [(word, value)] => do
    let setting ← read word
    if isHollow value then return setting else throw "expected nothing"
  | _ => .error "expected a word"

end Decoder

/-! ### Records -/

/-- The fields that a record was given. -/
abbrev Record := List (String × Toml)

/-- The fields of a record with the given field names. -/
def Record.of (names : List String) : Toml → Except String Record
  | .table fields =>
    match fields.find? fun field => !names.contains field.1 with
    | some (name, _) => .error ("unknown field " ++ name)
    | none => .ok fields
  | .array items => .ok (names.zip items)
  | _ => .error "expected a table"

namespace Record

def get? {α : Type} (record : Record) (name : String) (decode : Decoder α) :
    Except String (Option α) :=
  (record.lookup name).mapM decode

/-- The field of a given name, or a default where it is missing. -/
def getD {α : Type} (record : Record) (name : String) (decode : Decoder α) (default : α) :
    Except String α :=
  (record.get? name decode).map fun value => value.getD default

/-- The field of a given name, which must be there. -/
def get {α : Type} (record : Record) (name : String) (decode : Decoder α) : Except String α := do
  match ← record.get? name decode with
  | some value => return value
  | none => throw ("missing field " ++ name)

end Record

open Decoder

/-! ### The parts of a configuration -/

def styleSettings : Decoder StyleSettings := fun value => do
  let record ← Record.of ["preprocessor", "command", "include_paths", "transform"] value
  let default : StyleSettings := {}
  return {
    preprocessing := ← record.getD "preprocessor" setting default.preprocessing
    command := ← record.getD "command" (list string) default.command
    includePaths := ← record.getD "include_paths" (list filePath) default.includePaths
    transform := ← record.getD "transform" setting default.transform }

def scriptSettings : Decoder ScriptSettings := fun value => do
  let record ← Record.of ["position", "transform"] value
  let default : ScriptSettings := {}
  return {
    position := ← record.getD "position" setting default.position
    transform := ← record.getD "transform" setting default.transform }

def buildFields : List String :=
  ["output", "root", "assets", "copy", "clean", "minify", "templating", "scope_ids", "styles",
    "scripts"]

def buildSettings : Decoder BuildSettings := fun value => do
  let record ← Record.of buildFields value
  let default : BuildSettings := {}
  return {
    output := ← record.getD "output" filePath default.output
    root := ← record.getD "root" string default.root
    assets := ← record.getD "assets" (present filePath) default.assets
    copy := ← record.getD "copy" (list string) default.copy
    clean := ← record.getD "clean" boolean default.clean
    minify := ← record.getD "minify" boolean default.minify
    templating := ← record.getD "templating" setting default.templating
    scopeIds := ← record.getD "scope_ids" setting default.scopeIds
    styles := ← record.getD "styles" styleSettings default.styles
    scripts := ← record.getD "scripts" scriptSettings default.scripts }

/-- A key, or a table of a key and the values to use. Other fields of the table do not
count. -/
def reference : Decoder Reference
  | .string key => .ok { key }
  | .table fields => do
    let record : Record := fields
    return { key := ← record.get "component" string, overrides := ← record.get "values" json }
  | _ => .error "expected a reference to a component"

def componentFields : List String :=
  ["name", "template", "selector", "imports", "external_styles", "external_scripts",
    "global_styles", "global_scripts", "children", "values"]

def componentTable : Decoder ComponentTable := fun value => do
  let record ← Record.of componentFields value
  return {
    name := ← record.get? "name" string
    template := ← record.get "template" filePath
    selector := ← record.get? "selector" string
    imports := ← record.getD "imports" (list reference) []
    externalStyles := ← record.getD "external_styles" (list filePath) []
    externalScripts := ← record.getD "external_scripts" (list filePath) []
    globalStyles := ← record.getD "global_styles" (list filePath) []
    globalScripts := ← record.getD "global_scripts" (list filePath) []
    children := ← record.getD "children" (list reference) []
    values := ← record.get? "values" json }

/-- The tables of the components, in the order of their keys. -/
def componentTables : Decoder Components
  | .table fields =>
    (Json.sortFields fields).mapM fun (key, value) => do return (key, ← componentTable value)
  | _ => .error "expected a table"

def decode (record : Toml) : Except String Config := do
  let record ← Record.of ["build", "components"] record
  return {
    build := ← record.getD "build" buildSettings {}
    components := ← record.getD "components" componentTables [] }

end SiteTree.Config

namespace SiteTree

/-- The configuration that a text writes. -/
def Config.ofText (text : String) : Except Failure Config :=
  match Toml.parse text >>= fun fields => Config.decode (.table fields) with
  | .ok config => .ok config
  | .error detail => .error (.of (.config (.text detail)))

end SiteTree
