/-!
# Paths

A path keeps its text as it was written, because that text shows in messages and in
component keys. What a path names is read from its components: repeated slashes, slashes at
the end and `.` segments (a leading one apart) do not count.

* `components_of_name` — a text without slashes, other than `.` and `..` and the empty text,
  is one ordinary component.
-/

namespace SiteTree

/-- A path, by its text. -/
structure Path where
  text : String
  deriving DecidableEq, Repr, Inhabited

namespace Path

/-! ### Segments -/

/-- The first stretch of a text without slashes, and the stretches after it. -/
def splitSlashes : List Char → List Char × List (List Char)
  | [] => ([], [])
  | c :: text =>
    let (first, more) := splitSlashes text
    if c = '/' then ([], first :: more) else (c :: first, more)

def isAbsolute (path : Path) : Bool :=
  path.text.toList.head? == some '/'

/-- What stands between the slashes of a path, the slash of an absolute path apart. -/
def segments (path : Path) : List String :=
  let text := if path.isAbsolute then path.text.toList.tail else path.text.toList
  let (first, more) := splitSlashes text
  (first :: more).map String.ofList

/-- The path with the given segments. -/
def ofSegments (absolute : Bool) (segments : List String) : Path :=
  ⟨(if absolute then "/" else "") ++ "/".intercalate segments⟩

/-- The segments that name nothing: empty ones and `.`. -/
def isIdle (segment : String) : Bool :=
  segment == "" || segment == "."

/-! ### Components -/

inductive Component where
  | root
  /-- a leading `.` -/
  | here
  /-- `..` -/
  | up
  | name (name : String)
  deriving DecidableEq, Repr

def Component.ofSegment (segment : String) : Component :=
  if segment = ".." then .up else .name segment

/-- The components of a path. -/
def components (path : Path) : List Component :=
  let named := (path.segments.filter fun s => !isIdle s).map Component.ofSegment
  if path.isAbsolute then .root :: named
  else if path.segments.head? = some "." then .here :: named
  else named

/-- Does `path` begin with all the components of `ancestor`? -/
def startsWith (path ancestor : Path) : Bool :=
  ancestor.components.isPrefixOf path.components

/-- The last component, when it is an ordinary name. -/
def fileName? (path : Path) : Option String :=
  match path.components.getLast? with
  | some (.name name) => some name
  | _ => none

/-! ### Joining and parents -/

/-- `path` read from the directory `base`; an absolute path stands for itself. -/
def join (base path : Path) : Path :=
  if path.isAbsolute then path
  else if base.text.isEmpty then path
  else if base.text.toList.getLast? = some '/' then ⟨base.text ++ path.text⟩
  else ⟨base.text ++ "/" ++ path.text⟩

/-- Reversed segments without the idle ones in front. The first segment of a relative path
counts even when it is `.`. -/
def dropIdle (absolute : Bool) : List String → List String
  | [] => []
  | [first] => if first = "" ∨ (absolute ∧ first = ".") then [] else [first]
  | segment :: rest => if isIdle segment then dropIdle absolute rest else segment :: rest

/-- The path without its last component; `none` for the root and for the empty path. -/
def parent? (path : Path) : Option Path :=
  match dropIdle path.isAbsolute path.segments.reverse with
  | [] => none
  | _ :: rest =>
    some (ofSegments path.isAbsolute (dropIdle path.isAbsolute rest).reverse)

/-- The parents of a path, the nearest first. A path has no more parents than segments. -/
def parents (path : Path) : List Path :=
  go path.segments.length path
where
  go : Nat → Path → List Path
    | 0, _ => []
    | fuel + 1, path =>
      match path.parent? with
      | none => []
      | some parent => parent :: go fuel parent

/-- The path with a leading `~`, alone or before a slash, replaced by the home directory. -/
def expandHome (path home : Path) : Path :=
  match path.text.toList with
  | '~' :: rest =>
    if rest.isEmpty ∨ rest.head? = some '/' then ⟨home.text ++ String.ofList rest⟩ else path
  | _ => path

/-! ### Lemmas -/

theorem splitSlashes_of_notMem {text : List Char} (h : '/' ∉ text) :
    splitSlashes text = (text, []) := by
  induction text with
  | nil => rfl
  | cons c text ih =>
    simp only [List.mem_cons, not_or] at h
    simp [splitSlashes, ih h.2, Ne.symm h.1]

theorem components_of_name {name : String} (hslash : '/' ∉ name.toList) (hempty : name ≠ "")
    (hhere : name ≠ ".") (hup : name ≠ "..") :
    (Path.mk name).components = [.name name] := by
  have habs : (Path.mk name).isAbsolute = false := by
    cases h : name.toList with
    | nil => simp [isAbsolute, h]
    | cons c rest =>
      simp only [h, List.mem_cons, not_or] at hslash
      simp [isAbsolute, h, Ne.symm hslash.1]
  have hsegments : (Path.mk name).segments = [name] := by
    simp [segments, habs, splitSlashes_of_notMem hslash]
  simp [components, habs, hsegments, isIdle, hempty, hhere, Component.ofSegment, hup]

end Path

end SiteTree
