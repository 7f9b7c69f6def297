/-!
# UTF-8

Core decides whether bytes are UTF-8 and decodes them. This module says where bytes that
are not UTF-8 go wrong, and decodes them with replacement characters.

* `decodeUtf8_encodeUtf8` — decoding gives back the text that was encoded.
-/

namespace SiteTree.Text

/-- The bytes that encode a text. -/
def encodeUtf8 (text : String) : List UInt8 :=
  text.toUTF8.data.toList

/-- Is the byte a continuation byte? -/
def isTail (b : UInt8) : Bool :=
  0x80 ≤ b && b ≤ 0xBF

/-- The number of continuation bytes that a first byte asks for, with the range allowed for
the first of them; `none` for a byte that begins no character. -/
def leadByte? (b : UInt8) : Option (Nat × UInt8 × UInt8) :=
  if b < 0x80 then some (0, 0x80, 0xBF)
  else if 0xC2 ≤ b ∧ b ≤ 0xDF then some (1, 0x80, 0xBF)
  else if b = 0xE0 then some (2, 0xA0, 0xBF)
  else if b = 0xED then some (2, 0x80, 0x9F)
  else if 0xE1 ≤ b ∧ b ≤ 0xEF then some (2, 0x80, 0xBF)
  else if b = 0xF0 then some (3, 0x90, 0xBF)
  else if b = 0xF4 then some (3, 0x80, 0x8F)
  else if 0xF1 ≤ b ∧ b ≤ 0xF3 then some (3, 0x80, 0xBF)
  else none

/-- The first place where bytes are not UTF-8. -/
inductive Utf8Error where
  /-- `length` bytes at `index` can begin no character -/
  | invalid (index length : Nat)
  /-- the bytes end within the character that begins at `index` -/
  | incomplete (index : Nat)
  deriving DecidableEq, Repr

def Utf8Error.message : Utf8Error → String
  | .invalid index length =>
    "invalid utf-8 sequence of " ++ toString length ++ " bytes from index " ++ toString index
  | .incomplete index => "incomplete utf-8 byte sequence from index " ++ toString index

/-- How a character that needs `more` continuation bytes goes on: how many bytes of it there
are, and whether it is whole (`none` when the bytes ended). -/
def tailLength : Nat → List UInt8 → Nat × Option Bool
  | 0, _ => (0, some true)
  | _ + 1, [] => (0, none)
  | more + 1, b :: rest =>
    if isTail b then
      let (n, whole) := tailLength more rest
      (n + 1, whole)
    else (0, some false)

/-- The length of the character that begins with `b`, and whether it is whole. -/
def charLength (b : UInt8) (rest : List UInt8) : Nat × Option Bool :=
  match leadByte? b with
  | none => (1, some false)
  | some (0, _, _) => (1, some true)
  | some (more + 1, low, high) =>
    match rest with
    | [] => (1, none)
    | second :: rest =>
      if low ≤ second ∧ second ≤ high then
        let (n, whole) := tailLength more rest
        (n + 2, whole)
      else (1, some false)

/-- The first error of bytes that begin at `index`. While `skip` is positive the bytes belong
to a character that is known to be whole. -/
def firstError? (index : Nat) : Nat → List UInt8 → Option Utf8Error
  | _, [] => none
  | skip + 1, _ :: rest => firstError? (index + 1) skip rest
  | 0, b :: rest =>
    match charLength b rest with
    | (n, some true) => firstError? (index + 1) (n - 1) rest
    | (n, some false) => some (.invalid index n)
    | (_, none) => some (.incomplete index)

/-- Bytes decoded as UTF-8. Where core refuses them, the error says why. -/
def decodeUtf8 (bytes : List UInt8) : Except Utf8Error String :=
  match String.fromUTF8? ⟨bytes.toArray⟩ with
  | some text => .ok text
  | none => .error ((firstError? 0 0 bytes).getD (.incomplete 0))

theorem decodeUtf8_encodeUtf8 (text : String) : decodeUtf8 (encodeUtf8 text) = .ok text := by
  have h : String.fromUTF8? ⟨(encodeUtf8 text).toArray⟩ = some text := by
    rw [encodeUtf8, Array.toArray_toList]
    exact dif_pos text.isValidUTF8
  rw [decodeUtf8, h]

/-- The bytes with each stretch that begins no character replaced by U+FFFD. -/
def repairUtf8 : Nat → List UInt8 → List UInt8
  | _, [] => []
  | skip + 1, b :: rest => b :: repairUtf8 skip rest
  | 0, b :: rest =>
    match charLength b rest with
    | (n, some true) => b :: repairUtf8 (n - 1) rest
    | (n, some false) => 0xEF :: 0xBF :: 0xBD :: dropBad (n - 1) rest
    | (_, none) => [0xEF, 0xBF, 0xBD]
where
  /-- Leaves out the rest of a stretch that begins no character. -/
  dropBad : Nat → List UInt8 → List UInt8
    | _, [] => []
    | skip + 1, _ :: rest => dropBad skip rest
    | 0, b :: rest =>
      match charLength b rest with
      | (n, some true) => b :: repairUtf8 (n - 1) rest
      | (n, some false) => 0xEF :: 0xBF :: 0xBD :: dropBad (n - 1) rest
      | (_, none) => [0xEF, 0xBF, 0xBD]

/-- Bytes decoded as UTF-8 with U+FFFD for what is not. -/
def decodeUtf8Lossy (bytes : List UInt8) : String :=
  (String.fromUTF8? ⟨(repairUtf8 0 bytes).toArray⟩).getD ""

/-- The longest beginning of a text that takes at most `limit` bytes. -/
def truncateBytes (limit : Nat) : List Char → List Char
  | [] => []
  | c :: text =>
    if c.utf8Size ≤ limit then c :: truncateBytes (limit - c.utf8Size) text else []

end SiteTree.Text
