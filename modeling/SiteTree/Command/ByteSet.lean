import SiteTree.Command.Quoting

/-!
# Sets of bytes

A set is written as bytes, ranges, classes and repeated bytes, with backslashes for bytes that
are hard to write. Its bytes have an order, in which those of one set are replaced by those of
another.
-/

namespace SiteTree.Command

/-- A part of a set. -/
inductive SetPart where
  | byte (b : UInt8)
  | range (first last : UInt8)
  | group (name : String) (bytes : List UInt8)
  /-- a byte that stands for all bytes equal to it, which are none but itself -/
  | same (b : UInt8)
  /-- a byte so many times, or as often as it takes -/
  | repeated (b : UInt8) (count : Option Nat)

def byteRange (first last : UInt8) : List UInt8 :=
  (List.range (last.toNat + 1 - first.toNat)).map fun i => first + i.toUInt8

/-- The classes of bytes. -/
def byteClasses : List (String × List UInt8) :=
  let upper := byteRange 0x41 0x5A
  let lower := byteRange 0x61 0x7A
  let digit := byteRange 0x30 0x39
  let punct := byteRange 0x21 0x2F ++ byteRange 0x3A 0x40 ++ byteRange 0x5B 0x60
    ++ byteRange 0x7B 0x7E
  [("alnum", digit ++ upper ++ lower), ("alpha", upper ++ lower), ("blank", [9, 0x20]),
    ("cntrl", byteRange 0 0x1F ++ [0x7F]), ("digit", digit), ("graph", byteRange 0x21 0x7E),
    ("lower", lower), ("print", byteRange 0x20 0x7E), ("punct", punct),
    ("space", byteRange 9 13 ++ [0x20]), ("upper", upper),
    ("xdigit", digit ++ byteRange 0x41 0x46 ++ byteRange 0x61 0x66)]

/-! ### Escapes -/

/-- The value of up to `limit` octal digits in front of a text, and the text behind them. -/
def octal (limit : Nat) (value : Nat) : List UInt8 → Nat × List UInt8
  | [] => (value, [])
  | b :: rest =>
    match limit with
    | 0 => (value, b :: rest)
    | limit + 1 =>
      if 0x30 ≤ b ∧ b ≤ 0x37 then octal limit (8 * value + (b.toNat - 0x30)) rest
      else (value, b :: rest)

/-- The byte that a letter behind a backslash stands for. -/
def escapedByte? (b : UInt8) : Option UInt8 :=
  match Char.ofUInt8 b with
  | 'a' => some 7
  | 'b' => some 8
  | 't' => some 9
  | 'n' => some 10
  | 'v' => some 11
  | 'f' => some 12
  | 'r' => some 13
  | '\\' => some 0x5C
  | _ => none

/-- A byte of a set, and whether it was written with a backslash. -/
structure SetByte where
  byte : UInt8
  escaped : Bool
  deriving DecidableEq

/-- Three octal digits that are too large for a byte, read as a byte and a digit. -/
def octalWarning (digits : List UInt8) : List UInt8 :=
  Text.encodeUtf8 "warning: the ambiguous octal escape \\" ++ digits
    ++ Text.encodeUtf8 " is being\n\tinterpreted as the 2-byte sequence \\0" ++ digits.take 2
    ++ Text.encodeUtf8 ", " ++ digits.drop 2

/-- The bytes of a set as it is written, and warnings on the way. -/
def setBytes : Nat → List UInt8 → List SetByte × List (List UInt8)
  | 0, _ => ([], [])
  | _, [] => ([], [])
  | _, [0x5C] =>
    ([⟨0x5C, false⟩],
      [Text.encodeUtf8 "warning: an unescaped backslash at end of string is not portable"])
  | fuel + 1, 0x5C :: b :: rest =>
    if 0x30 ≤ b ∧ b ≤ 0x37 then
      let (value, behind) := octal 3 0 (b :: rest)
      if value < 256 then
        let (bytes, warnings) := setBytes fuel behind
        (⟨value.toUInt8, true⟩ :: bytes, warnings)
      else
        let (value, behind) := octal 2 0 (b :: rest)
        let (bytes, warnings) := setBytes fuel behind
        (⟨value.toUInt8, true⟩ :: bytes, octalWarning ((b :: rest).take 3) :: warnings)
    else
      let (bytes, warnings) := setBytes fuel rest
      (⟨(escapedByte? b).getD b, true⟩ :: bytes, warnings)
  | fuel + 1, b :: rest =>
    let (bytes, warnings) := setBytes fuel rest
    (⟨b, false⟩ :: bytes, warnings)

/-! ### Parts -/

/-- Is this the byte of a given character, written without a backslash? -/
def SetByte.is (b : SetByte) (c : Char) : Bool :=
  b.byte.toNat == c.toNat && !b.escaped

/-- What stands between a bracket with a mark, of which the first two bytes have been read, and
the same mark with a bracket. -/
def bracketed? (mark : Char) : List SetByte → Option (List UInt8 × List SetByte)
  | a :: b :: rest =>
    if a.is mark ∧ b.is ']' then some ([], rest)
    else (bracketed? mark (b :: rest)).map fun (inner, rest) => (a.byte :: inner, rest)
  | _ => none

/-- The count behind the star of a repeated byte, and what stands behind its bracket. -/
def repeatCount? (text : List SetByte) : Option (List UInt8 × List SetByte) :=
  let inner := text.takeWhile fun b => !b.is ']'
  match text.dropWhile fun b => !b.is ']' with
  | _ :: rest => some (inner.map SetByte.byte, rest)
  | [] => none

/-- The number of times that a count asks for; none if it leaves that open. A leading zero
makes it octal. -/
def countOf (digits : List UInt8) : Except (List UInt8) (Option Nat) :=
  let base := if digits.head? = some 0x30 then 8 else 10
  let isDigit (b : UInt8) : Bool := 0x30 ≤ b && b.toNat < 0x30 + base
  if !digits.all isDigit then
    .error (Text.encodeUtf8 "invalid repeat count " ++ quoted digits
      ++ Text.encodeUtf8 " in [c*n] construct")
  else
    match digits.foldl (fun n b => base * n + (b.toNat - 0x30)) 0 with
    | 0 => .ok none
    | n => .ok (some n)

/-- A byte as a range that is refused shows it. -/
def shownByte (b : UInt8) : List UInt8 :=
  if isPrintable b then [b] else octalEscape b

/-- A class, an equal byte or a repeated byte in brackets at the front of a set. -/
def bracketPart? (text : List SetByte) :
    Except (List UInt8) (Option (SetPart × List SetByte)) :=
  match text with
  | a :: b :: rest =>
    if !a.is '[' then .ok none
    else
      let named := if b.is ':' then bracketed? ':' rest else none
      let equal := if b.is '=' then bracketed? '=' rest else none
      match named, equal with
      | some ([], _), _ => .error (Text.encodeUtf8 "missing character class name '[::]'")
      | some (name, behind), _ =>
        match byteClasses.find? fun entry => Text.encodeUtf8 entry.1 == name with
        | some (name, bytes) => .ok (some (.group name bytes, behind))
        | none => .error (Text.encodeUtf8 "invalid character class " ++ quoted name)
      | _, some ([], _) =>
        .error (Text.encodeUtf8 "missing equivalence class character '[==]'")
      | _, some ([byte], behind) => .ok (some (.same byte, behind))
      | _, some (several, _) =>
        .error (several
          ++ Text.encodeUtf8 ": equivalence class operand must be a single character")
      | none, none =>
        match rest with
        | star :: rest =>
          if !star.is '*' then .ok none
          else
            match repeatCount? rest with
            | some (digits, behind) => do
              return some (.repeated b.byte (← countOf digits), behind)
            | none => .ok none
        | [] => .ok none
  | _ => .ok none

/-- The parts of a set. -/
def setParts : Nat → List SetByte → Except (List UInt8) (List SetPart)
  | 0, _ => .ok []
  | _, [] => .ok []
  | fuel + 1, a :: rest => do
    match ← bracketPart? (a :: rest) with
    | some (part, rest) => return part :: (← setParts fuel rest)
    | none =>
      match rest with
      | dash :: b :: behind =>
        if !dash.is '-' then return .byte a.byte :: (← setParts fuel rest)
        else if b.byte < a.byte then
          throw (Text.encodeUtf8 "range-endpoints of '" ++ shownByte a.byte ++ [0x2D]
            ++ shownByte b.byte ++ Text.encodeUtf8 "' are in reverse collating sequence order")
        else return .range a.byte b.byte :: (← setParts fuel behind)
      | _ => return .byte a.byte :: (← setParts fuel rest)

namespace SetPart

/-- The bytes of a part, in order; what repeats as often as it takes does so `open'` times. -/
def bytes (open' : Nat) : SetPart → List UInt8
  | byte b => [b]
  | range first last => byteRange first last
  | group _ bytes => bytes
  | same b => [b]
  | repeated b count => List.replicate (count.getD open') b

def isOpen : SetPart → Bool
  | repeated _ none => true
  | _ => false

def isSame : SetPart → Bool
  | same _ => true
  | _ => false

def isGroup : SetPart → Bool
  | group _ _ => true
  | _ => false

/-- Is this a class of letters of one case? -/
def isCase : SetPart → Bool
  | group name _ => name == "upper" || name == "lower"
  | _ => false

end SetPart

/-- The bytes of all parts. -/
def allBytes (open' : Nat) (parts : List SetPart) : List UInt8 :=
  parts.flatMap (SetPart.bytes open')

end SiteTree.Command
