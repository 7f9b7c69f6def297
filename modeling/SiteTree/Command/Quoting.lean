import SiteTree.Text.Utf8

/-!
# Names in messages

Programs quote the names that they complain about: always, or only where a shell would not read
the name as it is.
-/

namespace SiteTree.Command

def isPrintable (b : UInt8) : Bool :=
  0x20 ≤ b && b ≤ 0x7E

/-- Three octal digits behind a backslash. -/
def octalEscape (b : UInt8) : List UInt8 :=
  [0x5C, 0x30 + b / 64, 0x30 + b / 8 % 8, 0x30 + b % 8]

/-- How a byte that is not printed is written behind a backslash. -/
def escapedForm (b : UInt8) : List UInt8 :=
  let letters : List (UInt8 × Char) :=
    [(7, 'a'), (8, 'b'), (9, 't'), (10, 'n'), (11, 'v'), (12, 'f'), (13, 'r')]
  match letters.lookup b with
  | some letter => [0x5C, letter.toNat.toUInt8]
  | none => octalEscape b

/-! ### Quoting always -/

/-- A byte between single quotes: quotes, backslashes and what is not printed are escaped. -/
def quotedByte (b : UInt8) : List UInt8 :=
  if b = 0x27 ∨ b = 0x5C then [0x5C, b]
  else if isPrintable b then [b]
  else escapedForm b

/-- A name between single quotes. -/
def quoted (name : List UInt8) : List UInt8 :=
  0x27 :: (name.flatMap quotedByte ++ [0x27])

/-! ### Quoting for a shell -/

/-- Characters that a shell reads as something else than themselves, a colon being counted in. -/
def isSpecialToShell (b : UInt8) : Bool :=
  " !\"$&()*;<=>?[\\^\x60|:".toList.contains (Char.ofUInt8 b)

/-- Must a shell have the name in quotes? -/
def needsQuotes (name : List UInt8) : Bool :=
  name.isEmpty || name == [0x7B] || name == [0x7D]
    || name.head? == some 0x23 || name.head? == some 0x7E
    || name.any fun b => isSpecialToShell b || b == 0x27 || !isPrintable b

/-- What stands between single quotes for a name. Runs of bytes that are not printed stand
outside of them, as `inRun` says of the byte before. -/
def shellQuotedBytes (inRun : Bool) : List UInt8 → List UInt8
  | [] => []
  | b :: rest =>
    if isPrintable b then
      let reopen : List UInt8 := if inRun then [0x27, 0x27] else []
      let shown : List UInt8 := if b = 0x27 then [0x27, 0x5C, 0x27, 0x27] else [b]
      reopen ++ shown ++ shellQuotedBytes false rest
    else
      let start : List UInt8 := if inRun then [] else [0x27, 0x24, 0x27]
      start ++ escapedForm b ++ shellQuotedBytes true rest

/-- A name as it is typed into a shell. -/
def shellQuoted (name : List UInt8) : List UInt8 :=
  if !needsQuotes name then name
  else if name.contains 0x27 ∧
      name.all fun b => b == 0x27 || (isPrintable b && !(isSpecialToShell b && b != 0x20)) then
    0x22 :: (name ++ [0x22])
  else 0x27 :: (shellQuotedBytes false name ++ [0x27])

end SiteTree.Command
