import SiteTree.Proofs.Stylesheet.Compound
import SiteTree.Proofs.Stylesheet.Trim
import SiteTree.Proofs.Text.Bytes

/-!
# Scoping by offsets

A stylesheet can be scoped in place: read byte by byte, with offsets for where a segment, an item of
a list or a compound begins, and cut at these offsets. Such a scan may fail. A cut can lie behind the
end of the text, before its own beginning or within a character, and a step can lead nowhere; either
way there is no answer. The scan is written out here, and the parts of it that are no loops over a
text of their own are shown to agree with what is done character by character.

* `stringEnd_eq`, `commentEnd?_eq` — where strings and comments end.
* `trimLead?_eq`, `trimTrail?_eq` — what is left of a text between blanks and comments.
-/

namespace SiteTree.Stylesheet

open String (utf8Len)
open Text (byteAt? scan? from? upTo? slice? find? findLast?)

/-! ### Comments and strings -/

/-- Where the string ends that `quote` opened, from an offset inside it. -/
def stringEnd (text : List Char) (quote : Char) (offset : Nat) : Nat :=
  match _ : byteAt? text offset with
  | none => utf8Len text
  | some byte =>
    if byte = '\\' then stringEnd text quote (offset + 2)
    else if byte = quote then offset + 1
    else stringEnd text quote (offset + 1)
termination_by utf8Len text - offset
decreasing_by
  all_goals
    have := Text.lt_of_byteAt? ‹byteAt? text offset = some _›
    omega

/-- Does a comment open at an offset? -/
def opensComment (text : List Char) (offset : Nat) : Bool :=
  byteAt? text offset == some '/' && byteAt? text (offset + 1) == some '*'

/-- Where the comment ends that opens at an offset. -/
def commentEnd? (text : List Char) (offset : Nat) : Option Nat := do
  let rest ← from? text (offset + 2)
  return match find? ['*', '/'] rest with
    | some inside => offset + 2 + inside + 2
    | none => utf8Len text

/-- The text without leading blanks and comments. -/
def trimLead? (text : List Char) : Option (List Char) :=
  match _ : Text.after? ['/', '*'] (Text.trimStart text) with
  | none => some (Text.trimStart text)
  | some rest =>
    match find? ['*', '/'] rest with
    | none => some []
    | some inside =>
      match _ : from? rest (inside + 2) with
      | none => none
      | some behind => trimLead? behind
termination_by text.length
decreasing_by
  have hbehind := Text.length_le_of_from? ‹from? rest _ = some behind›
  have hrest := congrArg List.length (Text.append_of_after? ‹Text.after? _ _ = some rest›)
  have htrim := (List.dropWhile_sublist Text.isBlank (l := text)).length_le
  simp only [List.length_append, List.length_cons, List.length_nil, Text.trimStart] at hrest
  omega

/-- The text without trailing blanks and comments. -/
def trimTrail? (text : List Char) : Option (List Char) :=
  match _ : Text.after? ['/', '*'] (Text.trimEnd text).reverse with
  | none => some (Text.trimEnd text)
  | some rest =>
    match findLast? ['/', '*'] rest.reverse with
    | none => some (Text.trimEnd text)
    | some opening =>
      match _ : upTo? rest.reverse opening with
      | none => none
      | some front => trimTrail? front
termination_by text.length
decreasing_by
  have hfront := Text.length_le_of_upTo? ‹upTo? rest.reverse _ = some front›
  have hrest := congrArg List.length (Text.append_of_after? ‹Text.after? _ _ = some rest›)
  have htrim := (List.dropWhile_sublist Text.isBlank (l := text.reverse)).length_le
  simp only [List.length_append, List.length_cons, List.length_nil, List.length_reverse,
    Text.trimEnd] at hfront hrest htrim
  omega

/-! ### Selectors -/

/-- What a scan of a selector knows: the number of brackets that are open, the offset where the last
compound begins so far, and that of the first colon in it outside brackets and strings. -/
structure SelectorScan where
  depth : Nat
  compound : Nat
  colon : Option Nat

def SelectorScan.step (selector : List Char) (scan : SelectorScan) (offset : Nat) (byte : Char) :
    Option (SelectorScan × Nat) :=
  if byte = '\\' then some (scan, offset + 2)
  else if scan.depth = 0 ∧ opensComment selector offset then do
    let stop ← commentEnd? selector offset
    return (⟨0, stop, none⟩, stop)
  else if isQuote byte then some (scan, stringEnd selector byte (offset + 1))
  else if scan.depth = 0 ∧ isCombinator byte then some (⟨0, offset + 1, none⟩, offset + 1)
  else if scan.depth = 0 ∧ byte = ':' then
    some (⟨0, scan.compound, scan.colon.or (some offset)⟩, offset + 1)
  else some ({ scan with depth := nest scan.depth byte }, offset + 1)

def scopeSelector? (marker selector : List Char) : Option (List Char) := do
  let found ← scan? selector (SelectorScan.step selector) ⟨0, 0, none⟩ 0
  let last ← from? selector found.compound
  if Text.occursIn marker last then return selector
  else
    let place := found.colon.getD (utf8Len selector)
    return (← upTo? selector place) ++ marker ++ (← from? selector place)

/-! ### Lists of selectors -/

/-- What a scan of a list knows: the number of brackets that are open, the offset where an item
begins, and the items in front of it. -/
structure ListScan where
  depth : Nat
  start : Nat
  items : List (List Char)

def ListScan.step (list : List Char) (scan : ListScan) (offset : Nat) (byte : Char) :
    Option (ListScan × Nat) :=
  if opensComment list offset then do return (scan, ← commentEnd? list offset)
  else if isQuote byte then some (scan, stringEnd list byte (offset + 1))
  else if byte = ',' ∧ scan.depth = 0 then do
    let item ← slice? list scan.start offset
    return (⟨0, offset + 1, scan.items ++ [item]⟩, offset + 1)
  else some ({ scan with depth := nest scan.depth byte }, offset + 1)

def ListScan.finish (list : List Char) (scan : ListScan) : Option (List (List Char)) := do
  return scan.items ++ [← from? list scan.start]

def splitList? (list : List Char) : Option (List (List Char)) :=
  (scan? list (ListScan.step list) ⟨0, 0, []⟩ 0).bind (ListScan.finish list)

def scopeItem? (marker item : List Char) : Option (List Char) := do
  let rest ← trimLead? item
  guard (utf8Len rest ≤ utf8Len item)
  let lead := utf8Len item - utf8Len rest
  let core ← trimTrail? rest
  if core.isEmpty then return item
  else
    return (← upTo? item lead) ++ (← scopeSelector? marker core)
      ++ (← from? item (lead + utf8Len core))

def scopeList? (marker list : List Char) : Option (List Char) := do
  return [','].intercalate (← (← splitList? list).mapM (scopeItem? marker))

/-! ### Stylesheets -/

/-- The kind of block that a head opens. -/
def blockOf? (head : List Char) : Option Block := do
  let body ← trimLead? head
  if body.head? = some '@' then
    let name := body.takeWhile fun c => !Text.isBlank c && c != '('
    return if groupRules.contains (name.map Char.toLower) then .group else .other
  else return .rule

/-- What a scan of a stylesheet knows: the blocks that are open, the offset where a segment begins,
and what is written of the segments in front of it. -/
structure SheetScan where
  blocks : List Block
  start : Nat
  written : List Char

def SheetScan.step (marker css : List Char) (scan : SheetScan) (offset : Nat) (byte : Char) :
    Option (SheetScan × Nat) :=
  if opensComment css offset then do return (scan, ← commentEnd? css offset)
  else if isQuote byte then some (scan, stringEnd css byte (offset + 1))
  else if byte = '\x7b' then do
    let text ← slice? css scan.start offset
    let block ← blockOf? text
    let head ←
      if block = .rule ∧ scopesInside scan.blocks then scopeList? marker text else some text
    return (⟨block :: scan.blocks, offset + 1, scan.written ++ head ++ ['\x7b']⟩, offset + 1)
  else if byte = '\x7d' ∨ byte = ';' then do
    let text ← slice? css scan.start (offset + 1)
    let blocks := if byte = '\x7d' then scan.blocks.tail else scan.blocks
    return (⟨blocks, offset + 1, scan.written ++ text⟩, offset + 1)
  else some (scan, offset + 1)

def SheetScan.finish (css : List Char) (scan : SheetScan) : Option (List Char) := do
  return scan.written ++ (← from? css scan.start)

def scopeText? (marker css : List Char) : Option (List Char) :=
  (scan? css (SheetScan.step marker css) ⟨[], 0, []⟩ 0).bind (SheetScan.finish css)

/-- The stylesheet `css` with the class `cls` required of its selectors, by a scan that may fail. -/
def scope? (css cls : String) : Option String :=
  (scopeText? ('.' :: cls.toList) css.toList).map String.ofList

/-! ### Bytes beyond ASCII

None of the loops has any use for them. -/

theorem ne_of_beyond {byte c : Char} (h : 127 < byte.toNat) (hc : c.toNat ≤ 127) : byte ≠ c := by
  rintro rfl
  omega

theorem isQuote_beyond {byte : Char} (h : 127 < byte.toNat) : isQuote byte = false := by
  simp [isQuote, ne_of_beyond h]

theorem nest_beyond {byte : Char} (h : 127 < byte.toNat) (depth : Nat) :
    nest depth byte = depth := by
  simp [nest, ne_of_beyond h]

theorem isCombinator_beyond {byte : Char} (h : 127 < byte.toNat) : isCombinator byte = false := by
  simp [isCombinator, ne_of_beyond h]

theorem toNat_of_isCombinator {c : Char} (h : isCombinator c = true) : c.toNat ≤ 127 := by
  by_contra hlarge
  rw [isCombinator_beyond (by omega)] at h
  exact absurd h (by simp)

theorem toNat_of_isQuote {quote : Char} (h : isQuote quote = true) : quote.toNat ≤ 127 := by
  simp only [isQuote, Bool.or_eq_true, beq_iff_eq] at h
  rcases h with rfl | rfl <;> decide

/-! ### Ends of comments and strings -/

theorem stringEnd_of_byteAt? {text : List Char} {quote byte : Char} {offset : Nat}
    (h : byteAt? text offset = some byte) :
    stringEnd text quote offset
      = if byte = '\\' then stringEnd text quote (offset + 2)
        else if byte = quote then offset + 1
        else stringEnd text quote (offset + 1) := by
  rw [stringEnd]
  split
  · next hnone => exact absurd (h.symm.trans hnone) (by simp)
  · next other hother =>
    obtain rfl : byte = other := Option.some_inj.mp (h.symm.trans hother)
    rfl

theorem stringEnd_of_le {text : List Char} {quote : Char} {offset : Nat}
    (h : utf8Len text ≤ offset) : stringEnd text quote offset = utf8Len text := by
  rw [stringEnd]
  split
  · rfl
  · next byte hbyte => exact absurd (Text.lt_of_byteAt? hbyte) (by omega)

theorem stringEnd_eq {quote : Char} (hquote : isQuote quote = true) (front rest : List Char) :
    stringEnd (front ++ rest) quote (utf8Len front)
      = utf8Len (front ++ (closeString quote rest).1) := by
  have hascii := toNat_of_isQuote hquote
  have hback : quote ≠ '\\' := by
    rintro rfl
    exact absurd hquote (by decide)
  have hbeyond (text : List Char) (offset : Nat) (byte : Char)
      (hbyte : byteAt? text offset = some byte) (hlarge : 127 < byte.toNat) :
      stringEnd text quote offset = stringEnd text quote (offset + 1) := by
    rw [stringEnd_of_byteAt? hbyte, if_neg (ne_of_beyond hlarge (by decide)),
      if_neg (ne_of_beyond hlarge hascii)]
  fun_induction closeString quote rest generalizing front with
  | case1 => rw [List.append_nil, stringEnd_of_le le_rfl]
  | case2 c rest ih =>
    rw [stringEnd_of_byteAt? (Text.byteAt?_append_ascii (by decide) front (c :: rest)), if_pos rfl,
      keepFirst]
    have htext : front ++ '\\' :: c :: rest = front ++ ['\\'] ++ c :: rest := by simp
    have hpass := Text.pass_bytes (stringEnd (front ++ '\\' :: c :: rest) quote) (hbeyond _) htext
      c.utf8Size_pos (by simp)
    rw [Text.utf8Len_concat (by decide)] at hpass
    refine hpass.trans ?_
    have hnext := ih (front ++ ['\\'] ++ [c])
    simpa using hnext
  | case3 rest hnot =>
    rw [stringEnd_of_byteAt? (Text.byteAt?_append_ascii hascii front rest), if_neg hback, if_pos rfl,
      Text.utf8Len_concat hascii]
  | case4 c rest hnot hc ih =>
    have hnext := ih (front ++ [c])
    rw [List.append_assoc, List.singleton_append, List.append_assoc] at hnext
    rw [keepFirst, ← hnext]
    rcases Nat.lt_or_ge 127 c.toNat with hlarge | hsmall
    · exact Text.pass_bytes (stringEnd (front ++ c :: rest) quote) (hbeyond _) rfl (Nat.zero_le _)
        fun _ => hlarge
    · rw [stringEnd_of_byteAt? (Text.byteAt?_append_ascii hsmall front rest), if_neg hc,
        Text.utf8Len_concat hsmall]
      split
      · next hslash =>
        -- The backslash ends the text, so both offsets are behind the end.
        subst hslash
        obtain rfl : rest = [] := by
          cases rest with
          | nil => rfl
          | cons d rest => exact absurd rfl (hnot d rest rfl)
        have hlength := Text.utf8Len_concat hsmall front
        rw [stringEnd_of_le (by omega), stringEnd_of_le (by omega)]
      · rfl

theorem stringEnd_cons {quote : Char} (hquote : isQuote quote = true) (front rest : List Char) :
    stringEnd (front ++ quote :: rest) quote (utf8Len front + 1)
      = utf8Len (front ++ quote :: (closeString quote rest).1) := by
  rw [List.append_cons front quote rest, List.append_cons front quote (closeString quote rest).1,
    ← Text.utf8Len_concat (toNat_of_isQuote hquote), stringEnd_eq hquote]

theorem opensComment_cons_cons (front rest : List Char) :
    opensComment (front ++ '/' :: '*' :: rest) (utf8Len front) = true := by
  have hstar := Text.byteAt?_append_ascii (c := '*') (by decide) (front ++ ['/']) rest
  rw [Text.utf8Len_concat (by decide), List.append_assoc, List.singleton_append] at hstar
  rw [opensComment, Text.byteAt?_append_ascii (by decide), hstar]
  rfl

theorem opensComment_eq_false {text : List Char} {offset : Nat} {byte : Char}
    (hbyte : byteAt? text offset = some byte) (h : byte ≠ '/') : opensComment text offset = false := by
  rw [opensComment, hbyte]
  simp [h]

theorem opensComment_quote {quote : Char} (hquote : isQuote quote = true) (front rest : List Char) :
    opensComment (front ++ quote :: rest) (utf8Len front) = false :=
  opensComment_eq_false (Text.byteAt?_append_ascii (toNat_of_isQuote hquote) front rest)
    (ne_of_isQuote hquote (by decide))

theorem opensComment_code {front rest : List Char} {c : Char}
    (hstar : c = '/' → rest.head? ≠ some '*') (hascii : c.toNat ≤ 127) :
    opensComment (front ++ c :: rest) (utf8Len front) = false := by
  have hbyte := Text.byteAt?_append_ascii hascii front rest
  by_cases hslash : c = '/'
  · have hnext := Text.byteAt?_append (front ++ [c]) rest 0
    rw [Text.utf8Len_concat hascii, List.append_assoc, List.singleton_append] at hnext
    have hhead := mt (Text.byteAt?_zero_iff (c := '*') (by decide)).mp (hstar hslash)
    rw [opensComment, hbyte, hnext]
    simp [hhead]
  · exact opensComment_eq_false hbyte hslash

theorem commentEnd?_eq (front rest : List Char) :
    commentEnd? (front ++ '/' :: '*' :: rest) (utf8Len front)
      = some (utf8Len (front ++ '/' :: '*' :: (closeComment rest).1)) := by
  have hopening : utf8Len (front ++ ['/', '*']) = utf8Len front + 2 := by
    simp [show ('/').utf8Size = 1 from rfl, show ('*').utf8Size = 1 from rfl]
  have hfrom := Text.from?_append (front ++ ['/', '*']) rest
  rw [hopening, List.append_assoc] at hfrom
  have htext : front ++ '/' :: '*' :: rest = front ++ (['/', '*'] ++ rest) := rfl
  rw [commentEnd?, htext, hfrom, Option.bind_eq_bind, Option.bind_some, closeComment_eq, Text.find?]
  cases Text.splitFirst? ['*', '/'] rest with
  | none => rfl
  | some found =>
    obtain ⟨inside, behind⟩ := found
    have hend : utf8Len (front ++ ['/', '*'] ++ inside ++ ['*', '/'])
        = utf8Len front + 2 + utf8Len inside + 2 := by
      rw [String.utf8Len_append, String.utf8Len_append, hopening]
      rfl
    refine congrArg some (hend.symm.trans ?_)
    simp

/-! ### Trimming -/

/-- Behind the first `*/` of a text it can be cut. -/
theorem from?_of_find? {text before behind : List Char}
    (h : Text.splitFirst? ['*', '/'] text = some (before, behind)) :
    from? text (utf8Len before + 2) = some behind := by
  have hend : utf8Len (before ++ ['*', '/']) = utf8Len before + 2 := String.utf8Len_append _ _
  rw [← Text.append_of_splitFirst? h, ← hend, Text.from?_append]

theorem trimLead?_eq (text : List Char) : trimLead? text = some (trimStart text) := by
  fun_induction trimLead? text with
  | case1 text hafter =>
    rw [trimStart, ← dropLead_dropWhile]
    exact congrArg some (dropLead_eq_self (Text.head?_dropWhile text) hafter).symm
  | case2 text rest hafter hfind =>
    rw [Text.find?, Option.map_eq_none_iff] at hfind
    rw [trimStart, ← dropLead_dropWhile, ← Text.trimStart, ← Text.append_of_after? hafter]
    have hclose := closeComment_eq rest
    rw [hfind] at hclose
    exact congrArg some ((dropLead_true rest).trans (by rw [hclose]; rfl)).symm
  | case3 text rest hafter inside hfind hfrom =>
    obtain ⟨⟨before, behind⟩, hfound, rfl⟩ := Option.map_eq_some_iff.mp hfind
    rw [from?_of_find? hfound] at hfrom
    exact absurd hfrom (by simp)
  | case4 text rest hafter inside hfind behind hfrom ih =>
    obtain ⟨⟨before, behind⟩, hfound, rfl⟩ := Option.map_eq_some_iff.mp hfind
    rw [from?_of_find? hfound] at hfrom
    obtain rfl := Option.some_inj.mp hfrom
    have hclose := closeComment_eq rest
    rw [hfound] at hclose
    rw [ih, trimStart, trimStart, ← dropLead_dropWhile text, ← Text.trimStart,
      ← Text.append_of_after? hafter]
    exact congrArg some ((dropLead_true rest).trans (by rw [hclose])).symm

/-- In front of the last opening of a comment a text can be cut. -/
theorem upTo?_of_findLast? {text behind front : List Char}
    (h : Text.splitFirst? ['*', '/'] text = some (behind, front)) :
    upTo? text.reverse (utf8Len front.reverse) = some front.reverse := by
  rw [← Text.append_of_splitFirst? h, List.reverse_append, Text.upTo?_append]

theorem trimTrail?_eq (text : List Char) : trimTrail? text = some (trimEnd text) := by
  fun_induction trimTrail? text with
  | case1 text hafter =>
    have hblank : ∀ c ∈ (Text.trimEnd text).reverse.head?, Text.isBlank c = false := by
      rw [Text.trimEnd, List.reverse_reverse]
      exact Text.head?_dropWhile text.reverse
    rw [trimEnd_reverse, dropTrail_eq_self hblank hafter, List.reverse_reverse]
  | case2 text rest hafter hfind =>
    have htext : (Text.trimEnd text).reverse = '/' :: '*' :: rest := (Text.append_of_after? hafter).symm
    rw [Text.findLast?, Option.map_eq_none_iff, List.reverse_reverse] at hfind
    have hopen : dropTrail none ('/' :: '*' :: rest) = '/' :: '*' :: rest := by
      refine (dropTrail_some _ rest).trans ?_
      rw [show Text.splitFirst? ['*', '/'] rest = none from hfind]
    rw [trimEnd_reverse, htext, hopen, ← htext, List.reverse_reverse]
  | case3 text rest hafter opening hfind hupTo =>
    obtain ⟨⟨behind, front⟩, hfound, rfl⟩ := Option.map_eq_some_iff.mp hfind
    rw [List.reverse_reverse] at hfound
    rw [upTo?_of_findLast? hfound] at hupTo
    exact absurd hupTo (by simp)
  | case4 text rest hafter opening hfind front hupTo ih =>
    have htext : (Text.trimEnd text).reverse = '/' :: '*' :: rest := (Text.append_of_after? hafter).symm
    obtain ⟨⟨behind, front⟩, hfound, rfl⟩ := Option.map_eq_some_iff.mp hfind
    rw [List.reverse_reverse] at hfound
    rw [upTo?_of_findLast? hfound] at hupTo
    obtain rfl := Option.some_inj.mp hupTo
    have hopen : dropTrail none ('/' :: '*' :: rest) = dropTrail none front := by
      refine (dropTrail_some _ rest).trans ?_
      rw [show Text.splitFirst? ['*', '/'] rest = some (behind, front) from hfound]
    rw [ih, trimEnd_reverse text, htext, hopen, trimEnd, List.reverse_reverse]

end SiteTree.Stylesheet
