import SiteTree.Proofs.Stylesheet.Offset
import SiteTree.Proofs.Stylesheet.Plan

/-!
# What a scan by offsets finds

The three loops that scope a stylesheet by offsets, over a selector, a list of selectors and a whole
stylesheet, come to an end for every text, and cut it only where a character ends. What they find is
what is found character by character.

* `SelectorScan.scan_eq`, `ListScan.scan_eq`, `SheetScan.scan_eq` — what each loop finds, from
  wherever it stands.
* `scope?_eq` — scoping by offsets is scoping.
* `scope_inserts` — what scoping puts in, and where.
-/

namespace SiteTree.Stylesheet

open String (utf8Len)
open Text (byteAt? scan? from? upTo? slice?)

/-! ### The scan of a selector -/

namespace SelectorScan

variable {selector front rest : List Char}

theorem step_beyond (scan : SelectorScan) (offset : Nat) (byte : Char)
    (hbyte : byteAt? selector offset = some byte) (h : 127 < byte.toNat) :
    step selector scan offset byte = some (scan, offset + 1) := by
  simp [step, ne_of_beyond h, isQuote_beyond h, isCombinator_beyond h, nest_beyond h,
    opensComment_eq_false hbyte]

/-! #### Steps -/

theorem scan_escaped {c : Char} (h : selector = front ++ '\\' :: c :: rest) (scan : SelectorScan) :
    scan? selector (step selector) scan (utf8Len front)
      = scan? selector (step selector) scan (utf8Len (front ++ ['\\', c])) := by
  have hfront : selector = front ++ ['\\'] ++ c :: rest := by
    rw [h]
    simp
  have hbyte : byteAt? selector (utf8Len front) = some '\\' := by
    rw [h, Text.byteAt?_append_ascii (by decide)]
  -- The scan leaves out the first byte of the character behind the backslash and passes the others.
  have hpass := Text.pass_bytes (scan? selector (step selector) scan)
    (fun offset byte hbyte hlarge =>
      Text.scan?_step hbyte (step_beyond scan offset byte hbyte hlarge) (Nat.lt_succ_self offset))
    hfront c.utf8Size_pos (by simp)
  rw [Text.utf8Len_concat (by decide), List.append_assoc] at hpass
  rw [Text.scan?_step hbyte (by rw [step, if_pos rfl]) (by omega), hpass]
  rfl

theorem scan_backslash (h : selector = front ++ ['\\']) (scan : SelectorScan) :
    scan? selector (step selector) scan (utf8Len front) = some scan := by
  have hbyte : byteAt? selector (utf8Len front) = some '\\' := by
    rw [h, Text.byteAt?_append_ascii (by decide)]
  have hlength : utf8Len selector = utf8Len front + 1 := by
    rw [h, Text.utf8Len_concat (by decide)]
  rw [Text.scan?_step hbyte (by rw [step, if_pos rfl]) (by omega), Text.scan?_end (by omega)]

theorem scan_comment (h : selector = front ++ '/' :: '*' :: rest) (compound : Nat)
    (colon : Option Nat) :
    let piece := '/' :: '*' :: (closeComment rest).1
    scan? selector (step selector) ⟨0, compound, colon⟩ (utf8Len front)
      = scan? selector (step selector) ⟨0, utf8Len (front ++ piece), none⟩
          (utf8Len (front ++ piece)) := by
  intro piece
  have hopens : opensComment selector (utf8Len front) = true := by
    rw [h, opensComment_cons_cons]
  refine Text.scan?_piece h (by decide) (List.cons_ne_nil _ _) ?_
  rw [step, if_neg (by decide), if_pos ⟨rfl, hopens⟩, h, commentEnd?_eq]
  rfl

theorem scan_quote {quote : Char} (hquote : isQuote quote = true)
    (h : selector = front ++ quote :: rest) (scan : SelectorScan) :
    scan? selector (step selector) scan (utf8Len front)
      = scan? selector (step selector) scan
          (utf8Len (front ++ quote :: (closeString quote rest).1)) := by
  have hopens : opensComment selector (utf8Len front) = false := by
    rw [h, opensComment_quote hquote]
  refine Text.scan?_piece h (toNat_of_isQuote hquote) (List.cons_ne_nil _ _) ?_
  rw [step, if_neg (ne_of_isQuote hquote (by decide)), if_neg (by simp [hopens]), if_pos hquote, h,
    stringEnd_cons hquote]

theorem scan_combinator {c : Char} (hc : isCombinator c = true) (h : selector = front ++ c :: rest)
    (compound : Nat) (colon : Option Nat) :
    scan? selector (step selector) ⟨0, compound, colon⟩ (utf8Len front)
      = scan? selector (step selector) ⟨0, utf8Len (front ++ [c]), none⟩ (utf8Len (front ++ [c])) := by
  have hascii := toNat_of_isCombinator hc
  have hne {d : Char} (hd : isCombinator d = false) : c ≠ d := by
    rintro rfl
    exact absurd hc (by simp [hd])
  have hopens : opensComment selector (utf8Len front) = false := by
    rw [h, opensComment_code (fun hslash => absurd hslash (hne rfl)) hascii]
  have hquote : isQuote c = false := by
    simp [isQuote, hne (d := '"') rfl, hne (d := '\'') rfl]
  refine Text.scan?_piece h hascii (List.cons_ne_nil _ _) ?_
  rw [step, if_neg (hne rfl), if_neg (by simp [hopens]), if_neg (by simp [hquote]),
    if_pos ⟨rfl, hc⟩, Text.utf8Len_concat hascii]

theorem scan_colon (h : selector = front ++ ':' :: rest) (compound : Nat) (colon : Option Nat) :
    scan? selector (step selector) ⟨0, compound, colon⟩ (utf8Len front)
      = scan? selector (step selector) ⟨0, compound, colon.or (some (utf8Len front))⟩
          (utf8Len (front ++ [':'])) := by
  have hopens : opensComment selector (utf8Len front) = false := by
    rw [h, opensComment_code (by simp) (by decide)]
  refine Text.scan?_piece h (by decide) (List.cons_ne_nil _ _) ?_
  rw [step, if_neg (by decide), if_neg (by simp [hopens]), if_neg (by decide),
    if_neg fun h => absurd h.2 (by decide), if_pos ⟨rfl, rfl⟩, Text.utf8Len_concat (by decide)]

/-- The scan passes over a character that neither ends a compound nor is a colon outside brackets. -/
theorem scan_char {c : Char} {depth compound : Nat} {colon : Option Nat}
    (h : selector = front ++ c :: rest) (hquote : isQuote c = false) (hback : c ≠ '\\')
    (hstar : depth = 0 → c = '/' → rest.head? ≠ some '*')
    (hcombinator : ¬ (depth = 0 ∧ isCombinator c = true)) (hcolon : ¬ (depth = 0 ∧ c = ':')) :
    scan? selector (step selector) ⟨depth, compound, colon⟩ (utf8Len front)
      = scan? selector (step selector) ⟨nest depth c, compound, colon⟩ (utf8Len (front ++ [c])) := by
  refine Text.scan?_char (step_beyond _) h ?_ ?_
  · intro hascii
    have hcomment : ¬ (depth = 0 ∧ opensComment selector (utf8Len front) = true) := by
      rintro ⟨hdepth, hopens⟩
      rw [h, opensComment_code (hstar hdepth) hascii] at hopens
      exact absurd hopens (by simp)
    simp only [step]
    rw [if_neg hback, if_neg hcomment, if_neg (by simp [hquote]), if_neg hcombinator, if_neg hcolon]
  · intro hlarge
    rw [nest_beyond hlarge]

/-! #### The whole scan -/

/-- The offset of a colon behind `front`, by how what follows is split before it. -/
def colonAt (front : List Char) (split : List Char × List Char) : Option Nat :=
  if split.2 = [] then none else some (utf8Len (front ++ split.1))

/-- What a scan that stands behind `front` and before `rest` will have found at the end. -/
def found (front rest : List Char) (scan : SelectorScan) : Nat × Option Nat :=
  match splitLast .code scan.depth rest with
  | some (head, last) =>
    (utf8Len (front ++ head), colonAt (front ++ head) (splitPseudo .code 0 last))
  | none => (scan.compound, scan.colon.or (colonAt front (splitPseudo .code scan.depth rest)))

/-- A piece that is no more than a part of the last compound changes nothing. -/
theorem found_pass {whole text rest : List Char} {depth next : Nat}
    (hlast : splitLast .code depth whole = (splitLast .code next rest).map (keepFirst text))
    (hpseudo : splitPseudo .code depth whole = keepFirst text (splitPseudo .code next rest))
    (front : List Char) (compound : Nat) (colon : Option Nat) :
    found front whole ⟨depth, compound, colon⟩
      = found (front ++ text) rest ⟨next, compound, colon⟩ := by
  rw [found, found]
  dsimp only
  rw [hlast, hpseudo]
  cases splitLast .code next rest with
  | none => simp [colonAt, keepFirst]
  | some cut => simp [keepFirst]

/-- Behind a comment or a combinator a new compound begins. -/
theorem found_anew {whole text rest : List Char}
    (hlast : splitLast .code 0 whole = some (keepFirst text (lastCompound rest)))
    (front : List Char) (compound : Nat) (colon : Option Nat) :
    found front whole ⟨0, compound, colon⟩
      = found (front ++ text) rest ⟨0, utf8Len (front ++ text), none⟩ := by
  rw [found, found]
  dsimp only
  rw [hlast, lastCompound]
  cases splitLast .code 0 rest with
  | none => simp [keepFirst]
  | some cut => simp [keepFirst]

/-- The first colon is kept, the others are passed. -/
theorem found_colon (front rest : List Char) (compound : Nat) (colon : Option Nat) :
    found front (':' :: rest) ⟨0, compound, colon⟩
      = found (front ++ [':']) rest ⟨0, compound, colon.or (some (utf8Len front))⟩ := by
  have hlast : splitLast .code 0 (':' :: rest) = (splitLast .code 0 rest).map (keepFirst [':']) :=
    splitLast_char (by simp) (by simp) (by decide)
  rw [found, found]
  dsimp only
  rw [hlast, splitPseudo_colon]
  cases splitLast .code 0 rest with
  | none => simp [colonAt]
  | some cut => simp [keepFirst]

/-- The scan of a selector comes to an end, and finds what the search for the last compound and that
for its first colon find. -/
theorem scan_eq (h : selector = front ++ rest) (scan : SelectorScan) :
    (scan? selector (step selector) scan (utf8Len front)).map (fun scan => (scan.compound, scan.colon))
      = some (found front rest scan) := by
  obtain ⟨depth, compound, colon⟩ := scan
  induction depth, rest using selector_induction generalizing front compound colon with
  | nil depth =>
    rw [Text.scan?_end (by rw [h, List.append_nil])]
    simp [found, splitLast, splitPseudo, colonAt]
  | escaped depth c rest ih =>
    rw [scan_escaped h, found_pass (splitLast_escaped depth c rest)
      (splitPseudo_escaped depth c rest)]
    exact ih (by rw [h]; simp) compound colon
  | comment rest ih =>
    rw [scan_comment h, found_anew (splitLast_comment rest)]
    refine ih ?_ _ none
    rw [h, List.append_assoc, List.cons_append, List.cons_append, closeComment_join]
  | string depth quote rest hquote ih =>
    rw [scan_quote hquote h, found_pass (splitLast_quote hquote depth rest)
      (splitPseudo_quote hquote depth rest)]
    refine ih ?_ compound colon
    rw [h, List.append_assoc, List.cons_append, closeString_join]
  | char depth c rest hquote hback hstar ih =>
    have hfront : selector = front ++ [c] ++ rest := by
      rw [h]
      simp
    by_cases hslash : c = '\\'
    · obtain rfl := hback hslash
      subst hslash
      rw [scan_backslash h]
      simp [found, splitLast, splitPseudo, colonAt, isCombinator, isQuote]
    · by_cases hcombinator : depth = 0 ∧ isCombinator c = true
      · obtain ⟨rfl, hc⟩ := hcombinator
        rw [nest_of_isCombinator hc] at ih
        rw [scan_combinator hc h, found_anew (splitLast_combinator hc rest)]
        exact ih hfront _ none
      · by_cases hcolon : depth = 0 ∧ c = ':'
        · obtain ⟨rfl, rfl⟩ := hcolon
          rw [scan_colon h, found_colon]
          exact ih hfront compound _
        · have hlast := splitLast_char hback hstar hcombinator
          have hpseudo := splitPseudo_char hback hcolon
          rw [hquote] at hlast hpseudo
          rw [scan_char h hquote hslash hstar hcombinator hcolon, found_pass hlast hpseudo]
          exact ih hfront compound colon

end SelectorScan

theorem scopeSelector?_eq (marker selector : List Char) :
    scopeSelector? marker selector = some (scopeSelector marker selector) := by
  have hselector := lastCompound_join selector
  have hlast := splitPseudo_join .code 0 (lastCompound selector).2
  have hstart : SelectorScan.found [] selector ⟨0, 0, none⟩
      = (utf8Len (lastCompound selector).1, SelectorScan.colonAt (lastCompound selector).1
          (splitPseudo .code 0 (lastCompound selector).2)) := by
    rw [SelectorScan.found, lastCompound]
    cases splitLast .code 0 selector with
    | none => rfl
    | some cut => rfl
  have hwhole : selector = [] ++ selector := rfl
  obtain ⟨found, hscan, hfound⟩ :=
    Option.map_eq_some_iff.mp (SelectorScan.scan_eq hwhole ⟨0, 0, none⟩)
  rw [hstart] at hfound
  obtain ⟨hcompound, hcolon⟩ := Prod.mk.inj hfound
  rw [show utf8Len [] = 0 from rfl] at hscan
  simp only [scopeSelector?, scopeSelector, hscan]
  generalize lastCompound selector = compound at *
  obtain ⟨head, last⟩ := compound
  generalize splitPseudo .code 0 last = split at *
  obtain ⟨stem, pseudo⟩ := split
  dsimp only at *
  subst hlast hselector
  -- Without a colon the marker goes to the end, where there is nothing behind the stem.
  have hplace : (SelectorScan.colonAt head (stem, pseudo)).getD (utf8Len (head ++ (stem ++ pseudo)))
      = utf8Len (head ++ stem) := by
    rw [SelectorScan.colonAt]
    split
    · next hnil =>
      obtain rfl : pseudo = [] := hnil
      simp
    · rfl
  have hupTo := Text.upTo?_append (head ++ stem) pseudo
  have hfrom := Text.from?_append (head ++ stem) pseudo
  rw [List.append_assoc] at hupTo hfrom
  simp only [Option.bind_eq_bind, Option.bind_some, hcompound, hcolon, Text.from?_append, hplace,
    hupTo, hfrom]
  split
  · rfl
  · simp

/-! ### The scan of a list -/

namespace ListScan

variable {list : List Char}

theorem step_beyond (scan : ListScan) (offset : Nat) (byte : Char)
    (hbyte : byteAt? list offset = some byte) (h : 127 < byte.toNat) :
    step list scan offset byte = some (scan, offset + 1) := by
  simp [step, ne_of_beyond h, isQuote_beyond h, nest_beyond h, opensComment_eq_false hbyte]

theorem scan_comment {front rest : List Char} (h : list = front ++ '/' :: '*' :: rest)
    (scan : ListScan) :
    scan? list (step list) scan (utf8Len front)
      = scan? list (step list) scan (utf8Len (front ++ '/' :: '*' :: (closeComment rest).1)) := by
  have hopens : opensComment list (utf8Len front) = true := by
    rw [h, opensComment_cons_cons]
  refine Text.scan?_piece h (by decide) (List.cons_ne_nil _ _) ?_
  rw [step, if_pos hopens, h, commentEnd?_eq]
  rfl

theorem scan_quote {front rest : List Char} {quote : Char} (hquote : isQuote quote = true)
    (h : list = front ++ quote :: rest) (scan : ListScan) :
    scan? list (step list) scan (utf8Len front)
      = scan? list (step list) scan (utf8Len (front ++ quote :: (closeString quote rest).1)) := by
  have hopens : opensComment list (utf8Len front) = false := by
    rw [h, opensComment_quote hquote]
  refine Text.scan?_piece h (toNat_of_isQuote hquote) (List.cons_ne_nil _ _) ?_
  rw [step, if_neg (by simp [hopens]), if_pos hquote, h, stringEnd_cons hquote]

/-- At a comma outside brackets an item ends, and the next one begins behind it. -/
theorem scan_comma {front item rest : List Char} (h : list = front ++ item ++ ',' :: rest)
    (items : List (List Char)) :
    scan? list (step list) ⟨0, utf8Len front, items⟩ (utf8Len (front ++ item))
      = scan? list (step list) ⟨0, utf8Len (front ++ item ++ [',']), items ++ [item]⟩
          (utf8Len (front ++ item ++ [','])) := by
  have hopens : opensComment list (utf8Len (front ++ item)) = false := by
    rw [h, opensComment_code (by simp) (by decide)]
  refine Text.scan?_piece h (by decide) (List.cons_ne_nil _ _) ?_
  rw [step, if_neg (by rw [hopens]; decide), if_neg (by decide), if_pos ⟨rfl, rfl⟩, h,
    Text.slice?_append, Text.utf8Len_concat (by decide)]
  rfl

theorem scan_code {front rest : List Char} {c : Char} {scan : ListScan}
    (h : list = front ++ c :: rest) (hquote : isQuote c = false)
    (hstar : c = '/' → rest.head? ≠ some '*') (hcomma : ¬ (c = ',' ∧ scan.depth = 0)) :
    scan? list (step list) scan (utf8Len front)
      = scan? list (step list) { scan with depth := nest scan.depth c } (utf8Len (front ++ [c])) := by
  refine Text.scan?_char (step_beyond scan) h ?_ ?_
  · intro hascii
    have hopens : opensComment list (utf8Len front) = false := by
      rw [h, opensComment_code hstar hascii]
    rw [step, if_neg (by simp [hopens]), if_neg (by simp [hquote]), if_neg hcomma]
  · intro hlarge
    rw [nest_beyond hlarge]

theorem scan_eq {front item rest : List Char} (h : list = front ++ item ++ rest) (depth : Nat)
    (items : List (List Char)) :
    (scan? list (step list) ⟨depth, utf8Len front, items⟩ (utf8Len (front ++ item))).bind
        (finish list)
      = some (items ++ (item ++ (splitItems depth (classify rest)).1)
          :: (splitItems depth (classify rest)).2) := by
  induction rest using text_induction generalizing front item depth items with
  | nil =>
    rw [List.append_nil] at h
    rw [Text.scan?_end (by rw [h]), Option.bind_some, finish, h, Text.from?_append]
    simp [classify, Place.classify, splitItems]
  | comment rest ih =>
    rw [scan_comment h, List.append_assoc, ih ?_, classify_comment, splitItems_hidden]
    · simp [keepFirst]
    · rw [h]
      simp [closeComment_join]
  | string quote rest hquote ih =>
    rw [scan_quote hquote h, List.append_assoc, ih ?_, classify_string hquote, splitItems_hidden]
    · simp [keepFirst]
    · rw [h]
      simp [closeString_join]
  | code c rest hquote hstar ih =>
    have hfront : list = front ++ (item ++ [c]) ++ rest := by
      rw [h]
      simp
    rw [classify, classify_code_cons hquote hstar, ← classify]
    by_cases hcomma : c = ',' ∧ depth = 0
    · obtain ⟨rfl, rfl⟩ := hcomma
      have hbehind : list = front ++ item ++ [','] ++ [] ++ rest := by
        rw [h]
        simp
      have hnext := ih hbehind 0 (items ++ [item])
      rw [List.append_nil] at hnext
      rw [scan_comma h, hnext, splitItems]
      simp
    · have hnot : ¬ (true = true ∧ c = ',' ∧ depth = 0) := fun hc => hcomma hc.2
      rw [scan_code h hquote hstar hcomma, List.append_assoc, ih hfront, splitItems_cons hnot]
      simp [keepFirst]

end ListScan

theorem splitList?_eq (list : List Char) : splitList? list = some (splitList list) := by
  have hlist : list = [] ++ [] ++ list := rfl
  exact ListScan.scan_eq hlist 0 []

theorem scopeItem?_eq (marker item : List Char) :
    scopeItem? marker item = some (scopeItem marker item) := by
  have hitem := List.suffix_iff_eq_append.mp (dropLead_suffix false item)
  have hrest := List.prefix_iff_eq_append.mp (trimEnd_isPrefix (trimStart item))
  rw [← trimStart] at hitem
  simp only [scopeItem?, scopeItem, trimLead?_eq, trimTrail?_eq, Option.bind_eq_bind,
    Option.bind_some]
  generalize item.take (item.length - (trimStart item).length) = lead at *
  generalize trimStart item = rest at *
  generalize rest.drop (trimEnd rest).length = trail at *
  generalize trimEnd rest = core at *
  subst hrest hitem
  have hlead : utf8Len (lead ++ (core ++ trail)) - utf8Len (core ++ trail) = utf8Len lead := by
    rw [String.utf8Len_append]
    omega
  have hbehind := Text.from?_append (lead ++ core) trail
  rw [List.append_assoc, String.utf8Len_append] at hbehind
  rw [guard, if_pos (by rw [String.utf8Len_append lead]; omega), hlead]
  simp only [Text.upTo?_append, scopeSelector?_eq, hbehind]
  cases core.isEmpty with
  | true => rfl
  | false => rfl

theorem scopeList?_eq (marker list : List Char) :
    scopeList? marker list = some (scopeList marker list) := by
  have hitems : scopeItem? marker = fun item => pure (scopeItem marker item) :=
    funext (scopeItem?_eq marker)
  rw [scopeList?, splitList?_eq, hitems, Option.bind_eq_bind, Option.bind_some, List.mapM_pure]
  rfl

theorem blockOf?_eq (head : List Char) : blockOf? head = some (Block.ofHead head) := by
  simp only [blockOf?, trimLead?_eq, Block.ofHead, Option.bind_eq_bind, Option.bind_some]
  split
  · split <;> rfl
  · rfl

/-! ### The scan of a stylesheet -/

namespace SheetScan

variable {marker css : List Char}

/-- What a scan still writes that has read `pending` of a segment and stands before `rest`. -/
def remaining (marker : List Char) (blocks : List Block) (pending rest : List Char) : List Char :=
  let (row, tail) := joinFirst pending (segments rest)
  scopeSegments marker blocks row ++ tail

theorem remaining_nil (blocks : List Block) (pending : List Char) :
    remaining marker blocks pending [] = pending := by
  simp [remaining, segments, classify, Place.classify, splitSegments, joinFirst, scopeSegments]

theorem remaining_append {whole text rest : List Char}
    (h : segments whole = joinFirst text (segments rest)) (blocks : List Block)
    (pending : List Char) :
    remaining marker blocks pending whole = remaining marker blocks (pending ++ text) rest := by
  rw [remaining, remaining, h, keeping_joinFirst.append]

theorem remaining_mark (mark : Mark) (blocks : List Block) (pending rest : List Char) :
    remaining marker blocks pending (mark.char :: rest)
      = (⟨pending, mark⟩ : Segment).scoped marker blocks ++ mark.char
        :: remaining marker ((⟨pending, mark⟩ : Segment).openBlocks blocks) [] rest := by
  rw [remaining, remaining, segments_mark, keeping_joinFirst.nil]
  dsimp only [joinFirst]
  rw [scopeSegments_cons, List.append_nil, List.append_assoc]
  rfl

theorem step_beyond (scan : SheetScan) (offset : Nat) (byte : Char)
    (hbyte : byteAt? css offset = some byte) (h : 127 < byte.toNat) :
    step marker css scan offset byte = some (scan, offset + 1) := by
  simp [step, ne_of_beyond h, isQuote_beyond h, opensComment_eq_false hbyte]

theorem scan_comment {front rest : List Char} (h : css = front ++ '/' :: '*' :: rest)
    (scan : SheetScan) :
    scan? css (step marker css) scan (utf8Len front)
      = scan? css (step marker css) scan
          (utf8Len (front ++ '/' :: '*' :: (closeComment rest).1)) := by
  have hopens : opensComment css (utf8Len front) = true := by
    rw [h, opensComment_cons_cons]
  refine Text.scan?_piece h (by decide) (List.cons_ne_nil _ _) ?_
  rw [step, if_pos hopens, h, commentEnd?_eq]
  rfl

theorem scan_quote {front rest : List Char} {quote : Char} (hquote : isQuote quote = true)
    (h : css = front ++ quote :: rest) (scan : SheetScan) :
    scan? css (step marker css) scan (utf8Len front)
      = scan? css (step marker css) scan
          (utf8Len (front ++ quote :: (closeString quote rest).1)) := by
  have hopens : opensComment css (utf8Len front) = false := by
    rw [h, opensComment_quote hquote]
  refine Text.scan?_piece h (toNat_of_isQuote hquote) (List.cons_ne_nil _ _) ?_
  rw [step, if_neg (by simp [hopens]), if_pos hquote, h, stringEnd_cons hquote]

theorem scan_code {front rest : List Char} {c : Char} (h : css = front ++ c :: rest)
    (hquote : isQuote c = false) (hstar : c = '/' → rest.head? ≠ some '*')
    (hmark : Mark.ofChar? c = none) (scan : SheetScan) :
    scan? css (step marker css) scan (utf8Len front)
      = scan? css (step marker css) scan (utf8Len (front ++ [c])) := by
  have hne (mark : Mark) : c ≠ mark.char := by
    rintro rfl
    cases mark <;> exact absurd hmark (by decide)
  refine Text.scan?_char (step_beyond scan) h ?_ fun _ => rfl
  intro hascii
  have hopens : opensComment css (utf8Len front) = false := by
    rw [h, opensComment_code hstar hascii]
  have hopening : c ≠ '\x7b' := hne .opening
  have hclosing : c ≠ '\x7d' := hne .closing
  have hsemicolon : c ≠ ';' := hne .semicolon
  rw [step, if_neg (by simp [hopens]), if_neg (by simp [hquote]), if_neg hopening,
    if_neg (not_or.mpr ⟨hclosing, hsemicolon⟩)]

/-- At a mark a segment ends, and the next one begins behind it. -/
theorem scan_mark {front pending rest : List Char} {mark : Mark}
    (h : css = front ++ pending ++ mark.char :: rest) (blocks : List Block) (written : List Char) :
    scan? css (step marker css) ⟨blocks, utf8Len front, written⟩ (utf8Len (front ++ pending))
      = scan? css (step marker css)
          ⟨(⟨pending, mark⟩ : Segment).openBlocks blocks, utf8Len (front ++ pending ++ [mark.char]),
            written ++ ((⟨pending, mark⟩ : Segment).scoped marker blocks ++ [mark.char])⟩
          (utf8Len (front ++ pending ++ [mark.char])) := by
  have hascii : mark.char.toNat ≤ 127 := by cases mark <;> decide
  have hslash : mark.char ≠ '/' := by cases mark <;> decide
  have hquote : isQuote mark.char = false := by cases mark <;> rfl
  have hopens : opensComment css (utf8Len (front ++ pending)) = false := by
    rw [h, opensComment_code (fun hc => absurd hc hslash) hascii]
  have hnext := Text.utf8Len_concat hascii (front ++ pending)
  have hslice : slice? css (utf8Len front) (utf8Len (front ++ pending)) = some pending := by
    rw [h, Text.slice?_append]
  have hsegment : slice? css (utf8Len front) (utf8Len (front ++ pending) + 1)
      = some (pending ++ [mark.char]) := by
    have hcut := Text.slice?_append front (pending ++ [mark.char]) rest
    rw [← hnext, h]
    simpa using hcut
  refine Text.scan?_piece h hascii (List.cons_ne_nil _ _) ?_
  rw [step, if_neg (by rw [hopens]; decide), if_neg (by rw [hquote]; decide)]
  cases mark with
  | opening =>
    simp only [Mark.char, if_true, hslice, blockOf?_eq, scopeList?_eq, Option.bind_eq_bind,
      Option.bind_some]
    rw [Mark.char] at hnext
    rw [hnext]
    split
    · next hscoped => simp [Segment.scoped, Segment.IsScoped, Segment.openBlocks, hscoped]
    · next hscoped => simp [Segment.scoped, Segment.IsScoped, Segment.openBlocks, hscoped]
  | closing =>
    rw [if_neg (by decide), if_pos (by decide), hsegment, hnext]
    simp [Segment.scoped, Segment.IsScoped, Segment.openBlocks, Mark.char]
  | semicolon =>
    rw [if_neg (by decide), if_pos (by decide), hsegment, hnext]
    simp [Segment.scoped, Segment.IsScoped, Segment.openBlocks, Mark.char]

theorem scan_eq {front pending rest : List Char} (h : css = front ++ pending ++ rest)
    (blocks : List Block) (written : List Char) :
    (scan? css (step marker css) ⟨blocks, utf8Len front, written⟩ (utf8Len (front ++ pending))).bind
        (finish css)
      = some (written ++ remaining marker blocks pending rest) := by
  induction rest using text_induction generalizing front pending blocks written with
  | nil =>
    rw [List.append_nil] at h
    rw [Text.scan?_end (by rw [h]), Option.bind_some, finish, h, Text.from?_append, remaining_nil]
    rfl
  | comment rest ih =>
    have hsegments : segments ('/' :: '*' :: rest)
        = joinFirst ('/' :: '*' :: (closeComment rest).1) (segments (closeComment rest).2) := by
      rw [segments, classify_comment, splitSegments_hidden]
      rfl
    rw [scan_comment h, List.append_assoc, ih ?_, remaining_append hsegments]
    rw [h]
    simp [closeComment_join]
  | string quote rest hquote ih =>
    have hsegments : segments (quote :: rest)
        = joinFirst (quote :: (closeString quote rest).1) (segments (closeString quote rest).2) := by
      rw [segments, classify_string hquote, splitSegments_hidden]
      rfl
    rw [scan_quote hquote h, List.append_assoc, ih ?_, remaining_append hsegments]
    rw [h]
    simp [closeString_join]
  | code c rest hquote hstar ih =>
    cases hmark : Mark.ofChar? c with
    | none =>
      have hsegments : segments (c :: rest) = joinFirst [c] (segments rest) := by
        rw [segments, classify, classify_code_cons hquote hstar, splitSegments_joinFirst fun _ => hmark]
        rfl
      rw [scan_code h hquote hstar hmark, List.append_assoc, ih ?_, remaining_append hsegments]
      rw [h]
      simp
    | some mark =>
      obtain rfl := Mark.char_of_ofChar? hmark
      have hfront : css = front ++ pending ++ [mark.char] ++ [] ++ rest := by
        rw [h]
        simp
      have hnext := ih hfront ((⟨pending, mark⟩ : Segment).openBlocks blocks)
        (written ++ ((⟨pending, mark⟩ : Segment).scoped marker blocks ++ [mark.char]))
      rw [List.append_nil] at hnext
      rw [scan_mark h, hnext, remaining_mark]
      simp

end SheetScan

theorem scopeText?_eq (marker css : List Char) :
    scopeText? marker css = some (scopeText marker css) := by
  have hcss : css = [] ++ [] ++ css := rfl
  refine (SheetScan.scan_eq hcss [] []).trans (congrArg some ?_)
  rw [SheetScan.remaining, keeping_joinFirst.nil]
  rfl

/-- Scoping by offsets fails for no text, and scopes it. -/
theorem scope?_eq (css cls : String) : scope? css cls = some (scope css cls) := by
  rw [scope?, scopeText?_eq]
  rfl

/-! ### What scoping changes -/

/-- Scoping a stylesheet fails nowhere, and does no more than put copies of the marker in. Each copy
stands between two characters of an item of a selector list, and the list is all that stands between a
mark and the brace of a style rule at top level or directly in a group rule. No item gets more than one. -/
theorem scope_inserts (css cls : String) :
    scope? css cls = some (scope css cls) ∧
      let marker := '.' :: cls.toList
      let plan := sheetPlan marker css.toList
      (scope css cls).toList = Plan.fill marker plan ∧
      css.toList = Plan.text plan ∧
      (∀ point ∈ Plan.points plan, ∃ item : ScopedItem css.toList, ∃ front back,
        item.text = front ++ back ∧ point = utf8Len (item.before ++ front)) ∧
      ∀ item : ScopedItem css.toList,
        ((Plan.points plan).filter fun point => decide (item.Holds point)).length ≤ 1 := by
  refine ⟨scope?_eq css cls, ?_⟩
  intro marker plan
  refine ⟨?_, (text_sheetPlan marker css.toList).symm, fun point => exists_of_mem_points,
    fun item => ?_⟩
  · rw [scope, String.toList_ofList, fill_sheetPlan]
  · rw [item.points_in_item marker]
    exact length_pointsFrom_itemPlan_le marker item.text _

end SiteTree.Stylesheet
