import SiteTree.Proofs.Stylesheet.TokenCompound

/-!
# Comments in selectors

Four scans tell comments from code: that of a stylesheet, that of a list, that of a selector, and the
search backwards for the comments behind one. Where they agree, no comment hides a selector, whatever
stands in it: the marker is put between two tokens of the stylesheet, once for each item.

They differ in three ways. The search backwards takes the last `/*` for the opening, also one that
stands within the comment or, when `*/` is code, within a string; a selector's backslash also hides what
opens a comment or a string; and between brackets a selector's comments are code. An item is readable
when it shows none of these differences.

* `pointsFrom_readable` — where the marker is put in an item that is readable.
* `scope_beside_comments` — it is put between tokens, once for each item that holds a selector.
* `comment_hides_marker` — the comment behind a selector that hides the marker in another comment.
-/

namespace SiteTree.Stylesheet

open String (utf8Len)

/-! ### Items that are read as they stand -/

/-- An item in which comments, strings and code are to the scan of a selector, and to the search for
the comments behind it, what they are to the scan of the stylesheet. -/
structure Readable (row : List Token) : Prop where
  opensOnce : ∀ token ∈ gapsBehind row, token.opensOnce = true
  ends : ¬ [.code '*', .code '/'] <:+ trimGaps row
  plain : isPlain 0 (trimGaps row) = true

instance (row : List Token) : Decidable (Readable row) :=
  decidable_of_iff ((∀ token ∈ gapsBehind row, token.opensOnce = true) ∧
      ¬ [.code '*', .code '/'] <:+ trimGaps row ∧ isPlain 0 (trimGaps row) = true)
    ⟨fun ⟨once, ends, plain⟩ => ⟨once, ends, plain⟩, fun h => ⟨h.opensOnce, h.ends, h.plain⟩⟩

/-- What stands in front of a marker in a row that gets one. -/
def beforeMarker (row : List Token) : List Token :=
  let (head, last) := lastTokens (trimGaps row)
  row.takeWhile Token.isGap ++ (head ++ (splitColon 0 last).1)

theorem trimGaps_join (row : List Token) :
    row.takeWhile Token.isGap ++ (trimGaps row ++ gapsBehind row) = row := by
  rw [trimGaps, gapsBehind, List.rdropWhile_append_rtakeWhile, List.takeWhile_append_dropWhile]

theorem beforeMarker_isPrefix (row : List Token) : beforeMarker row <+: row := by
  have hrow := trimGaps_join row
  have hcore := (lastTokens_spec (trimGaps row)).1
  have hlast := splitColon_join 0 (lastTokens (trimGaps row)).2
  refine ⟨(splitColon 0 (lastTokens (trimGaps row)).2).2 ++ gapsBehind row, ?_⟩
  conv => rhs; rw [← hrow, ← hcore, ← hlast]
  simp [beforeMarker]

theorem trimGaps_eq_nil_iff {row : List Token} :
    trimGaps row = [] ↔ ∀ token ∈ row, token.isGap = true := by
  rw [trimGaps, List.rdropWhile_eq_nil_iff]
  refine ⟨fun h token htoken => ?_, fun h token htoken => ?_⟩
  · rw [← List.takeWhile_append_dropWhile (p := Token.isGap) (l := row), List.mem_append] at htoken
    rcases htoken with hlead | hrest
    · exact List.mem_takeWhile_imp hlead
    · exact h token hrest
  · exact h token ((List.dropWhile_sublist _).subset htoken)

theorem tokensText_trimGaps_eq_nil_iff {text : List Char}
    (hclosed : ∀ token ∈ tokens text, token.IsClosed) :
    tokensText (trimGaps (tokens text)) = [] ↔ trimGaps (tokens text) = [] := by
  refine ⟨fun h => ?_, fun h => by rw [h]; rfl⟩
  cases hcore : trimGaps (tokens text) with
  | nil => rfl
  | cons token core =>
    rw [hcore, tokensText_cons, List.append_eq_nil_iff] at h
    refine absurd h.1 (text_ne_nil_of_isClosed (hclosed token ?_))
    rw [← trimGaps_join (tokens text), hcore]
    simp

section Item

variable {text : List Char} (hclosed : ∀ token ∈ tokens text, token.IsClosed)
  (hreadable : Readable (tokens text))

include hclosed hreadable

theorem trimEnd_trimStart_eq :
    trimEnd (trimStart text) = tokensText (trimGaps (tokens text)) := by
  rw [trimStart_eq, trimEnd_eq ?_ hreadable.opensOnce hreadable.ends]
  · rfl
  · exact fun token htoken => hclosed token ((List.dropWhile_sublist _).subset htoken)

/-- The plan of a selector has its slot between tokens, if it has one. -/
theorem selectorPlan_eq (marker : List Char) :
    let core := trimGaps (tokens text)
    let (head, last) := lastTokens core
    let (stem, pseudo) := splitColon 0 last
    selectorPlan marker (tokensText core)
      = if Text.occursIn marker (tokensText last) then Plan.copied (tokensText core)
        else Plan.copied (tokensText (head ++ stem)) ++ none :: Plan.copied (tokensText pseudo) := by
  intro core
  have htokens := trimGaps_join (tokens text)
  have hcore : tokens (tokensText core) = core :=
    (tokens_of_append (tokens_of_append htokens.symm).2).1
  obtain ⟨hjoin, hnone, hplain⟩ := lastTokens_spec core
  have hlast : tokens (tokensText (lastTokens core).2) = (lastTokens core).2 :=
    (tokens_of_append (hcore.trans hjoin.symm)).2
  have hcoreClosed : ∀ token ∈ core, token.IsClosed := by
    intro token htoken
    refine hclosed token ?_
    rw [← htokens]
    simp [core, htoken]
  have hlastClosed : ∀ token ∈ (lastTokens core).2, token.IsClosed := by
    intro token htoken
    refine hcoreClosed token ?_
    rw [← hjoin]
    simp [htoken]
  have hcompound : splitLast .code 0 (tokensText core)
      = (splitCompound 0 (tokens (tokensText core))).map (Prod.map tokensText tokensText) :=
    splitLast_tokens (by rwa [hcore]) (by rw [hcore]; exact hreadable.plain)
  have hcolon : splitPseudo .code 0 (tokensText (lastTokens core).2)
      = Prod.map tokensText tokensText
          (splitColon 0 (tokens (tokensText (lastTokens core).2))) :=
    splitPseudo_tokens (by rwa [hlast]) (by rw [hlast]; exact hplain hreadable.plain)
      (by rwa [hlast])
  have hfound := lastCompound_tokens hcompound
  rw [hcore] at hfound
  rw [hlast] at hcolon
  dsimp only
  rw [selectorPlan, hfound]
  dsimp only [Prod.map]
  rw [hcolon]
  simp

/-- The marker is put between tokens, into the last compound of an item. -/
theorem pointsFrom_readable (marker : List Char) (offset : Nat) :
    Plan.pointsFrom offset (itemPlan marker text)
      = if trimGaps (tokens text) = []
          ∨ Text.occursIn marker (tokensText (lastTokens (trimGaps (tokens text))).2) = true
        then [] else [offset + utf8Len (tokensText (beforeMarker (tokens text)))] := by
  have htext : tokensText ((tokens text).takeWhile Token.isGap) ++ trimStart text = text := by
    rw [trimStart_eq, ← tokensText_append, List.takeWhile_append_dropWhile, text_tokens]
  have hlead : text.take (text.length - (trimStart text).length)
      = tokensText ((tokens text).takeWhile Token.isGap) := by
    have hlength := congrArg List.length htext
    rw [List.length_append] at hlength
    rw [show text.length - (trimStart text).length
      = (tokensText ((tokens text).takeWhile Token.isGap)).length by omega]
    conv => lhs; arg 2; rw [← htext]
    rw [List.take_left]
  have hselector := selectorPlan_eq hclosed hreadable marker
  rw [pointsFrom_itemPlan, trimEnd_trimStart_eq hclosed hreadable, hlead]
  simp only [tokensText_trimGaps_eq_nil_iff hclosed, hselector]
  by_cases hempty : trimGaps (tokens text) = []
  · rw [if_pos hempty, if_pos (.inl hempty)]
  · rw [if_neg hempty]
    split
    · next hoccurs => rw [if_pos (.inr hoccurs), Plan.pointsFrom_copied]
    · next hoccurs =>
      rw [if_neg (not_or.mpr ⟨hempty, hoccurs⟩), Plan.pointsFrom_append, Plan.pointsFrom_copied,
        Plan.pointsFrom, Plan.pointsFrom_copied, Plan.text_copied, beforeMarker]
      simp [Nat.add_assoc]

end Item

/-- Does a place stand between two tokens of a text, with so many bytes in front of it? -/
def BetweenTokens (text : List Char) (point : Nat) : Prop :=
  ∃ first second, tokens text = first ++ second ∧ point = utf8Len (tokensText first)

theorem ScopedItem.betweenTokens {css : List Char} (item : ScopedItem css) {front back : List Token}
    (h : tokens item.text = front ++ back) :
    BetweenTokens css (utf8Len item.before + utf8Len (tokensText front)) := by
  obtain ⟨first, c, last, hcss, hfirst⟩ := item.exists_tokens
  refine ⟨first ++ front, back ++ .code c :: last, ?_, ?_⟩
  · rw [hcss, h]
    simp
  · rw [tokensText_append, hfirst, String.utf8Len_append]

/-- Comments hide no selector: what is put into an item that is read as it stands is put between
tokens, never into a comment or a string, and an item that is not just blanks and comments gets exactly
one marker unless its last compound has one already. -/
theorem scope_beside_comments (css cls : String) (item : ScopedItem css.toList)
    (hreadable : Readable (tokens item.text)) :
    let marker := '.' :: cls.toList
    let plan := sheetPlan marker css.toList
    (scope css cls).toList = Plan.fill marker plan ∧
      css.toList = Plan.text plan ∧
      (∀ point ∈ Plan.points plan, item.Holds point → BetweenTokens css.toList point) ∧
      ((Plan.points plan).filter fun point => decide (item.Holds point)).length
        = if (∀ token ∈ tokens item.text, token.isGap = true)
            ∨ Text.occursIn marker (tokensText (lastTokens (trimGaps (tokens item.text))).2) = true
          then 0 else 1 := by
  intro marker plan
  have hclosed : ∀ token ∈ tokens item.text, token.IsClosed := fun token => item.isClosed
  have hpoints := item.points_in_item marker
  rw [pointsFrom_readable hclosed hreadable] at hpoints
  refine ⟨?_, (text_sheetPlan marker css.toList).symm, ?_, ?_⟩
  · rw [scope, String.toList_ofList, fill_sheetPlan]
  · intro point hpoint hholds
    have hmem : point ∈ (Plan.points plan).filter fun point => decide (item.Holds point) :=
      List.mem_filter.mpr ⟨hpoint, decide_eq_true hholds⟩
    rw [hpoints] at hmem
    split at hmem
    · exact absurd hmem List.not_mem_nil
    · obtain rfl := List.mem_singleton.mp hmem
      obtain ⟨back, hback⟩ := beforeMarker_isPrefix (tokens item.text)
      exact item.betweenTokens hback.symm
  · refine (congrArg List.length hpoints).trans ?_
    simp only [← trimGaps_eq_nil_iff]
    split <;> rfl

/-- An item with comments on all sides. They hold a quote, a comma, a brace and the opening of a
comment; the last one hides nothing. -/
def commentedSheet : String :=
  "/* ' /* */ a /* , \x7b */ b:is(/* , */ c):d /* \x7d */, e \x7b\x7d"

def commentedItem : ScopedItem commentedSheet.toList where
  front := []
  list := "/* ' /* */ a /* , \x7b */ b:is(/* , */ c):d /* \x7d */, e ".toList
  back := [⟨[], .closing⟩]
  earlier := []
  text := "/* ' /* */ a /* , \x7b */ b:is(/* , */ c):d /* \x7d */".toList
  later := [" e ".toList]
  segments_eq := by decide +kernel
  isRule := by decide +kernel
  inside := by decide +kernel
  items_eq := by decide +kernel

theorem scope_beside_comments_commentedItem :
    Readable (tokens commentedItem.text) ∧
      ((Plan.points (sheetPlan ".-q".toList commentedSheet.toList)).filter fun point =>
        decide (commentedItem.Holds point)).length = 1 := by
  have hreadable : Readable (tokens commentedItem.text) := by decide +kernel
  have hcount := (scope_beside_comments commentedSheet "-q" commentedItem hreadable).2.2.2
  exact ⟨hreadable, hcount.trans (if_neg (by decide +kernel))⟩

instance (text : List Char) (point : Nat) : Decidable (BetweenTokens text point) :=
  decidable_of_iff (∃ first ∈ (tokens text).inits, point = utf8Len (tokensText first)) <| by
    simp only [BetweenTokens, List.mem_inits]
    constructor
    · rintro ⟨first, ⟨second, hjoin⟩, hpoint⟩
      exact ⟨first, second, hjoin.symm, hpoint⟩
    · rintro ⟨first, second, htokens, hpoint⟩
      exact ⟨first, ⟨second, htokens.symm⟩, hpoint⟩

/-- A comment that holds `/*` is taken off only from there on, and the marker is put into the rest. -/
theorem comment_hides_marker :
    ¬ ∀ css cls : String, ∀ point ∈ Plan.points (sheetPlan ('.' :: cls.toList) css.toList),
      BetweenTokens css.toList point := by
  intro h
  exact absurd (h "a /* x /* y */\x7b\x7d" "-q1") (by decide +kernel)

end SiteTree.Stylesheet
