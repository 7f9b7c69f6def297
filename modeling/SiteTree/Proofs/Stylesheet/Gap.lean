import SiteTree.Proofs.Stylesheet.Item
import SiteTree.Proofs.Stylesheet.Trim
import Mathlib.Data.List.DropRight

/-!
# Blanks and comments around a selector

The blanks and comments at the ends of an item are tokens, and trimming takes just these tokens off
when the comments behind the selector open only once and it does not end in a `*/` of its own.

* `ScopedItem.isClosed` — no comment and no string of an item is left open.
* `trimStart_eq`, `trimEnd_eq` — what trimming takes off.
-/

namespace SiteTree.Stylesheet

/-! ### Tokens that are closed -/

/-- Does a comment or a string end with what closes it? -/
def Token.IsClosed : Token → Prop
  | code _ => True
  | comment text => ∃ content, text = '/' :: '*' :: (content ++ ['*', '/'])
  | string text => ∃ quote content, isQuote quote = true ∧ text = quote :: (content ++ [quote])

theorem exists_closeComment {text : List Char} (h : (closeComment text).2 ≠ []) :
    ∃ content, (closeComment text).1 = content ++ ['*', '/'] := by
  rw [closeComment_eq] at h ⊢
  cases hfound : Text.splitFirst? ['*', '/'] text with
  | none => exact absurd (by rw [hfound]) h
  | some found => exact ⟨found.1, rfl⟩

theorem exists_closeString {quote : Char} {text : List Char} (h : (closeString quote text).2 ≠ []) :
    ∃ content, (closeString quote text).1 = content ++ [quote] := by
  fun_induction closeString quote text with
  | case1 => exact absurd rfl h
  | case2 c rest ih =>
    obtain ⟨content, hcontent⟩ := ih h
    exact ⟨'\\' :: c :: content, by simp [keepFirst, hcontent]⟩
  | case3 rest hnot => exact ⟨[], rfl⟩
  | case4 c rest hnot hc ih =>
    obtain ⟨content, hcontent⟩ := ih h
    exact ⟨c :: content, by simp [keepFirst, hcontent]⟩

/-- A token that another one follows is closed. -/
theorem isClosed_of_tokens {text : List Char} {first : List Token} {token next : Token}
    {last : List Token} (h : tokens text = first ++ token :: next :: last) : token.IsClosed := by
  induction text using text_induction generalizing first with
  | nil => exact absurd h (by simp [tokens_nil])
  | comment rest ih =>
    rw [tokens_comment] at h
    rcases List.cons_eq_append_iff.mp h with ⟨rfl, htoken⟩ | ⟨front, rfl, hrest⟩
    · obtain ⟨rfl, hrest⟩ := List.cons.inj htoken
      obtain ⟨content, hcontent⟩ := exists_closeComment (tokens_ne_nil (by rw [← hrest]; simp))
      exact ⟨content, by rw [hcontent]⟩
    · exact ih hrest
  | string quote rest hquote ih =>
    rw [tokens_string hquote] at h
    rcases List.cons_eq_append_iff.mp h with ⟨rfl, htoken⟩ | ⟨front, rfl, hrest⟩
    · obtain ⟨rfl, hrest⟩ := List.cons.inj htoken
      obtain ⟨content, hcontent⟩ := exists_closeString (tokens_ne_nil (by rw [← hrest]; simp))
      exact ⟨quote, content, hquote, by rw [hcontent]⟩
    · exact ih hrest
  | code c rest hquote hstar ih =>
    rw [tokens_code hquote hstar] at h
    rcases List.cons_eq_append_iff.mp h with ⟨rfl, htoken⟩ | ⟨front, rfl, hrest⟩
    · obtain ⟨rfl, -⟩ := List.cons.inj htoken
      trivial
    · exact ih hrest

theorem ScopedItem.isClosed {css : List Char} (item : ScopedItem css) {token : Token}
    (h : token ∈ tokens item.text) : token.IsClosed := by
  obtain ⟨first, c, last, hcss, -⟩ := item.exists_tokens
  obtain ⟨front, back, hitem⟩ := List.append_of_mem h
  rw [hitem] at hcss
  have hbehind : back ++ .code c :: last ≠ [] := by simp
  obtain ⟨next, rest, hnext⟩ := List.exists_cons_of_ne_nil hbehind
  have htokens : tokens css = first ++ front ++ token :: next :: rest := by
    rw [hcss, ← hnext]
    simp
  exact isClosed_of_tokens htokens

/-! ### Blanks and comments around a selector -/

/-- Is the token a blank or a comment? -/
def Token.isGap : Token → Bool
  | code c => Text.isBlank c
  | comment _ => true
  | string _ => false

/-- A row without the blanks and comments at its ends. -/
def trimGaps (row : List Token) : List Token :=
  (row.dropWhile Token.isGap).rdropWhile Token.isGap

/-- The blanks and comments behind what is left of a row. -/
def gapsBehind (row : List Token) : List Token :=
  (row.dropWhile Token.isGap).rtakeWhile Token.isGap

theorem isBlank_of_isQuote {quote : Char} (h : isQuote quote = true) :
    Text.isBlank quote = false := by
  simp only [isQuote, Bool.or_eq_true, beq_iff_eq] at h
  rcases h with rfl | rfl <;> decide

theorem trimStart_eq (text : List Char) :
    trimStart text = tokensText ((tokens text).dropWhile Token.isGap) := by
  rw [trimStart]
  induction text using text_induction with
  | nil => rfl
  | comment rest ih =>
    rw [tokens_comment, List.dropWhile_cons_of_pos rfl, ← ih, ← dropLead_true]
    rfl
  | string quote rest hquote ih =>
    have hblank : Text.isBlank quote = false := isBlank_of_isQuote hquote
    rw [tokens_string hquote, List.dropWhile_cons_of_neg (by simp [Token.isGap]),
      ← tokens_string hquote, text_tokens,
      dropLead_char hblank fun h => absurd h (ne_of_isQuote hquote (by decide))]
  | code c rest hquote hstar ih =>
    rw [tokens_code hquote hstar]
    cases hblank : Text.isBlank c with
    | true => rw [List.dropWhile_cons_of_pos (by simp [Token.isGap, hblank]), dropLead_blank hblank, ih]
    | false =>
      rw [List.dropWhile_cons_of_neg (by simp [Token.isGap, hblank]), ← tokens_code hquote hstar,
        text_tokens, dropLead_char hblank hstar]

/-- Does a comment open only once? The search for the opening of a comment that is to be trimmed
begins at its end. -/
def Token.opensOnce : Token → Bool
  | comment text => !Text.occursIn ['/', '*'] (text.drop 2).dropLast.dropLast
  | _ => true

theorem eq_star_of_getLast? {token : Token} (hclosed : token.IsClosed)
    (h : token.text.getLast? = some '*') : token = .code '*' := by
  cases token with
  | code c =>
    obtain rfl : c = '*' := by simpa [Token.text] using h
    rfl
  | comment text =>
    obtain ⟨content, rfl⟩ := hclosed
    simp [Token.text, List.getLast?_cons] at h
  | string text =>
    obtain ⟨quote, content, hquote, rfl⟩ := hclosed
    obtain rfl : quote = '*' := by simpa [Token.text, List.getLast?_cons] using h
    exact absurd hquote (by decide)

theorem text_ne_nil_of_isClosed {token : Token} (h : token.IsClosed) : token.text ≠ [] := by
  cases token with
  | code c => exact List.cons_ne_nil _ _
  | comment text =>
    obtain ⟨content, rfl⟩ := h
    exact List.cons_ne_nil _ _
  | string text =>
    obtain ⟨quote, content, -, rfl⟩ := h
    exact List.cons_ne_nil _ _

/-- Behind a selector blanks and comments are trimmed, and nothing else. -/
theorem trimEnd_eq {row : List Token} (hclosed : ∀ token ∈ row, token.IsClosed)
    (hbehind : ∀ token ∈ row.rtakeWhile Token.isGap, token.opensOnce = true)
    (hend : ¬ [.code '*', .code '/'] <:+ row.rdropWhile Token.isGap) :
    trimEnd (tokensText row) = tokensText (row.rdropWhile Token.isGap) := by
  induction row using List.reverseRecOn with
  | nil => rfl
  | append_singleton row token ih =>
    have hrow : ∀ token ∈ row, token.IsClosed := fun t ht => hclosed t (by simp [ht])
    have htoken : token.IsClosed := hclosed token (by simp)
    cases hgap : token.isGap with
    | true =>
      rw [List.rdropWhile_concat_pos _ _ _ hgap] at hend ⊢
      rw [List.rtakeWhile_concat_pos _ _ _ hgap] at hbehind
      rw [← ih hrow (fun t ht => hbehind t (by simp [ht])) hend, tokensText_append]
      cases token with
      | code c => exact trimEnd_append_blank _ hgap
      | comment text =>
        obtain ⟨content, rfl⟩ := htoken
        have honce := hbehind _ (List.mem_append_right _ List.mem_cons_self)
        rw [tokensText_cons, tokensText_nil, List.append_nil]
        refine trimEnd_append_comment _ ?_
        rw [← Text.occursIn_iff]
        simpa [Token.opensOnce] using honce
      | string text => exact absurd hgap (by simp [Token.isGap])
    | false =>
      rw [List.rdropWhile_concat_neg _ _ _ (by simp [hgap])] at hend ⊢
      rw [tokensText_append, tokensText_cons, tokensText_nil, List.append_nil]
      cases token with
      | code c =>
        refine trimEnd_append_char _ hgap ?_
        rintro rfl hstar
        -- A star in front of the slash is a token of its own, so the row ends in `*/`.
        rcases List.eq_nil_or_concat row with rfl | ⟨front, last, rfl⟩
        · exact absurd hstar (by simp)
        · have hlast := hrow last (by simp)
          rw [List.concat_eq_append, tokensText_append, tokensText_cons, tokensText_nil,
            List.append_nil, List.getLast?_append_of_ne_nil _ (text_ne_nil_of_isClosed hlast)] at hstar
          obtain rfl := eq_star_of_getLast? hlast hstar
          exact hend ⟨front, by simp⟩
      | comment text => exact absurd hgap (by simp [Token.isGap])
      | string text =>
        obtain ⟨quote, content, hquote, rfl⟩ := htoken
        have hblank : Text.isBlank quote = false := isBlank_of_isQuote hquote
        have hlast := trimEnd_append_char (tokensText row ++ quote :: content) hblank
          fun h => absurd h (ne_of_isQuote hquote (by decide))
        simpa [Token.text] using hlast

end SiteTree.Stylesheet
