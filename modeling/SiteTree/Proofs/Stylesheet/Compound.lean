import SiteTree.Proofs.Stylesheet.Token

/-!
# What a selector begins with

A selector is scanned differently from a stylesheet: a backslash hides the next character, and
comments count only outside brackets. The search for the last compound and the search for its first
colon are given here by what the selector begins with.

* `selector_induction` — a selector is read piece by piece.
* `splitLast_comment`, `splitLast_combinator`, `splitLast_quote`, `splitLast_char` — the search for
  the last compound.
* `splitPseudo_quote`, `splitPseudo_char` — the search for a colon.
-/

namespace SiteTree.Stylesheet

/-- A selector is read piece by piece, with the number of brackets that are open. -/
theorem selector_induction {motive : Nat → List Char → Prop} (nil : ∀ depth, motive depth [])
    (escaped : ∀ depth c rest, motive depth rest → motive depth ('\\' :: c :: rest))
    (comment : ∀ rest, motive 0 (closeComment rest).2 → motive 0 ('/' :: '*' :: rest))
    (string : ∀ depth quote rest, isQuote quote = true → motive depth (closeString quote rest).2 →
      motive depth (quote :: rest))
    (char : ∀ depth c rest, isQuote c = false → (c = '\\' → rest = []) →
      (depth = 0 → c = '/' → rest.head? ≠ some '*') → motive (nest depth c) rest →
      motive depth (c :: rest))
    (depth : Nat) (text : List Char) : motive depth text := by
  induction hn : text.length using Nat.strong_induction_on generalizing depth text with
  | _ n ih =>
    subst hn
    match text with
    | [] => exact nil depth
    | c :: rest =>
      cases hquote : isQuote c with
      | true =>
        refine string depth c rest hquote (ih _ ?_ depth _ rfl)
        exact Nat.lt_succ_of_le (length_closeString_le c rest)
      | false =>
        by_cases hback : c = '\\' → rest = []
        · by_cases hstar : depth = 0 → c = '/' → rest.head? ≠ some '*'
          · exact char depth c rest hquote hback hstar (ih _ (Nat.lt_succ_self _) _ _ rfl)
          · simp only [Classical.not_imp, Classical.not_not] at hstar
            obtain ⟨rfl, rfl, hhead⟩ := hstar
            obtain ⟨more, rfl⟩ := List.head?_eq_some_iff.mp hhead
            refine comment more (ih _ ?_ 0 _ rfl)
            have := length_closeComment_le more
            simp only [List.length_cons]
            omega
        · obtain ⟨rfl, hne⟩ := Classical.not_imp.mp hback
          obtain ⟨d, more, rfl⟩ := List.exists_cons_of_ne_nil hne
          refine escaped depth d more (ih _ ?_ depth _ rfl)
          simp only [List.length_cons]
          omega

/-! ### The last compound -/

theorem splitLast_escaped (depth : Nat) (c : Char) (rest : List Char) :
    splitLast .code depth ('\\' :: c :: rest)
      = (splitLast .code depth rest).map (keepFirst ['\\', c]) := by
  rw [splitLast]
  rfl

theorem splitLast_char {depth : Nat} {c : Char} {rest : List Char} (hback : c = '\\' → rest = [])
    (hstar : depth = 0 → c = '/' → rest.head? ≠ some '*')
    (hcombinator : ¬ (depth = 0 ∧ isCombinator c = true)) :
    splitLast .code depth (c :: rest)
      = (splitLast (if isQuote c then .string c else .code) (nest depth c) rest).map
          (keepFirst [c]) := by
  rw [splitLast]
  · rw [if_neg hcombinator]
    rfl
  · rintro d more rfl rfl
    exact absurd (hback rfl) (by simp)
  · rintro more rfl rfl rfl
    exact hstar rfl rfl rfl

theorem nest_of_isCombinator {c : Char} (h : isCombinator c = true) (depth : Nat) :
    nest depth c = depth := by
  have hne {d : Char} (hd : isCombinator d = false) : c ≠ d := by
    rintro rfl
    exact absurd h (by simp [hd])
  rw [nest, if_neg (not_or.mpr ⟨hne rfl, hne rfl⟩), if_neg (not_or.mpr ⟨hne rfl, hne rfl⟩)]

/-- Behind a combinator the search begins anew. -/
theorem splitLast_combinator {c : Char} (h : isCombinator c = true) (rest : List Char) :
    splitLast .code 0 (c :: rest) = some (keepFirst [c] (lastCompound rest)) := by
  rw [splitLast, if_pos ⟨rfl, h⟩, lastCompound]
  · cases splitLast .code 0 rest with
    | none => rfl
    | some cut => rfl
  · rintro d more rfl
    exact absurd h (by decide)
  · rintro more - rfl
    exact absurd h (by decide)

/-- Behind a comment the search begins anew. -/
theorem splitLast_comment (rest : List Char) :
    splitLast .code 0 ('/' :: '*' :: rest)
      = some (keepFirst ('/' :: '*' :: (closeComment rest).1)
          (lastCompound (closeComment rest).2)) := by
  have hscan := scan_comment (splitLast .comment 0) (fun rest => some (lastCompound rest))
    keeping_map_keepFirst rfl ?_ ?_ rest
  · rw [splitLast, hscan]
    rfl
  · intro c rest hslash
    rw [splitLast]
    · rfl
    · rintro more rfl rfl
      exact hslash rfl rfl
  · intro rest
    rw [splitLast, lastCompound]
    cases splitLast .code 0 rest with
    | none => rfl
    | some cut => rfl

theorem isCombinator_of_isQuote {c : Char} (h : isQuote c = true) : isCombinator c = false := by
  simp only [isQuote, Bool.or_eq_true, beq_iff_eq] at h
  rcases h with rfl | rfl <;> rfl

theorem splitLast_quote {quote : Char} (hquote : isQuote quote = true) (depth : Nat)
    (rest : List Char) :
    splitLast .code depth (quote :: rest)
      = (splitLast .code depth (closeString quote rest).2).map
          (keepFirst (quote :: (closeString quote rest).1)) := by
  have hscan := scan_string (splitLast (.string quote) depth) (splitLast .code depth)
    keeping_map_keepFirst rfl ?_ ?_ ?_ hquote rest
  · rw [splitLast_char (fun h => absurd h (ne_of_isQuote hquote (by decide)))
      (fun _ h => absurd h (ne_of_isQuote hquote (by decide)))
      (by simp [isCombinator_of_isQuote hquote]), if_pos hquote, nest_of_isQuote hquote, hscan,
      ← keeping_map_keepFirst.append]
    rfl
  · intro c rest
    rw [splitLast]
    rfl
  · intro rest hne
    rw [splitLast, if_pos rfl]
    · rfl
    · exact fun _ _ h => absurd h hne
  · intro c rest hc hback
    rw [splitLast, if_neg hc]
    · rfl
    · rintro d more rfl rfl
      exact absurd (hback rfl) (by simp)

/-! ### The first colon -/

theorem splitPseudo_escaped (depth : Nat) (c : Char) (rest : List Char) :
    splitPseudo .code depth ('\\' :: c :: rest)
      = keepFirst ['\\', c] (splitPseudo .code depth rest) := by
  rw [splitPseudo]
  rfl

theorem splitPseudo_char {depth : Nat} {c : Char} {rest : List Char} (hback : c = '\\' → rest = [])
    (hcolon : ¬ (depth = 0 ∧ c = ':')) :
    splitPseudo .code depth (c :: rest)
      = keepFirst [c]
          (splitPseudo (if isQuote c then .string c else .code) (nest depth c) rest) := by
  rw [splitPseudo, if_neg hcolon]
  · rfl
  · rintro d more rfl rfl
    exact absurd (hback rfl) (by simp)

theorem splitPseudo_colon (rest : List Char) :
    splitPseudo .code 0 (':' :: rest) = ([], ':' :: rest) := by
  rw [splitPseudo, if_pos ⟨rfl, rfl⟩]
  exact fun _ _ h => absurd h (by decide)

theorem splitPseudo_quote {quote : Char} (hquote : isQuote quote = true) (depth : Nat)
    (rest : List Char) :
    splitPseudo .code depth (quote :: rest)
      = keepFirst (quote :: (closeString quote rest).1)
          (splitPseudo .code depth (closeString quote rest).2) := by
  have hscan := scan_string (splitPseudo (.string quote) depth) (splitPseudo .code depth)
    keeping_keepFirst rfl ?_ ?_ ?_ hquote rest
  · rw [splitPseudo_char (fun h => absurd h (ne_of_isQuote hquote (by decide)))
      (fun h => absurd h.2 (ne_of_isQuote hquote (by decide))), if_pos hquote,
      nest_of_isQuote hquote, hscan, ← keeping_keepFirst.append]
    rfl
  · intro c rest
    rw [splitPseudo]
    rfl
  · intro rest hne
    rw [splitPseudo, if_pos rfl]
    · rfl
    · exact fun _ _ h => absurd h hne
  · intro c rest hc hback
    rw [splitPseudo, if_neg hc]
    · rfl
    · rintro d more rfl rfl
      exact absurd (hback rfl) (by simp)

end SiteTree.Stylesheet
