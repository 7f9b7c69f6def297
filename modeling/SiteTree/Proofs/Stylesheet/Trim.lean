import SiteTree.Proofs.Stylesheet.Token
import SiteTree.Proofs.Text.Blank

/-!
# Trimming blanks and comments

Leading blanks and comments are dropped forwards, and trailing ones backwards: a text that ends in `*/`
is cut in front of the last `/*` before that, whatever stands there.

* `dropLead_true`, `dropTrail_some` — dropping a comment.
* `dropLead_eq_self`, `dropTrail_eq_self` — where nothing is dropped.
* `trimEnd_append_comment`, `trimEnd_append_blank`, `trimEnd_append_char` — trimming by what a text
  ends in.
-/

namespace SiteTree.Stylesheet

/-! ### At the beginning -/

theorem dropLead_true (text : List Char) :
    dropLead true text = dropLead false (closeComment text).2 := by
  refine scan_comment (dropLead true) (dropLead false) keeping_dropped rfl ?_ ?_ text
  · intro c rest hslash
    rw [dropLead]
    rintro _ rfl rfl
    exact hslash rfl rfl
  · exact fun rest => rfl

theorem dropLead_blank {c : Char} (h : Text.isBlank c = true) (rest : List Char) :
    dropLead false (c :: rest) = dropLead false rest := by
  rw [dropLead, if_pos h]
  rintro more rfl
  exact absurd h (by decide)

theorem dropLead_char {c : Char} {rest : List Char} (h : Text.isBlank c = false)
    (hstar : c = '/' → rest.head? ≠ some '*') : dropLead false (c :: rest) = c :: rest := by
  rw [dropLead, if_neg (by simp [h])]
  rintro more rfl rfl
  exact hstar rfl rfl

theorem dropLead_dropWhile (text : List Char) :
    dropLead false (text.dropWhile Text.isBlank) = dropLead false text := by
  induction text with
  | nil => rfl
  | cons c text ih =>
    cases hc : Text.isBlank c with
    | false => rw [List.dropWhile_cons_of_neg (by simp [hc])]
    | true => rw [List.dropWhile_cons_of_pos hc, ih, dropLead_blank hc]

theorem head?_ne_of_after? {c d : Char} {rest : List Char}
    (h : Text.after? [c, d] (c :: rest) = none) : rest.head? ≠ some d := by
  intro hhead
  obtain ⟨more, rfl⟩ := List.head?_eq_some_iff.mp hhead
  exact absurd h (by simp [Text.after?])

/-- Nothing is dropped from a text that begins neither with a blank nor with a comment. -/
theorem dropLead_eq_self {text : List Char} (hblank : ∀ c ∈ text.head?, Text.isBlank c = false)
    (hcomment : Text.after? ['/', '*'] text = none) : dropLead false text = text := by
  cases text with
  | nil => rfl
  | cons c rest =>
    refine dropLead_char (hblank c rfl) ?_
    rintro rfl
    exact head?_ne_of_after? hcomment

/-! ### At the end -/

theorem dropTrail_some (kept text : List Char) :
    dropTrail (some kept) text = match Text.splitFirst? ['*', '/'] text with
      | some (_, front) => dropTrail none front
      | none => kept := by
  induction text with
  | nil => rfl
  | cons c rest ih =>
    cases hafter : Text.after? ['*', '/'] (c :: rest) with
    | some front =>
      rw [Text.splitFirst?, hafter, ← Text.append_of_after? hafter]
      rfl
    | none =>
      have hchar : c = '*' → rest.head? ≠ some '/' := by
        rintro rfl
        exact head?_ne_of_after? hafter
      rw [splitFirst?_char hchar, dropTrail, ih]
      · cases Text.splitFirst? ['*', '/'] rest with
        | none => rfl
        | some found => rfl
      · rintro front rfl rfl
        exact hchar rfl rfl

theorem dropTrail_blank {c : Char} (h : Text.isBlank c = true) (rest : List Char) :
    dropTrail none (c :: rest) = dropTrail none rest := by
  rw [dropTrail, if_pos h]
  rintro more rfl
  exact absurd h (by decide)

theorem dropTrail_char {c : Char} {rest : List Char} (h : Text.isBlank c = false)
    (hstar : c = '/' → rest.head? ≠ some '*') : dropTrail none (c :: rest) = c :: rest := by
  rw [dropTrail, if_neg (by simp [h])]
  rintro more rfl rfl
  exact hstar rfl rfl

theorem dropTrail_dropWhile (text : List Char) :
    dropTrail none (text.dropWhile Text.isBlank) = dropTrail none text := by
  induction text with
  | nil => rfl
  | cons c text ih =>
    cases hc : Text.isBlank c with
    | false => rw [List.dropWhile_cons_of_neg (by simp [hc])]
    | true => rw [List.dropWhile_cons_of_pos hc, ih, dropTrail_blank hc]

theorem dropTrail_eq_self {text : List Char} (hblank : ∀ c ∈ text.head?, Text.isBlank c = false)
    (hcomment : Text.after? ['/', '*'] text = none) : dropTrail none text = text := by
  cases text with
  | nil => rfl
  | cons c rest =>
    refine dropTrail_char (hblank c rfl) ?_
    rintro rfl
    exact head?_ne_of_after? hcomment

theorem trimEnd_reverse (text : List Char) :
    trimEnd text = (dropTrail none (Text.trimEnd text).reverse).reverse := by
  rw [trimEnd, Text.trimEnd, List.reverse_reverse, dropTrail_dropWhile]

theorem trimEnd_append_comment (text : List Char) {content : List Char}
    (h : ¬ ['/', '*'] <:+: content) :
    trimEnd (text ++ '/' :: '*' :: (content ++ ['*', '/'])) = trimEnd text := by
  have hfirst : Text.splitFirst? ['*', '/'] (content.reverse ++ '*' :: '/' :: text.reverse)
      = some (content.reverse, text.reverse) := by
    refine (Text.splitFirst?_eq_some_iff (by simp)).mpr ⟨by simp, ?_⟩
    rintro ⟨front, back, hinfix⟩
    rcases List.eq_nil_or_concat back with rfl | ⟨back, d, rfl⟩
    · have hlast := congrArg List.getLast? hinfix
      simp at hlast
    · rw [List.concat_eq_append, ← List.append_assoc] at hinfix
      have hcontent := List.append_inj_left' hinfix rfl
      refine h (List.reverse_infix.mp ?_)
      exact ⟨front, back, hcontent⟩
  have hreverse : (text ++ '/' :: '*' :: (content ++ ['*', '/'])).reverse
      = '/' :: '*' :: (content.reverse ++ '*' :: '/' :: text.reverse) := by simp
  rw [trimEnd, trimEnd, hreverse]
  refine congrArg List.reverse ((dropTrail_some _ _).trans ?_)
  rw [hfirst]

theorem trimEnd_append_blank (text : List Char) {c : Char} (h : Text.isBlank c = true) :
    trimEnd (text ++ [c]) = trimEnd text := by
  rw [trimEnd, trimEnd, List.reverse_append, List.reverse_singleton, List.singleton_append,
    dropTrail_blank h]

theorem trimEnd_append_char (text : List Char) {c : Char} (h : Text.isBlank c = false)
    (hslash : c = '/' → text.getLast? ≠ some '*') : trimEnd (text ++ [c]) = text ++ [c] := by
  have hstar : c = '/' → text.reverse.head? ≠ some '*' := by rwa [List.head?_reverse]
  rw [trimEnd, List.reverse_append, List.reverse_singleton, List.singleton_append,
    dropTrail_char h hstar, List.reverse_cons, List.reverse_reverse]

end SiteTree.Stylesheet
