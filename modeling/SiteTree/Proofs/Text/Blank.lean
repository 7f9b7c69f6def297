import SiteTree.Text.Blank
import Mathlib.Data.List.TakeWhile

/-!
# Blanks at the end of a text

* `trimEnd_append_blanks`, `trimEnd_concat` — trimming stops at the last character that is no
  blank.
* `words_eq_singleton` — a text without blanks is one word.
* `words_append` — behind a blank, words begin anew.
-/

namespace SiteTree.Text

theorem trimEnd_append_blanks (text : List Char) {blanks : List Char}
    (h : ∀ c ∈ blanks, isBlank c = true) : trimEnd (text ++ blanks) = trimEnd text := by
  rw [trimEnd, List.reverse_append, List.dropWhile_append_of_pos]
  · rfl
  · intro c hc
    exact h c (List.mem_reverse.mp hc)

theorem trimEnd_concat (text : List Char) {c : Char} (h : isBlank c = false) :
    trimEnd (text ++ [c]) = text ++ [c] := by
  rw [trimEnd, List.reverse_append, List.reverse_singleton, List.singleton_append,
    List.dropWhile_cons_of_neg (by simp [h])]
  simp

/-- Trimming takes off nothing but blanks. -/
theorem exists_trimEnd_append (text : List Char) :
    ∃ blanks, trimEnd text ++ blanks = text ∧ ∀ c ∈ blanks, isBlank c = true := by
  refine ⟨(text.reverse.takeWhile isBlank).reverse, ?_, ?_⟩
  · rw [trimEnd, ← List.reverse_append, List.takeWhile_append_dropWhile, List.reverse_reverse]
  · intro c hc
    exact List.mem_takeWhile_imp (List.mem_reverse.mp hc)

/-- What is left of a text begins with a character that is not dropped. -/
theorem head?_dropWhile {p : Char → Bool} (text : List Char) :
    ∀ c ∈ (text.dropWhile p).head?, p c = false := by
  intro c hc
  have hhead := List.head?_dropWhile_not p text
  rw [Option.mem_def.mp hc] at hhead
  simpa using hhead

theorem isBlank_getLast?_trimEnd (text : List Char) :
    ∀ c ∈ (trimEnd text).getLast?, isBlank c = false := by
  intro c hc
  rw [trimEnd, List.getLast?_reverse] at hc
  exact head?_dropWhile text.reverse c hc

/-- Trimming stops at the last character that is no blank. -/
theorem getLast?_trimEnd (text : List Char) :
    (trimEnd text).getLast? = (text.filter fun c => !isBlank c).getLast? := by
  obtain ⟨blanks, htext, hblanks⟩ := exists_trimEnd_append text
  have hnone : blanks.filter (fun c => !isBlank c) = [] :=
    List.filter_eq_nil_iff.mpr fun c hc => by simp [hblanks c hc]
  have hfilter : text.filter (fun c => !isBlank c) = (trimEnd text).filter fun c => !isBlank c := by
    conv => lhs; rw [← htext, List.filter_append, hnone, List.append_nil]
  rw [hfilter]
  have hlast := isBlank_getLast?_trimEnd text
  rcases List.eq_nil_or_concat (trimEnd text) with hnil | ⟨front, c, hconcat⟩
  · rw [hnil]
    rfl
  · rw [hconcat] at hlast ⊢
    have hc := hlast c (Option.mem_def.mpr (by simp))
    simp [hc]

theorem getLast?_trimEnd_append (first second : List Char) :
    (trimEnd (first ++ second)).getLast?
      = (trimEnd second).getLast?.or (trimEnd first).getLast? := by
  rw [getLast?_trimEnd, getLast?_trimEnd, getLast?_trimEnd, List.filter_append, List.getLast?_append]

theorem allBlank_eq_false {text : List Char} (hne : text ≠ [])
    (h : ∀ c ∈ text, isBlank c = false) : allBlank text = false := by
  cases text with
  | nil => exact absurd rfl hne
  | cons c text => simp [allBlank, h c List.mem_cons_self]

theorem words_eq_singleton {text : List Char} (hne : text ≠ [])
    (h : ∀ c ∈ text, isBlank c = false) : words text = [text] := by
  induction text with
  | nil => exact absurd rfl hne
  | cons c text ih =>
    have hc := h c List.mem_cons_self
    have htext : ∀ d ∈ text, isBlank d = false := fun d hd => h d (List.mem_cons_of_mem _ hd)
    cases text with
    | nil => simp [words, hc]
    | cons d text =>
      have hd := htext d List.mem_cons_self
      unfold words
      rw [ih (by simp) htext, if_neg (by simp [hc])]
      exact if_neg (by simp [hd])

theorem words_cons_ne_nil {c : Char} (h : isBlank c = false) (text : List Char) :
    words (c :: text) ≠ [] := by
  unfold words
  rw [if_neg (by simp [h])]
  split
  · split
    · exact List.cons_ne_nil _ _
    · exact List.cons_ne_nil _ _
  · exact List.cons_ne_nil _ _

theorem words_cons_of_isBlank {c : Char} (h : isBlank c = true) (text : List Char) :
    words (c :: text) = words text := by
  rw [words.eq_def]
  exact if_pos h

theorem words_cons_cons {c d : Char} (h : isBlank c = false) (text : List Char) :
    words (c :: d :: text) = match words (d :: text) with
      | word :: more => if isBlank d then [c] :: word :: more else (c :: word) :: more
      | [] => [[c]] := by
  rw [words.eq_def]
  dsimp only
  rw [if_neg (by simp [h])]
  cases words (d :: text) with
  | nil => rfl
  | cons word more => rfl

theorem words_append {first second : List Char} (h : ∀ c ∈ first.getLast?, isBlank c = true) :
    words (first ++ second) = words first ++ words second := by
  induction first with
  | nil => rfl
  | cons c first ih =>
    cases first with
    | nil => simp [words, h c rfl]
    | cons d first =>
      have ih := ih fun e he => h e (by rwa [List.getLast?_cons_cons])
      simp only [List.cons_append] at ih ⊢
      cases hc : isBlank c with
      | true => rw [words_cons_of_isBlank hc, words_cons_of_isBlank hc, ih]
      | false =>
        rw [words_cons_cons hc, words_cons_cons hc, ih]
        cases hwords : words (d :: first) with
        | cons word more =>
          cases hd : isBlank d with
          | true => simp
          | false => simp
        | nil =>
          have hd : isBlank d = true := by
            by_contra hd
            exact words_cons_ne_nil (by simpa using hd) first hwords
          cases words second with
          | nil => simp
          | cons word more => simp [hd]

end SiteTree.Text
