import SiteTree.Proofs.Stylesheet.Compound
import SiteTree.Proofs.Stylesheet.Gap

/-!
# Escaped characters in a selector

Behind a backslash a character is a part of a name, whatever it is elsewhere. A selector and the same
selector with pairs of its letters replaced by escaped characters are scoped at the same places.

Only the search for the last compound and the search for its first colon know of backslashes. To all
other scans an escaped character is what it is without the backslash, so it is to be one that does
nothing there: no quote, no brace, no semicolon and no comma, not half of what opens or closes a comment,
and no blank where blanks are trimmed.

* `Escapes` — a text, and the same text with pairs of letters replaced by escaped characters.
* `trimStart_escapes`, `trimEnd_escapes` — both are trimmed in the same places.
* `lastCompound_escapes`, `splitPseudo_escapes` — both are cut in the same places.
* `itemPlan_escapes` — both have their slots in the same places.
-/

namespace SiteTree.Stylesheet

open String (utf8Len)

/-! ### Pairs of letters and escaped characters -/

/-- An ASCII character that does nothing behind a backslash, also in a scan that does not know what a
backslash is. The character behind it is `next`. -/
structure IsInert (c : Char) (next : Option Char) : Prop where
  ascii : c.toNat < 128
  plain : c ∉ ['"', '\'', '\x7b', '\x7d', ';', ',']
  opens : c = '/' → next ≠ some '*'
  closes : c = '*' → next ≠ some '/'
  /-- a blank stands within a selector, where it is not trimmed -/
  inside : Text.isBlank c = true →
    next.any (fun d => !Text.isBlank d && d != '/' && d != ',') = true

instance (c : Char) (next : Option Char) : Decidable (IsInert c next) :=
  decidable_of_iff (c.toNat < 128 ∧ c ∉ ['"', '\'', '\x7b', '\x7d', ';', ','] ∧
      (c = '/' → next ≠ some '*') ∧ (c = '*' → next ≠ some '/') ∧
      (Text.isBlank c = true →
        next.any (fun d => !Text.isBlank d && d != '/' && d != ',') = true))
    ⟨fun ⟨ascii, plain, opens, closes, inside⟩ => ⟨ascii, plain, opens, closes, inside⟩,
      fun h => ⟨h.ascii, h.plain, h.opens, h.closes, h.inside⟩⟩

/-- The second text is the first one, which has no backslash, with pairs of letters replaced by a
backslash and an inert character. -/
inductive Escapes : List Char → List Char → Prop
  | nil : Escapes [] []
  | kept {c : Char} {text escaped : List Char} : c ≠ '\\' → Escapes text escaped →
      Escapes (c :: text) (c :: escaped)
  | pair {c d hidden : Char} {text escaped : List Char} : c.isAlpha = true → d.isAlpha = true →
      IsInert hidden escaped.head? → Escapes text escaped →
      Escapes (c :: d :: text) ('\\' :: hidden :: escaped)

theorem ne_of_isAlpha {c d : Char} (h : c.isAlpha = true) (hd : d.isAlpha = false) : c ≠ d := by
  rintro rfl
  exact absurd h (by simp [hd])

theorem toNat_of_isAlpha {c : Char} (h : c.isAlpha = true) : 65 ≤ c.toNat ∧ c.toNat ≤ 122 := by
  change (decide ('A'.val ≤ c.val ∧ c.val ≤ 'Z'.val)
    || decide ('a'.val ≤ c.val) && decide (c.val ≤ 'z'.val)) = true at h
  simp only [Bool.or_eq_true, Bool.and_eq_true, decide_eq_true_eq, UInt32.le_iff_toNat_le] at h
  change (65 ≤ c.toNat ∧ c.toNat ≤ 90) ∨ (97 ≤ c.toNat ∧ c.toNat ≤ 122) at h
  omega

theorem isBlank_of_isAlpha {c : Char} (h : c.isAlpha = true) : Text.isBlank c = false := by
  have hletter := toNat_of_isAlpha h
  rw [Text.isBlank, List.any_eq_false]
  simp only [Text.blankRanges, List.forall_mem_cons, Bool.and_eq_true, decide_eq_true_eq,
    List.not_mem_nil, false_imp_iff, implies_true, and_true]
  omega

theorem isQuote_of_isAlpha {c : Char} (h : c.isAlpha = true) : isQuote c = false := by
  simp [isQuote, ne_of_isAlpha h]

theorem nest_of_isAlpha {c : Char} (h : c.isAlpha = true) (depth : Nat) : nest depth c = depth := by
  simp [nest, ne_of_isAlpha h]

theorem utf8Size_of_toNat_lt {c : Char} (h : c.toNat < 128) : c.utf8Size = 1 := by
  rw [Char.utf8Size_eq_one_iff, UInt32.le_iff_toNat_le]
  exact Nat.le_of_lt_succ h

theorem utf8Size_of_isAlpha {c : Char} (h : c.isAlpha = true) : c.utf8Size = 1 :=
  utf8Size_of_toNat_lt (by have := toNat_of_isAlpha h; omega)

namespace Escapes

variable {c : Char} {text escaped rest : List Char}

theorem of_cons (h : Escapes (c :: text) escaped) (hc : c.isAlpha = false) :
    ∃ rest, escaped = c :: rest ∧ Escapes text rest := by
  cases h with
  | kept _ htext => exact ⟨_, rfl, htext⟩
  | pair hletter _ _ _ => exact absurd hletter (by simp [hc])

theorem of_kept (h : Escapes text (c :: rest)) (hc : c ≠ '\\') :
    ∃ kept, text = c :: kept ∧ Escapes kept rest := by
  cases h with
  | kept _ htext => exact ⟨_, rfl, htext⟩
  | pair _ _ _ _ => exact absurd rfl hc

theorem head?_eq_iff (h : Escapes text escaped) (hletter : c.isAlpha = false) (hback : c ≠ '\\') :
    text.head? = some c ↔ escaped.head? = some c := by
  cases h with
  | nil => rfl
  | kept _ _ => rfl
  | pair hc _ _ _ => simp [ne_of_isAlpha hc hletter, hback.symm]

/-- Where it matters, both texts begin with a character that is no letter, or none of them does. -/
theorem follows (h : Escapes text escaped) (hletter : c.isAlpha = false) (hback : c ≠ '\\')
    (matters : Prop) :
    (matters ∧ ∃ more rest, text = c :: more ∧ escaped = c :: rest ∧ Escapes more rest) ∨
      (matters → text.head? ≠ some c) ∧ (matters → escaped.head? ≠ some c) := by
  by_cases hboth : matters ∧ text.head? = some c
  · obtain ⟨hmatters, hhead⟩ := hboth
    obtain ⟨more, rfl⟩ := List.head?_eq_some_iff.mp hhead
    obtain ⟨rest, rfl, hrest⟩ := h.of_cons hletter
    exact .inl ⟨hmatters, more, rest, rfl, rfl, hrest⟩
  · exact .inr ⟨fun hmatters hhead => hboth ⟨hmatters, hhead⟩,
      fun hmatters hhead => hboth ⟨hmatters, (h.head?_eq_iff hletter hback).mpr hhead⟩⟩

theorem kept_iff (hback : c ≠ '\\') :
    Escapes (c :: text) (c :: escaped) ↔ Escapes text escaped := by
  refine ⟨fun h => ?_, .kept hback⟩
  obtain ⟨_, hcons, htext⟩ := h.of_kept hback
  obtain rfl := (List.cons.inj hcons).2
  exact htext

theorem pair_iff {d hidden : Char} :
    Escapes (c :: d :: text) ('\\' :: hidden :: escaped)
      ↔ c.isAlpha = true ∧ d.isAlpha = true ∧ IsInert hidden escaped.head? ∧
        Escapes text escaped := by
  refine ⟨fun h => ?_, fun ⟨hc, hd, hinert, htext⟩ => .pair hc hd hinert htext⟩
  cases h with
  | kept hback _ => exact absurd rfl hback
  | pair hc hd hinert htext => exact ⟨hc, hd, hinert, htext⟩

instance decidable : (text escaped : List Char) → Decidable (Escapes text escaped)
  | [], [] => .isTrue .nil
  | [], _ :: _ => .isFalse nofun
  | _ :: _, [] => .isFalse nofun
  | c :: text, e :: escaped =>
    if hback : e = '\\' then
      match text, escaped with
      | d :: text, hidden :: escaped =>
        have := decidable text escaped
        decidable_of_iff _ (hback ▸ pair_iff.symm)
      | [], _ => .isFalse fun h => by
        cases h with
        | kept hkept _ => exact hkept hback
      | _, [] => .isFalse fun h => by
        cases h with
        | kept hkept _ => exact hkept hback
    else if hc : c = e then
      have := decidable text escaped
      decidable_of_iff (Escapes text escaped) (by rw [hc, kept_iff hback])
    else .isFalse fun h => by
      obtain ⟨_, hcons, _⟩ := h.of_kept hback
      exact hc (List.cons.inj hcons).1

theorem eq_nil_iff (h : Escapes text escaped) : text = [] ↔ escaped = [] := by
  cases h <;> simp

/-- Each pair takes up two bytes, as the backslash and the character behind it do. -/
theorem utf8Len_eq (h : Escapes text escaped) : utf8Len text = utf8Len escaped := by
  induction h with
  | nil => rfl
  | kept _ _ ih => rw [String.utf8Len_cons, String.utf8Len_cons, ih]
  | pair hc hd hinert _ ih =>
    simp only [String.utf8Len_cons, ih, utf8Size_of_isAlpha hc, utf8Size_of_isAlpha hd,
      utf8Size_of_toNat_lt hinert.ascii]
    rfl

/-- A character that is no part of a comment may stand behind both texts. -/
theorem concat (h : Escapes text escaped) (hback : c ≠ '\\') (hslash : c ≠ '/') (hstar : c ≠ '*') :
    Escapes (text ++ [c]) (escaped ++ [c]) := by
  induction h with
  | nil => exact .kept hback .nil
  | kept hd _ ih => exact .kept hd ih
  | @pair _ _ hidden text escaped hc hd hinert _ ih =>
    refine .pair hc hd ?_ ih
    cases escaped with
    | nil =>
      exact ⟨hinert.ascii, hinert.plain, by simp [hstar], by simp [hslash],
        fun hblank => absurd (hinert.inside hblank) (by simp)⟩
    | cons next escaped => exact hinert

end Escapes

/-! ### Comments and strings -/

/-- What follows a comment that is open when the texts begin. -/
theorem closeComment_escapes {text escaped : List Char} (h : Escapes text escaped) :
    Escapes (closeComment text).2 (closeComment escaped).2 := by
  induction h with
  | nil => exact .nil
  | @kept c text escaped hc htext ih =>
    have hslash : '/'.isAlpha = false := by decide
    rcases htext.follows hslash (by decide) (c = '*') with
      ⟨rfl, more, rest, rfl, rfl, hrest⟩ | ⟨hplain, hescaped⟩
    · exact hrest
    · rw [closeComment_char hplain, closeComment_char hescaped]
      exact ih
  | pair hc hd hinert _ ih =>
    rw [closeComment_char fun h => absurd h (ne_of_isAlpha hc (by decide)),
      closeComment_char fun h => absurd h (ne_of_isAlpha hd (by decide)),
      closeComment_char fun h => absurd h (by decide), closeComment_char hinert.closes]
    exact ih

/-- What follows a string that is open when the texts begin. -/
theorem closeString_escapes {quote : Char} (hquote : isQuote quote = true) {text escaped : List Char}
    (h : Escapes text escaped) :
    Escapes (closeString quote text).2 (closeString quote escaped).2 := by
  have hletter {c : Char} (hc : c.isAlpha = true) : c ≠ quote :=
    (ne_of_isQuote hquote (isQuote_of_isAlpha hc)).symm
  induction h with
  | nil => exact .nil
  | @kept c text escaped hc htext ih =>
    have hback (rest : List Char) : c = '\\' → rest = [] := fun h => absurd h hc
    by_cases hclose : c = quote
    · rw [closeString, if_pos hclose, closeString, if_pos hclose]
      · exact htext
      · exact fun _ _ h => absurd h hc
      · exact fun _ _ h => absurd h hc
    · rw [closeString_char hclose (hback text), closeString_char hclose (hback escaped)]
      exact ih
  | pair hc hd hinert _ ih =>
    rw [closeString_char (hletter hc) fun h => absurd h (ne_of_isAlpha hc (by decide)),
      closeString_char (hletter hd) fun h => absurd h (ne_of_isAlpha hd (by decide)), closeString]
    exact ih

/-! ### Blanks and comments at the ends -/

theorem trimStart_escapes {text escaped : List Char} (h : Escapes text escaped) :
    Escapes (trimStart text) (trimStart escaped) := by
  rw [trimStart, trimStart]
  induction text using text_induction generalizing escaped with
  | nil =>
    cases h
    exact .nil
  | comment rest ih =>
    obtain ⟨_, rfl, hrest⟩ := h.of_cons (by decide)
    obtain ⟨more, rfl, hmore⟩ := hrest.of_cons (by decide)
    have hopen := ih (closeComment_escapes hmore)
    rwa [← dropLead_true, ← dropLead_true] at hopen
  | string quote rest hquote ih =>
    have hslash {more : List Char} : quote = '/' → more.head? ≠ some '*' :=
      fun h => absurd h (ne_of_isQuote hquote (by decide))
    have hletter : quote.isAlpha = false := by
      cases hc : quote.isAlpha with
      | false => rfl
      | true => exact absurd (isQuote_of_isAlpha hc) (by simp [hquote])
    obtain ⟨more, rfl, -⟩ := h.of_cons hletter
    rwa [dropLead_char (isBlank_of_isQuote hquote) hslash,
      dropLead_char (isBlank_of_isQuote hquote) hslash]
  | code c rest hquote hstar ih =>
    cases h with
    | @kept _ _ more hc hrest =>
      cases hblank : Text.isBlank c with
      | true =>
        rw [dropLead_blank hblank, dropLead_blank hblank]
        exact ih hrest
      | false =>
        have hmore : c = '/' → more.head? ≠ some '*' := fun hslash hhead =>
          hstar hslash ((hrest.head?_eq_iff (by decide) (by decide)).mpr hhead)
        rw [dropLead_char hblank hstar, dropLead_char hblank hmore]
        exact .kept hc hrest
    | pair hc hd hinert hrest =>
      rw [dropLead_char (isBlank_of_isAlpha hc) hstar,
        dropLead_char (by decide) fun h => absurd h (by decide)]
      exact .pair hc hd hinert hrest

/-- The texts read backwards, from a place that the character `next` follows. -/
inductive EscapesBack : Option Char → List Char → List Char → Prop
  | nil {next : Option Char} : EscapesBack next [] []
  | kept {next : Option Char} {c : Char} {text escaped : List Char} : c ≠ '\\' →
      EscapesBack (some c) text escaped → EscapesBack next (c :: text) (c :: escaped)
  | pair {next : Option Char} {c d hidden : Char} {text escaped : List Char} :
      c.isAlpha = true → d.isAlpha = true → IsInert hidden next →
      EscapesBack (some '\\') text escaped →
      EscapesBack next (d :: c :: text) (hidden :: '\\' :: escaped)

theorem Escapes.reverse_append {text escaped : List Char} (h : Escapes text escaped)
    {front escapedFront : List Char} (hfront : EscapesBack escaped.head? front escapedFront) :
    EscapesBack none (text.reverse ++ front) (escaped.reverse ++ escapedFront) := by
  induction h generalizing front escapedFront with
  | nil => exact hfront
  | kept hc _ ih => simpa using ih (.kept hc hfront)
  | pair hc hd hinert _ ih => simpa using ih (.pair hc hd hinert hfront)

namespace EscapesBack

variable {next : Option Char} {text escaped : List Char}

theorem reverse_append (h : EscapesBack next text escaped) {rest escapedRest : List Char}
    (hrest : Escapes rest escapedRest) (hnext : escapedRest.head? = next) :
    Escapes (text.reverse ++ rest) (escaped.reverse ++ escapedRest) := by
  induction h generalizing rest escapedRest with
  | nil => exact hrest
  | kept hc _ ih => simpa using ih (.kept hc hrest) rfl
  | pair hc hd hinert _ ih =>
    subst hnext
    simpa using ih (.pair hc hd hinert hrest) rfl

/-- Where it matters, and where it could not stand behind a backslash, both texts have a character that
is no letter in front of the place, or none of them does. -/
theorem precedes (h : EscapesBack next text escaped) {c : Char} (hletter : c.isAlpha = false)
    {matters : Prop} (hinert : matters → ¬ IsInert c next) :
    (matters ∧ ∃ more rest, text = c :: more ∧ escaped = c :: rest ∧
        EscapesBack (some c) more rest) ∨
      (matters → text.head? ≠ some c) ∧ (matters → escaped.head? ≠ some c) := by
  cases h with
  | nil => exact .inr ⟨by simp, by simp⟩
  | @kept _ d more rest _ htext =>
    by_cases hboth : matters ∧ d = c
    · obtain ⟨hmatters, rfl⟩ := hboth
      exact .inl ⟨hmatters, more, rest, rfl, rfl, htext⟩
    · have hne : matters → some d ≠ some c := fun hmatters hd =>
        hboth ⟨hmatters, Option.some.inj hd⟩
      exact .inr ⟨hne, hne⟩
  | @pair _ _ d hidden _ _ _ hd hhidden _ =>
    refine .inr ⟨fun _ hhead => ne_of_isAlpha hd hletter (Option.some.inj hhead), ?_⟩
    intro hmatters hhead
    obtain rfl := Option.some.inj hhead
    exact hinert hmatters hhidden

end EscapesBack

/-- Has all been trimmed that follows a place? The character there, if there is one, is a blank or the
slash that opens a comment. -/
def IsTrimmed (next : Option Char) : Prop :=
  ∀ c ∈ next, Text.isBlank c = true ∨ c = '/'

theorem IsTrimmed.isInert {next : Option Char} (h : IsTrimmed next) {hidden : Char}
    (hinert : IsInert hidden next) : Text.isBlank hidden = false ∧ IsInert hidden none := by
  have hblank : Text.isBlank hidden = false := by
    cases hblank : Text.isBlank hidden with
    | false => rfl
    | true =>
      have hnext := hinert.inside hblank
      cases next with
      | none => exact absurd hnext (by simp)
      | some c => rcases h c rfl with hc | rfl <;> simp_all
  exact ⟨hblank, hinert.ascii, hinert.plain, by simp, by simp, by simp [hblank]⟩

/-- What is trimmed behind a place does not matter in front of it. -/
theorem EscapesBack.of_isTrimmed {next : Option Char} {text escaped : List Char}
    (h : EscapesBack next text escaped) (htrimmed : IsTrimmed next) :
    EscapesBack none text escaped := by
  cases h with
  | nil => exact .nil
  | kept hc htext => exact .kept hc htext
  | pair hc hd hinert htext => exact .pair hc hd (htrimmed.isInert hinert).2 htext

/-- Both searches find nothing, or they leave texts that are alike behind the places found. -/
inductive CutAlike (alike : List Char → List Char → Prop) :
    Option (List Char × List Char) → Option (List Char × List Char) → Prop
  | none : CutAlike alike none none
  | some {cut escapedCut : List Char × List Char} : alike cut.2 escapedCut.2 →
      CutAlike alike (some cut) (some escapedCut)

theorem CutAlike.keep {alike : List Char → List Char → Prop}
    {cut escapedCut : Option (List Char × List Char)} (h : CutAlike alike cut escapedCut)
    (first escapedFirst : List Char) :
    CutAlike alike (cut.map (keepFirst first)) (escapedCut.map (keepFirst escapedFirst)) := by
  cases h with
  | none => exact .none
  | some halike => exact .some halike

/-- The search backwards for the place where a comment opens. -/
theorem splitFirst?_escapesBack {next : Option Char} {text escaped : List Char}
    (h : EscapesBack next text escaped) :
    CutAlike (EscapesBack (some '/')) (Text.splitFirst? ['*', '/'] text)
      (Text.splitFirst? ['*', '/'] escaped) := by
  induction h with
  | nil => exact .none
  | @kept next c text escaped hc htext ih =>
    have hslash : c = '*' → ¬ IsInert '/' (some c) := by
      rintro rfl
      decide
    rcases htext.precedes (by decide) hslash with
      ⟨rfl, front, escapedFront, rfl, rfl, hfront⟩ | ⟨hplain, hescaped⟩
    · exact .some hfront
    · rw [splitFirst?_char hplain, splitFirst?_char hescaped]
      exact ih.keep _ _
  | pair hc hd hinert _ ih =>
    rw [splitFirst?_char fun h => absurd h (ne_of_isAlpha hd (by decide)),
      splitFirst?_char fun h => absurd h (ne_of_isAlpha hc (by decide)),
      splitFirst?_char (by simp), splitFirst?_char fun h => absurd h (by decide)]
    exact (ih.keep _ _).keep _ _

theorem dropTrail_escapesBack {next : Option Char} (hnext : IsTrimmed next)
    {text escaped : List Char} (h : EscapesBack next text escaped) :
    EscapesBack none (dropTrail none text) (dropTrail none escaped) := by
  induction hn : text.length using Nat.strong_induction_on generalizing next text escaped with
  | _ n ih =>
    subst hn
    have hself := h.of_isTrimmed hnext
    cases h with
    | nil => exact .nil
    | @kept _ c text escaped hc htext =>
      have hstar : c = '/' → ¬ IsInert '*' (some c) := by
        rintro rfl
        decide
      rcases htext.precedes (by decide) hstar with
        ⟨rfl, inside, escapedInside, rfl, rfl, hinside⟩ | ⟨hplain, hescaped⟩
      · -- What looks like the end of a comment is one if a place is found where it opens.
        have hopens := splitFirst?_escapesBack hinside
        rw [dropTrail, dropTrail, dropTrail_some, dropTrail_some]
        revert hopens
        generalize Text.splitFirst? ['*', '/'] escapedInside = escapedCut
        cases hcut : Text.splitFirst? ['*', '/'] inside with
        | none =>
          rintro ⟨⟩
          exact hself
        | some cut =>
          rintro (_ | hfront)
          have hlength := congrArg List.length (Text.append_of_splitFirst? hcut)
          simp only [List.length_append] at hlength
          refine ih _ ?_ (by simp [IsTrimmed]) hfront rfl
          simp only [List.length_cons]
          omega
      · cases hblank : Text.isBlank c with
        | true =>
          rw [dropTrail_blank hblank, dropTrail_blank hblank]
          exact ih _ (Nat.lt_succ_self _) (by simp [IsTrimmed, hblank]) htext rfl
        | false =>
          rw [dropTrail_char hblank hplain, dropTrail_char hblank hescaped]
          exact hself
    | pair hc hd hinert htext =>
      have hblank := (hnext.isInert hinert).1
      rw [dropTrail_char (isBlank_of_isAlpha hd) fun h => absurd h (ne_of_isAlpha hd (by decide)),
        dropTrail_char hblank (by simp)]
      exact hself

theorem trimEnd_escapes {text escaped : List Char} (h : Escapes text escaped) :
    Escapes (trimEnd text) (trimEnd escaped) := by
  have hback : EscapesBack none text.reverse escaped.reverse := by
    simpa using h.reverse_append .nil
  have hcore := dropTrail_escapesBack (by simp [IsTrimmed]) hback
  simpa [trimEnd] using hcore.reverse_append .nil rfl

/-! ### The last compound and its first colon -/

theorem splitLast_letter {c : Char} (h : c.isAlpha = true) (depth : Nat) (rest : List Char) :
    splitLast .code depth (c :: rest) = (splitLast .code depth rest).map (keepFirst [c]) := by
  have hcombinator : isCombinator c = false := by simp [isCombinator, ne_of_isAlpha h]
  rw [splitLast_char (fun hback => absurd hback (ne_of_isAlpha h (by decide)))
    (fun _ hslash => absurd hslash (ne_of_isAlpha h (by decide))) (by simp [hcombinator]),
    isQuote_of_isAlpha h, nest_of_isAlpha h]
  rfl

theorem lastCompound_of_cutAlike {text escaped : List Char} (h : Escapes text escaped)
    (hcut : CutAlike Escapes (splitLast .code 0 text) (splitLast .code 0 escaped)) :
    Escapes (lastCompound text).2 (lastCompound escaped).2 := by
  rw [lastCompound, lastCompound]
  revert hcut
  generalize splitLast .code 0 text = cut
  generalize splitLast .code 0 escaped = escapedCut
  rintro (_ | hlast)
  · exact h
  · exact hlast

theorem splitLast_escapes {depth : Nat} {text escaped : List Char} (h : Escapes text escaped) :
    CutAlike Escapes (splitLast .code depth text) (splitLast .code depth escaped) := by
  induction depth, escaped using selector_induction generalizing text with
  | nil depth =>
    cases h
    exact .none
  | escaped depth c rest ih =>
    cases h with
    | kept hback _ => exact absurd rfl hback
    | pair hc hd _ hrest =>
      rw [splitLast_letter hc, splitLast_letter hd, splitLast_escaped,
        ← keeping_map_keepFirst.append]
      exact (ih hrest).keep _ _
  | comment rest ih =>
    obtain ⟨_, rfl, hstar⟩ := h.of_kept (by decide)
    obtain ⟨more, rfl, hrest⟩ := hstar.of_kept (by decide)
    have hbehind := closeComment_escapes hrest
    rw [splitLast_comment, splitLast_comment]
    exact .some (lastCompound_of_cutAlike hbehind (ih hbehind))
  | string depth quote rest hquote ih =>
    obtain ⟨more, rfl, hrest⟩ := h.of_kept (ne_of_isQuote hquote (by decide))
    rw [splitLast_quote hquote, splitLast_quote hquote]
    exact (ih (closeString_escapes hquote hrest)).keep _ _
  | char depth c rest hquote hback hstar ih =>
    cases h with
    | @kept _ more _ hc hrest =>
      by_cases hcombinator : depth = 0 ∧ isCombinator c = true
      · obtain ⟨rfl, hends⟩ := hcombinator
        rw [nest_of_isCombinator hends] at ih
        rw [splitLast_combinator hends, splitLast_combinator hends]
        exact .some (lastCompound_of_cutAlike hrest (ih hrest))
      · have hmore : depth = 0 → c = '/' → more.head? ≠ some '*' := fun hzero hslash hhead =>
          hstar hzero hslash ((hrest.head?_eq_iff (by decide) (by decide)).mp hhead)
        rw [splitLast_char (fun h => absurd h hc) hmore hcombinator,
          splitLast_char hback hstar hcombinator, hquote]
        exact (ih hrest).keep _ _
    | pair _ _ _ _ => exact absurd (hback rfl) (by simp)

theorem lastCompound_escapes {text escaped : List Char} (h : Escapes text escaped) :
    Escapes (lastCompound text).2 (lastCompound escaped).2 :=
  lastCompound_of_cutAlike h (splitLast_escapes h)

theorem splitPseudo_letter {c : Char} (h : c.isAlpha = true) (depth : Nat) (rest : List Char) :
    splitPseudo .code depth (c :: rest) = keepFirst [c] (splitPseudo .code depth rest) := by
  rw [splitPseudo_char (fun hback => absurd hback (ne_of_isAlpha h (by decide)))
    (fun hcolon => absurd hcolon.2 (ne_of_isAlpha h (by decide))), isQuote_of_isAlpha h,
    nest_of_isAlpha h]
  rfl

theorem splitPseudo_escapes {depth : Nat} {text escaped : List Char} (h : Escapes text escaped) :
    Escapes (splitPseudo .code depth text).2 (splitPseudo .code depth escaped).2 := by
  induction hn : escaped.length using Nat.strong_induction_on generalizing depth text escaped with
  | _ n ih =>
    subst hn
    cases h with
    | nil => exact .nil
    | @kept c text escaped hc hrest =>
      have hback (rest : List Char) : c = '\\' → rest = [] := fun h => absurd h hc
      by_cases hcolon : depth = 0 ∧ c = ':'
      · obtain ⟨rfl, rfl⟩ := hcolon
        rw [splitPseudo_colon, splitPseudo_colon]
        exact .kept hc hrest
      · cases hquote : isQuote c with
        | true =>
          rw [splitPseudo_quote hquote, splitPseudo_quote hquote]
          exact ih _ (Nat.lt_succ_of_le (length_closeString_le c escaped))
            (closeString_escapes hquote hrest) rfl
        | false =>
          rw [splitPseudo_char (hback text) hcolon, splitPseudo_char (hback escaped) hcolon, hquote]
          exact ih _ (Nat.lt_succ_self _) hrest rfl
    | pair hc hd _ hrest =>
      rw [splitPseudo_letter hc, splitPseudo_letter hd, splitPseudo_escaped]
      exact ih _ (by simp only [List.length_cons]; omega) hrest rfl

/-! ### Slots -/

theorem pointsFrom_selectorPlan (marker selector : List Char) (offset : Nat) :
    Plan.pointsFrom offset (selectorPlan marker selector)
      = if Text.occursIn marker (lastCompound selector).2 then []
        else [offset + utf8Len ((lastCompound selector).1
          ++ (splitPseudo .code 0 (lastCompound selector).2).1)] := by
  simp only [selectorPlan]
  split
  · rw [Plan.pointsFrom_copied]
  · rw [Plan.pointsFrom_append, Plan.pointsFrom_copied, Plan.pointsFrom, Plan.pointsFrom_copied,
      Plan.text_copied]
    rfl

section Item

variable {marker text escaped : List Char} (h : Escapes text escaped)
  (hmarker : ¬ marker <:+: text) (hescaped : ¬ marker <:+: escaped)

include h hmarker hescaped

theorem selectorPlan_escapes (offset : Nat) :
    Plan.pointsFrom offset (selectorPlan marker text)
      = Plan.pointsFrom offset (selectorPlan marker escaped) := by
  have hlast {selector : List Char} (h : ¬ marker <:+: selector) :
      Text.occursIn marker (lastCompound selector).2 = false := by
    rw [Bool.eq_false_iff, ne_eq, Text.occursIn_iff]
    intro hfound
    exact h (hfound.trans ⟨(lastCompound selector).1, [], by simp [lastCompound_join]⟩)
  have hstem (selector : List Char) :
      utf8Len ((lastCompound selector).1 ++ (splitPseudo .code 0 (lastCompound selector).2).1)
        + utf8Len (splitPseudo .code 0 (lastCompound selector).2).2 = utf8Len selector := by
    rw [← String.utf8Len_append, List.append_assoc, splitPseudo_join, lastCompound_join]
  have hpseudo : utf8Len (splitPseudo .code 0 (lastCompound text).2).2
      = utf8Len (splitPseudo .code 0 (lastCompound escaped).2).2 :=
    (splitPseudo_escapes (lastCompound_escapes h)).utf8Len_eq
  have htext := hstem text
  have hafter := hstem escaped
  rw [h.utf8Len_eq, hpseudo] at htext
  rw [pointsFrom_selectorPlan, pointsFrom_selectorPlan, hlast hmarker, hlast hescaped]
  simp only [Bool.false_eq_true, if_false, List.cons.injEq, and_true]
  omega

/-- The marker is put into both items at the same place. -/
theorem itemPlan_escapes (offset : Nat) :
    Plan.pointsFrom offset (itemPlan marker text)
      = Plan.pointsFrom offset (itemPlan marker escaped) := by
  have hrest := trimStart_escapes h
  have hcore := trimEnd_escapes hrest
  have hwithin (item : List Char) : trimEnd (trimStart item) <:+: item :=
    (trimEnd_isPrefix _).isInfix.trans (dropLead_suffix false item).isInfix
  have hlead (item : List Char) :
      utf8Len (item.take (item.length - (trimStart item).length)) + utf8Len (trimStart item)
        = utf8Len item := by
    have hjoin : item.take (item.length - (trimStart item).length) ++ trimStart item = item :=
      List.suffix_iff_eq_append.mp (dropLead_suffix false item)
    rw [← String.utf8Len_append, hjoin]
  have htext := hlead text
  have hafter := hlead escaped
  rw [h.utf8Len_eq, hrest.utf8Len_eq] at htext
  have hfront : utf8Len (text.take (text.length - (trimStart text).length))
      = utf8Len (escaped.take (escaped.length - (trimStart escaped).length)) := by omega
  rw [pointsFrom_itemPlan, pointsFrom_itemPlan]
  by_cases hempty : trimEnd (trimStart text) = []
  · rw [if_pos hempty, if_pos (hcore.eq_nil_iff.mp hempty)]
  · rw [if_neg hempty, if_neg fun hnil => hempty (hcore.eq_nil_iff.mpr hnil)]
    dsimp only
    rw [hfront]
    exact selectorPlan_escapes hcore (fun hfound => hmarker (hfound.trans (hwithin text)))
      (fun hfound => hescaped (hfound.trans (hwithin escaped))) _

end Item

end SiteTree.Stylesheet
