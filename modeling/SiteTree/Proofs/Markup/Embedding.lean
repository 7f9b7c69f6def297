import SiteTree.Proofs.Markup.UsageCount
import Mathlib.Data.List.Infix
import Mathlib.Logic.Function.Basic

/-!
# Slots of a page

Fragments are put into a page one selector after the other, so a selector is looked for in the page with
the fragments of those before it. If each fragment comes into a slot that closes itself, and no usage of
a selector comes about elsewhere, the page with all fragments does not depend on which was first.

* `substitute_shown` — putting a fragment in fills the slots of its selector and nothing else.
* `BringsNone.of_idle` — no usages come about where no text and no fragment can begin one.
-/

namespace SiteTree.Markup

/-! ### Pages with slots -/

/-- A part of a page: text, or the place of a fragment, written as a usage that closes itself. -/
inductive Part where
  | plain (text : List Char)
  | slot (selector : String) (usage : List Char) (isUsage : IsUsage selector.toList usage)
      (closes : ClosesItself usage)

/-- The fragments that are put into a page, by their selectors. -/
abbrev Filling :=
  String → Option String

namespace Part

/-- The selector of a slot. -/
def selector? : Part → Option String
  | plain _ => none
  | slot selector _ _ _ => some selector

/-- A part with the fragments that are there already. -/
def shown (filling : Filling) : Part → List Char
  | plain text => text
  | slot selector usage _ _ => ((filling selector).map String.toList).getD usage

end Part

/-- A page with the fragments that are there already. -/
def shown (filling : Filling) (parts : List Part) : List Char :=
  parts.flatMap (Part.shown filling)

/-- The filling without fragments. -/
def unfilled : Filling :=
  fun _ => none

/-- Are the usages of a selector in a page its slots? -/
def SlotsOnly (selector : String) (filling : Filling) (parts : List Part) : Prop :=
  ∀ before part behind, parts = before ++ part :: behind → part.selector? ≠ some selector →
    NoneBegins (IsUsage selector.toList) (part.shown filling) (shown filling behind)

/-- Whichever of the fragments are there already, the usages of any other selector are its slots: no
fragment brings one along. -/
def BringsNone (whole : Filling) (parts : List Part) : Prop :=
  ∀ filling : Filling, (∀ selector fragment, filling selector = some fragment →
      whole selector = some fragment) →
    ∀ selector, (whole selector).isSome = true → filling selector = none →
      SlotsOnly selector filling parts

section Substitute

variable {selector replacement : List Char}

theorem firstMatch_append_of_noneBegins {text following : List Char}
    (h : NoneBegins (IsUsage selector) text following) :
    firstMatch (opening selector) (text ++ following)
      = (firstMatch (opening selector) following).map
          fun (before, found) => (text ++ before, found) := by
  induction text with
  | nil => simp
  | cons c text ih =>
    obtain ⟨hhere, hlater⟩ := noneBegins_cons_iff.mp h
    have hnone : opening selector (c :: (text ++ following)) = none :=
      (Reader.Takes.eq_none_iff (opening_takes selector)).mpr hhere
    rw [List.cons_append, firstMatch, hnone, ih hlater, Option.map_map]
    rfl

/-- Text in which no usage begins is kept. -/
theorem substituteText_append {text following : List Char}
    (h : NoneBegins (IsUsage selector) text following) :
    substituteText selector replacement (text ++ following)
      = text ++ substituteText selector replacement following := by
  have hmatch := firstMatch_append_of_noneBegins h
  cases hfollowing : firstMatch (opening selector) following with
  | none =>
    rw [hfollowing] at hmatch
    rw [substituteText_of_none hmatch, substituteText_of_none hfollowing]
  | some found =>
    obtain ⟨before, usage, rest⟩ := found
    rw [hfollowing] at hmatch
    rw [substituteText_of_some hmatch, substituteText_of_some hfollowing]
    simp only [List.append_assoc]

/-- A usage that closes itself becomes the replacement. -/
theorem substituteText_usage {usage : List Char} (husage : IsUsage selector usage)
    (hcloses : ClosesItself usage) (following : List Char) :
    substituteText selector replacement (usage ++ following)
      = replacement ++ substituteText selector replacement following := by
  have hfirst : First (IsUsage selector) (usage ++ following) [] usage following :=
    ⟨rfl, husage, noneBegins_nil _⟩
  rw [substituteText_of_some (firstMatch_opening_iff.mpr hfirst), afterUsage_of_closesItself hcloses]
  rfl

end Substitute

theorem SlotsOnly.of_cons {selector : String} {filling : Filling} {part : Part} {parts : List Part}
    (h : SlotsOnly selector filling (part :: parts)) : SlotsOnly selector filling parts := by
  intro before other behind hparts
  exact h (part :: before) other behind (by rw [hparts, List.cons_append])

/-- Putting a fragment in fills the slots of its selector and nothing else. -/
theorem substituteText_shown {selector : String} {filling : Filling} {parts : List Part}
    (hmissing : filling selector = none) (h : SlotsOnly selector filling parts) (fragment : String) :
    substituteText selector.toList fragment.toList (shown filling parts)
      = shown (Function.update filling selector (some fragment)) parts := by
  induction parts with
  | nil => exact substituteText_of_none rfl
  | cons part parts ih =>
    have hrest := ih h.of_cons
    by_cases hslot : part.selector? = some selector
    · cases part with
      | plain text => cases hslot
      | slot other usage isUsage closes =>
        obtain rfl : other = selector := Option.some.inj hslot
        have hbefore : shown filling (.slot other usage isUsage closes :: parts)
            = usage ++ shown filling parts := by
          rw [shown, List.flatMap_cons, Part.shown, hmissing]
          rfl
        rw [hbefore, substituteText_usage isUsage closes, hrest, shown, shown, List.flatMap_cons,
          Part.shown, Function.update_self]
        rfl
    · have hsame : part.shown (Function.update filling selector (some fragment))
          = part.shown filling := by
        cases part with
        | plain text => rfl
        | slot other usage isUsage closes =>
          have hne : other ≠ selector := fun heq => hslot (congrArg some heq)
          rw [Part.shown, Part.shown, Function.update_of_ne hne]
      have hnone := h [] part parts rfl hslot
      rw [shown, List.flatMap_cons, ← shown, substituteText_append hnone, hrest, shown, shown,
        List.flatMap_cons, hsame]

theorem substitute_shown {selector : String} {filling : Filling} {parts : List Part}
    (hmissing : filling selector = none) (h : SlotsOnly selector filling parts) (fragment : String) :
    substitute (String.ofList (shown filling parts)) selector fragment
      = String.ofList (shown (Function.update filling selector (some fragment)) parts) := by
  rw [substitute, String.toList_ofList, substituteText_shown hmissing h]

/-! ### Texts that begin no usage -/

/-- Can a text go on so that it begins as a usage does behind its `<`? -/
def mayBegin (selector text : List Char) : Bool :=
  let name := text.dropWhile Text.isBlank
  match Text.after? selector name with
  | some (c :: _) => Text.isBlank c || c == '>' || c == '/'
  | some [] => true
  | none => name.isPrefixOf selector

/-- A text in which no usage begins, whatever stands behind it. -/
def Idle (selector text : List Char) : Prop :=
  ∀ last ∈ text.tails, last.head? = some '<' → mayBegin selector last.tail = false

instance (selector text : List Char) : Decidable (Idle selector text) :=
  inferInstanceAs (Decidable
    (∀ last ∈ text.tails, last.head? = some '<' → mayBegin selector last.tail = false))

/-- The end of a tag shows that a name goes no further. -/
theorem OpeningEnd.head {tail : List Char} (h : OpeningEnd tail) :
    ∃ c rest, tail = c :: rest ∧ (Text.isBlank c || c == '>' || c == '/') = true := by
  cases h with
  | plain => exact ⟨'>', [], rfl, by decide⟩
  | slash => exact ⟨'/', ['>'], rfl, by decide⟩
  | @spaced c body hblank _ => exact ⟨c, _, rfl, by simp [hblank]⟩

theorem mayBegin_of_named {selector read text following : List Char} (hselector : IsTagName selector)
    (h : Named OpeningEnd selector read) (hread : read <+: text ++ following) :
    mayBegin selector text = true := by
  obtain @⟨blanks, tail, hblanks, hend⟩ := h
  obtain ⟨rest, htext⟩ := hread
  obtain ⟨c, behind, rfl, hc⟩ := hend.head
  have hname : (text ++ following).dropWhile Text.isBlank
      = selector ++ (c :: behind ++ rest) := by
    rw [← htext, List.append_assoc, List.append_assoc, hselector.dropWhile_append hblanks]
  have hall : text.dropWhile Text.isBlank = [] ∨
      text.dropWhile Text.isBlank ++ following = selector ++ (c :: behind ++ rest) := by
    rw [List.dropWhile_append] at hname
    split at hname
    · next hnil => exact .inl (by simpa using hnil)
    · exact .inr hname
  unfold mayBegin
  dsimp only
  split
  · next d more hafter =>
    obtain hsplit := Text.after?_eq_some_iff.mp hafter
    rcases hall with hnil | hall
    · rw [hnil] at hsplit
      exact absurd (List.append_eq_nil_iff.mp hsplit).1 hselector.ne_nil
    · rw [← hsplit, List.append_assoc] at hall
      obtain ⟨rfl, -⟩ := List.cons.inj (List.append_cancel_left hall)
      exact hc
  · rfl
  · next hafter =>
    rw [List.isPrefixOf_iff_prefix]
    rcases hall with hnil | hall
    · rw [hnil]
      exact List.nil_prefix
    · rcases List.append_eq_append_iff.mp hall with ⟨more, hmore, -⟩ | ⟨more, hmore, -⟩
      · exact ⟨more, hmore.symm⟩
      · cases hafter.symm.trans (Text.after?_eq_some_iff.mpr hmore.symm)

/-- No usage begins in an idle text. -/
theorem Idle.noneBegins {selector text : List Char} (hselector : IsTagName selector)
    (h : Idle selector text) (following : List Char) :
    NoneBegins (IsUsage selector) text following := by
  rintro front back _ rfl hne ⟨hnamed⟩ ⟨rest, htext⟩
  cases back with
  | nil => exact hne rfl
  | cons c back =>
    obtain ⟨rfl, hback⟩ := List.cons.inj htext
    have hidle := h ('<' :: back) ((List.mem_tails _ _).mpr (List.suffix_append front _)) rfl
    have hbegins := mayBegin_of_named hselector hnamed ⟨rest, hback⟩
    rw [List.tail_cons, hbegins] at hidle
    cases hidle

theorem SlotsOnly.of_idle {selector : String} {filling : Filling} {parts : List Part}
    (hselector : IsTagName selector.toList)
    (h : ∀ part ∈ parts, part.selector? ≠ some selector → Idle selector.toList (part.shown filling)) :
    SlotsOnly selector filling parts := by
  rintro before part behind rfl hslot
  exact (h part (by simp) hslot).noneBegins hselector _

/-- No usages come about where neither a part of the page nor a fragment can begin one. -/
theorem BringsNone.of_idle {whole : Filling} {parts : List Part}
    (hnames : ∀ selector, (whole selector).isSome = true → IsTagName selector.toList)
    (hparts : ∀ selector, (whole selector).isSome = true → ∀ part ∈ parts,
      part.selector? ≠ some selector → Idle selector.toList (part.shown unfilled))
    (hfragments : ∀ selector other fragment, (whole selector).isSome = true →
      whole other = some fragment → other ≠ selector → Idle selector.toList fragment.toList) :
    BringsNone whole parts := by
  intro filling hfilling selector hselector hmissing
  refine .of_idle (hnames selector hselector) fun part hpart hslot => ?_
  have hunfilled := hparts selector hselector part hpart hslot
  cases part with
  | plain text => exact hunfilled
  | slot other usage isUsage closes =>
    rw [Part.shown]
    cases hfound : filling other with
    | none => exact hunfilled
    | some fragment =>
      exact hfragments selector other fragment hselector (hfilling other fragment hfound)
        fun heq => hslot (congrArg some heq)

end SiteTree.Markup
