import SiteTree.Proofs.Markup.Document

/-!
# Places in a tag

Where a tag and where a comment ends depends on the text up to there: on the quotes that are open,
and on the hyphens in front of a `>`. A text that leads from every place to the same place as another
one, and that brings no end of a comment, can stand for it.

* `Place.tagBody?_eq_some_iff` — a tag ends where its text has led outside of all quotes.
* `Alike.quoted`, `Alike.bare` — text put into a value, in quotes or without, can stand for the value.
-/

namespace SiteTree.Markup

/-! ### Places in a tag -/

/-- Where a character stands in a tag: outside quotes or in quotes of either kind. -/
inductive Place where
  | outside
  | double
  | single

namespace Place

/-- The place behind one more character; `none` when the tag ends there. -/
def step : Place → Char → Option Place
  | outside, c =>
    if c = '>' then none else if c = '"' then some double
    else if c = '\'' then some single else some outside
  | double, c => some (if c = '"' then outside else double)
  | single, c => some (if c = '\'' then outside else single)

/-- The place behind a text; `none` when a tag ends in it. -/
def run (place : Place) (text : List Char) : Option Place :=
  text.foldlM step place

/-- The quote that is open at a place. -/
def quote? : Place → Option Char
  | outside => none
  | double => some '"'
  | single => some '\''

theorem run_append (place : Place) (first second : List Char) :
    place.run (first ++ second) = (place.run first).bind fun middle => middle.run second :=
  List.foldlM_append

theorem run_cons (place : Place) (c : Char) (text : List Char) :
    place.run (c :: text) = (place.step c).bind fun next => next.run text :=
  List.foldlM_cons

theorem tagBody?_cons (place : Place) (c : Char) (text : List Char) :
    tagBody? place.quote? (c :: text)
      = match place.step c with
        | none => some ([], text)
        | some next =>
          (tagBody? next.quote? text).map fun (body, after) => (c :: body, after) := by
  cases place with
  | outside =>
    rw [quote?, tagBody?, step]
    by_cases hend : c = '>'
    · rw [if_pos hend, if_pos hend]
    · rw [if_neg hend, if_neg hend]
      by_cases hdouble : c = '"'
      · rw [if_pos hdouble, if_pos (.inl hdouble), hdouble]
        rfl
      · rw [if_neg hdouble]
        by_cases hsingle : c = '\''
        · rw [if_pos hsingle, if_pos (.inr hsingle), hsingle]
          rfl
        · rw [if_neg hsingle, if_neg (by simp [hdouble, hsingle])]
          rfl
  | double =>
    rw [quote?, tagBody?, step]
    by_cases hdouble : c = '"'
    · rw [if_pos hdouble, if_pos hdouble]
      rfl
    · rw [if_neg hdouble, if_neg hdouble]
      rfl
  | single =>
    rw [quote?, tagBody?, step]
    by_cases hsingle : c = '\''
    · rw [if_pos hsingle, if_pos hsingle]
      rfl
    · rw [if_neg hsingle, if_neg hsingle]
      rfl

theorem step_eq_none_iff {place : Place} {c : Char} :
    place.step c = none ↔ place = outside ∧ c = '>' := by
  cases place with
  | outside =>
    rw [step]
    by_cases hend : c = '>'
    · simp [hend]
    · rw [if_neg hend]
      simp only [hend, and_false, iff_false]
      split
      · simp
      · split
        · simp
        · simp
  | double => simp [step]
  | single => simp [step]

/-- A tag ends where its text has led outside of all quotes. -/
theorem tagBody?_eq_some_iff {place : Place} {text body after : List Char} :
    tagBody? place.quote? text = some (body, after)
      ↔ text = body ++ '>' :: after ∧ place.run body = some outside := by
  induction text generalizing place body after with
  | nil => simp [tagBody?]
  | cons c text ih =>
    rw [tagBody?_cons]
    cases hstep : place.step c with
    | none =>
      obtain ⟨rfl, rfl⟩ := step_eq_none_iff.mp hstep
      cases body with
      | nil => simp [run]
      | cons d body =>
        simp only [Option.some.injEq, Prod.mk.injEq, reduceCtorEq, false_and, List.cons_append,
          List.cons.injEq, run_cons, false_iff, not_and]
        rintro ⟨rfl, -⟩
        rw [hstep]
        simp
    | some next =>
      simp only [Option.map_eq_some_iff, Prod.mk.injEq, Prod.exists, ih]
      constructor
      · rintro ⟨rest, _, ⟨rfl, hrun⟩, rfl, rfl⟩
        refine ⟨rfl, ?_⟩
        rw [run_cons, hstep]
        exact hrun
      · rintro ⟨htext, hrun⟩
        cases body with
        | nil =>
          obtain ⟨rfl, -⟩ := List.cons.inj htext
          obtain rfl : place = outside := Option.some.inj hrun
          cases hstep
        | cons d body =>
          obtain ⟨rfl, rfl⟩ := List.cons.inj htext
          rw [run_cons, hstep] at hrun
          exact ⟨body, after, ⟨rfl, hrun⟩, rfl, rfl⟩

theorem tagBody?_eq_none_iff {place : Place} {text : List Char} :
    tagBody? place.quote? text = none ↔ (place.run text).isSome = true := by
  induction text generalizing place with
  | nil => simp [tagBody?, run]
  | cons c text ih =>
    rw [tagBody?_cons, run_cons]
    cases hstep : place.step c with
    | none => simp
    | some next => simp [ih]

/-- Text that leads from every place back to it. -/
def Neutral (text : List Char) : Prop :=
  ∀ place : Place, place.run text = some place

theorem neutral_of_chars {text : List Char} (h : ∀ c ∈ text, c ∉ ['>', '"', '\'']) :
    Neutral text := by
  intro place
  induction text with
  | nil => rfl
  | cons c text ih =>
    have hc := h c List.mem_cons_self
    simp only [List.mem_cons, List.not_mem_nil, or_false, not_or] at hc
    have hstep : place.step c = some place := by
      cases place with
      | outside => rw [step, if_neg hc.1, if_neg hc.2.1, if_neg hc.2.2]
      | double => rw [step, if_neg hc.2.1]
      | single => rw [step, if_neg hc.2.2]
    rw [run_cons, hstep]
    exact ih fun d hd => h d (List.mem_cons_of_mem _ hd)

/-- In either kind of quotes a double quote opens and closes, or is a character like others. -/
theorem Neutral.quoted {text : List Char} (h : ∀ c ∈ text, c ∉ ['>', '"', '\'']) :
    Neutral ('"' :: (text ++ ['"'])) := by
  intro place
  have htext := neutral_of_chars h
  cases place with
  | outside =>
    change double.run (text ++ ['"']) = _
    rw [run_append, htext double]
    rfl
  | double =>
    change outside.run (text ++ ['"']) = _
    rw [run_append, htext outside]
    rfl
  | single =>
    change single.run (text ++ ['"']) = _
    rw [run_append, htext single]
    rfl

end Place

/-! ### Ends of comments -/

def commentEnd : List Char :=
  "-->".toList

/-- A text stands on one side of a character it does not have. -/
theorem infix_append_cons_iff {mark : Char} {needle first second : List Char}
    (h : mark ∉ needle) :
    needle <:+: first ++ mark :: second ↔ needle <:+: first ∨ needle <:+: second := by
  constructor
  · intro hfound
    induction first with
    | nil =>
      rcases List.infix_cons_iff.mp hfound with hprefix | hfound
      · have hprefix : needle <+: [] ++ mark :: second := hprefix
        exact .inl (prefix_of_prefix_append h hprefix).isInfix
      · exact .inr hfound
    | cons c first ih =>
      rcases List.infix_cons_iff.mp hfound with hprefix | hfound
      · have hprefix : needle <+: (c :: first) ++ mark :: second := hprefix
        exact .inl (prefix_of_prefix_append h hprefix).isInfix
      · rcases ih hfound with hfirst | hsecond
        · exact .inl (List.infix_cons hfirst)
        · exact .inr hsecond
  · rintro (hfirst | hsecond)
    · exact hfirst.trans (List.prefix_append _ _).isInfix
    · exact (List.infix_cons hsecond).trans (List.suffix_append _ _).isInfix

theorem not_commentEnd_infix_of_notMem {text : List Char} (h : '>' ∉ text) : ¬ commentEnd <:+: text := by
  intro hfound
  exact h (hfound.subset (by decide))

/-- A comment that ends in a text does so in front of what has no `>`. -/
theorem infix_of_infix_append {text tail : List Char} (h : '>' ∉ tail)
    (hfound : commentEnd <:+: text ++ tail) : commentEnd <:+: text := by
  obtain ⟨before, after, heq⟩ := hfound
  rcases List.append_eq_append_iff.mp heq with ⟨rest, htext, -⟩ | ⟨rest, hend, htail⟩
  · exact ⟨before, rest, htext.symm⟩
  · rcases List.eq_nil_or_concat rest with rfl | ⟨front, c, rfl⟩
    · rw [List.append_nil] at hend
      exact ⟨before, [], by rw [List.append_nil, hend]⟩
    · have hlast := congrArg List.getLast? hend
      have hc : c = '>' := by
        simpa [commentEnd, eq_comm] using hlast
      exact absurd (by simp [htail, hc]) h

/-! ### Text in place of other text -/

/-- The new text can stand for the old one in every tag and in every comment. -/
structure Alike (old new : List Char) : Prop where
  run : ∀ place : Place, place.run new = place.run old
  ends : ∀ before after, commentEnd <:+: before ++ new ++ after →
    commentEnd <:+: before ++ old ++ after

namespace Alike

theorem refl (text : List Char) : Alike text text :=
  ⟨fun _ => rfl, fun _ _ h => h⟩

theorem append {old new old' new' : List Char} (hfirst : Alike old new)
    (hsecond : Alike old' new') : Alike (old ++ old') (new ++ new') := by
  constructor
  · intro place
    rw [Place.run_append, Place.run_append, hfirst.run]
    cases place.run old with
    | none => rfl
    | some middle => exact hsecond.run middle
  · intro before after h
    have hnew : commentEnd <:+: before ++ new ++ (new' ++ after) := by simpa using h
    have hmixed : commentEnd <:+: (before ++ old) ++ new' ++ after := by
      simpa using hfirst.ends before _ hnew
    simpa using hsecond.ends _ after hmixed

theorem flatMap {α : Type} {items : List α} {old new : α → List Char}
    (h : ∀ item ∈ items, Alike (old item) (new item)) :
    Alike (items.flatMap old) (items.flatMap new) := by
  induction items with
  | nil => exact refl []
  | cons item items ih =>
    rw [List.flatMap_cons, List.flatMap_cons]
    exact (h item List.mem_cons_self).append (ih fun other hother =>
      h other (List.mem_cons_of_mem _ hother))

section Insert

variable {text inserted : List Char} (hinserted : ∀ c ∈ inserted, c ∉ ['>', '"', '\''])

include hinserted

theorem notMem_inserted : '>' ∉ inserted := by
  intro hmem
  exact hinserted '>' hmem (by decide)

/-- What is put at the end of a text in quotes. -/
theorem quoted {quote : Char} (hquote : quote ∉ commentEnd) :
    Alike (text ++ [quote]) (text ++ inserted ++ [quote]) := by
  constructor
  · intro place
    rw [Place.run_append, Place.run_append, Place.run_append]
    cases place.run text with
    | none => rfl
    | some middle =>
      rw [Option.bind_some, Option.bind_some, Place.neutral_of_chars hinserted middle]
      rfl
  · intro before after h
    have hsplit : commentEnd <:+: (before ++ text ++ inserted) ++ quote :: after := by
      simpa using h
    have hgoal : commentEnd <:+: (before ++ text) ++ quote :: after := by
      rcases (infix_append_cons_iff hquote).mp hsplit with hfirst | hsecond
      · exact (infix_append_cons_iff hquote).mpr
          (.inl (infix_of_infix_append (notMem_inserted hinserted) hfirst))
      · exact (infix_append_cons_iff hquote).mpr (.inr hsecond)
    simpa using hgoal

/-- A bare text with something behind it, in quotes. -/
theorem bare (htext : ∀ c ∈ text, c ∉ ['>', '"', '\'']) :
    Alike text ('"' :: (text ++ inserted ++ ['"'])) := by
  have hboth : ∀ c ∈ text ++ inserted, c ∉ ['>', '"', '\''] := by
    intro c hc
    rcases List.mem_append.mp hc with hc | hc
    · exact htext c hc
    · exact hinserted c hc
  constructor
  · intro place
    rw [Place.Neutral.quoted hboth place, Place.neutral_of_chars htext place]
  · intro before after h
    have hquote : '"' ∉ commentEnd := by decide
    have hsplit : commentEnd <:+: before ++ '"' :: ((text ++ inserted) ++ '"' :: after) := by
      simpa using h
    rcases (infix_append_cons_iff hquote).mp hsplit with hfirst | hsplit
    · exact hfirst.trans ((List.prefix_append before text).trans
        (List.prefix_append _ after)).isInfix
    · rcases (infix_append_cons_iff hquote).mp hsplit with hmiddle | hlast
      · exact absurd hmiddle (not_commentEnd_infix_of_notMem (notMem_inserted hboth))
      · exact hlast.trans (List.suffix_append _ _).isInfix

end Insert

end Alike

end SiteTree.Markup
