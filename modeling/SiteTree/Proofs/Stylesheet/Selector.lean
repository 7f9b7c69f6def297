import SiteTree.Proofs.Stylesheet.Nesting
import SiteTree.Proofs.Text.Search
import Mathlib.Data.List.Infix
import Mathlib.Data.List.TakeWhile

/-!
# The grammar of selectors

Selectors as they are written: compounds of names, attribute tests and pseudo parts, joined by
combinators to complex selectors. Next to what a selector looks like stands what it looks like
once it is scoped.

* `scopeSelector_text` — the marker goes into the last compound, before its first pseudo part.
-/

namespace SiteTree.Stylesheet

/-! ### Compounds -/

/-- The characters of names in a selector. -/
def isSelectorChar (c : Char) : Bool :=
  !(Text.isBlank c || [',', '{', '}', ';', ':', '(', ')', '[', ']', '"', '\'', '/', '>', '+',
    '~', '@', '\\'].contains c)

abbrev SelectorChar := { c : Char // isSelectorChar c = true }

/-- A part of a compound. -/
inductive Part where
  /-- a character of a name -/
  | name (c : SelectorChar)
  /-- an attribute test -/
  | test (content : Content)
  /-- a pseudo-class, or with two colons a pseudo-element, and what is in its parentheses -/
  | pseudo (twice : Bool) (label : List SelectorChar) (arguments : Option Content)

namespace Part

def text : Part → List Char
  | name c => [c.val]
  | test content => '[' :: (content.text ++ [']'])
  | pseudo twice label arguments =>
    (if twice then [':', ':'] else [':']) ++ label.map Subtype.val
      ++ match arguments with
        | none => []
        | some content => '(' :: (content.text ++ [')'])

def isPseudo : Part → Bool
  | pseudo _ _ _ => true
  | _ => false

end Part

structure Compound where
  parts : List Part
  parts_ne_nil : parts ≠ []

namespace Compound

def text (compound : Compound) : List Char :=
  compound.parts.flatMap Part.text

/-- The parts before the first pseudo part. -/
def stem (compound : Compound) : List Char :=
  (compound.parts.takeWhile (!·.isPseudo)).flatMap Part.text

/-- The first pseudo part and all that follows it. -/
def pseudos (compound : Compound) : List Char :=
  (compound.parts.dropWhile (!·.isPseudo)).flatMap Part.text

/-- The compound with the marker required, unless it has the marker already. -/
def scopedWith (marker : List Char) (compound : Compound) : List Char :=
  if marker <:+: compound.text then compound.text
  else compound.stem ++ marker ++ compound.pseudos

end Compound

/-! ### Complex selectors and lists -/

/-- What can stand between two compounds: white space and the signs `>`, `+` and `~`. -/
structure Combinator where
  text : List Char
  text_ne_nil : text ≠ []
  chars : ∀ c ∈ text, c ∈ [' ', '\t', '\n', '\r', '>', '+', '~']

/-- Compounds joined by combinators. -/
structure Complex where
  before : List (Compound × Combinator)
  last : Compound

namespace Complex

/-- All that stands before the last compound. -/
def lead (selector : Complex) : List Char :=
  selector.before.flatMap fun (compound, combinator) => compound.text ++ combinator.text

def text (selector : Complex) : List Char :=
  selector.lead ++ selector.last.text

/-- The selector with the marker required of its last compound. -/
def scopedWith (marker : List Char) (selector : Complex) : List Char :=
  selector.lead ++ selector.last.scopedWith marker

end Complex

/-! ### The lexemes of a compound -/

theorem notMem_of_isSelectorChar {c : Char} (h : isSelectorChar c = true) :
    Text.isBlank c = false ∧ c ∉ [',', '{', '}', ';', ':', '(', ')', '[', ']', '"', '\'', '/',
      '>', '+', '~', '@', '\\'] := by
  simpa [isSelectorChar] using h

theorem isQuote_of_isSelectorChar {c : Char} (h : isSelectorChar c = true) :
    isQuote c = false := by
  have := (notMem_of_isSelectorChar h).2
  simp only [List.mem_cons, not_or] at this
  simp [isQuote, this]

def nameLexeme (c : SelectorChar) : Lexeme :=
  .plain c.val (isQuote_of_isSelectorChar c.property)

def colon : Lexeme :=
  .plain ':' (by decide)

def Part.lexemes : Part → List Lexeme
  | name c => [nameLexeme c]
  | test content => content.squared
  | pseudo twice label arguments =>
    (if twice then [colon, colon] else [colon]) ++ label.map nameLexeme
      ++ match arguments with
        | none => []
        | some content => content.rounded

def Compound.lexemes (compound : Compound) : List Lexeme :=
  compound.parts.flatMap Part.lexemes

section Text

theorem lexemesText_flatMap {α : Type} {items : List α} {lexemes : α → List Lexeme}
    {text : α → List Char} (h : ∀ item ∈ items, lexemesText (lexemes item) = text item) :
    lexemesText (items.flatMap lexemes) = items.flatMap text := by
  induction items with
  | nil => rfl
  | cons item items ih =>
    rw [List.flatMap_cons, lexemesText_append, h item List.mem_cons_self,
      ih fun i hi => h i (List.mem_cons_of_mem _ hi), List.flatMap_cons]

theorem lexemesText_map_nameLexeme (label : List SelectorChar) :
    lexemesText (label.map nameLexeme) = label.map Subtype.val := by
  induction label with
  | nil => rfl
  | cons c label ih => simp [ih, nameLexeme, Lexeme.text]

theorem Part.lexemesText_lexemes (part : Part) : lexemesText part.lexemes = part.text := by
  cases part with
  | name c => simp [Part.lexemes, Part.text, nameLexeme, Lexeme.text]
  | test content => exact content.lexemesText_squared
  | pseudo twice label arguments =>
    cases twice <;> cases arguments <;>
      simp [Part.lexemes, Part.text, lexemesText_map_nameLexeme,
        Content.lexemesText_rounded, Lexeme.text, colon]

theorem Compound.lexemesText_lexemes (compound : Compound) :
    lexemesText compound.lexemes = compound.text :=
  lexemesText_flatMap fun part _ => part.lexemesText_lexemes

end Text

/-! #### Compounds are solid -/

theorem solid_nameLexeme (c : SelectorChar) : Solid [nameLexeme c] := by
  refine Solid.singleton ?_
  have := (notMem_of_isSelectorChar c.property).2
  simp only [List.mem_cons, not_or] at this
  simp [nameLexeme, Lexeme.text, this]

theorem solid_colon : Solid [colon] :=
  Solid.singleton (by simp [colon, Lexeme.text])

theorem Part.solid_lexemes (part : Part) : Solid part.lexemes := by
  cases part with
  | name c => exact solid_nameLexeme c
  | test content => exact content.solid_squared
  | pseudo twice label arguments =>
    refine Solid.append (Solid.append ?_ ?_) ?_
    · cases twice with
      | false => exact solid_colon
      | true => exact solid_colon.append solid_colon
    · rw [List.map_eq_flatMap]
      exact Solid.flatMap fun c _ => solid_nameLexeme c
    · cases arguments with
      | none => exact Solid.nil
      | some content => exact content.solid_rounded

theorem Compound.solid_lexemes (compound : Compound) : Solid compound.lexemes :=
  Solid.flatMap fun part _ => part.solid_lexemes

/-! #### Compounds are nested -/

theorem nested_nameLexeme {kind : Char → Prop} (hkind : ∀ c, isSelectorChar c = true → kind c)
    (c : SelectorChar) : Nested (Lexeme.IsPlain kind) 0 [nameLexeme c] := by
  have := (notMem_of_isSelectorChar c.property).2
  simp only [List.mem_cons, not_or] at this
  refine ⟨hkind c.val c.property, ?_⟩
  simp [Nested, nameLexeme, Lexeme.nest, nest, this]

theorem Part.nested_lexemes {kind : Char → Prop} (hkind : ∀ c, isSelectorChar c = true → kind c)
    (hsquare : kind '[') (part : Part) (hpseudo : part.isPseudo = true → kind ':' ∧ kind '(') :
    Nested (Lexeme.IsPlain kind) 0 part.lexemes := by
  cases part with
  | name c => exact nested_nameLexeme hkind c
  | test content => exact ⟨hsquare, content.nested_closedBy _ (.inr rfl)⟩
  | pseudo twice label arguments =>
    obtain ⟨hcolon, hround⟩ := hpseudo rfl
    refine Nested.append (Nested.append ?_ ?_) ?_
    · cases twice with
      | false => exact ⟨hcolon, rfl⟩
      | true => exact ⟨hcolon, hcolon, rfl⟩
    · rw [List.map_eq_flatMap]
      exact Nested.flatMap fun c _ => nested_nameLexeme hkind c
    · cases arguments with
      | none => rfl
      | some content => exact ⟨hround, content.nested_closedBy _ (.inl rfl)⟩

theorem Compound.nested_lexemes {kind : Char → Prop}
    (hkind : ∀ c, isSelectorChar c = true → kind c) (hsquare : kind '[') (hcolon : kind ':')
    (hround : kind '(') (compound : Compound) :
    Nested (Lexeme.IsPlain kind) 0 compound.lexemes :=
  Nested.flatMap fun part _ => part.nested_lexemes hkind hsquare fun _ => ⟨hcolon, hround⟩

/-! ### Scoping one selector -/

theorem isCombinator_iff {c : Char} :
    isCombinator c = true ↔ c ∈ [' ', '\t', '\n', '\r', '>', '+', '~'] := by
  simp [isCombinator, or_assoc]

/-- What the search for the last compound passes over: the characters of a compound. -/
theorem Compound.splitLast_text (compound : Compound) (rest : List Char) :
    splitLast .code 0 (compound.text ++ rest)
      = (splitLast .code 0 rest).map (keepFirst compound.text) := by
  have hnested : Nested (Lexeme.IsPlain fun c => isCombinator c = false ∧ c ≠ '\\' ∧ c ≠ '/') 0
      compound.lexemes := by
    refine compound.nested_lexemes ?_ (by decide) (by decide) (by decide)
    intro c hc
    have := (notMem_of_isSelectorChar hc).2
    have hblank := (notMem_of_isSelectorChar hc).1
    simp only [List.mem_cons, not_or] at this
    refine ⟨?_, by simp [this], by simp [this]⟩
    rw [Bool.eq_false_iff, Ne, isCombinator_iff]
    intro hmem
    -- A combinator is a blank or one of the signs that no name has.
    simp only [List.mem_cons, List.not_mem_nil, or_false] at hmem
    rcases hmem with rfl | rfl | rfl | rfl | rfl | rfl | rfl <;>
      simp_all [Text.isBlank, Text.blankRanges]
  have := passing_splitLast.scan_nested hnested rest
  rwa [show compound.lexemes.flatMap Lexeme.text = compound.text from
    compound.lexemesText_lexemes, compound.lexemesText_lexemes] at this

theorem lastCompound_combinator {c : Char} (hc : isCombinator c = true) (rest : List Char) :
    splitLast .code 0 (c :: rest) = some (keepFirst [c] (lastCompound rest)) := by
  have hback : c ≠ '\\' := by rintro rfl; simp [isCombinator] at hc
  have hslash : c ≠ '/' := by rintro rfl; simp [isCombinator] at hc
  rw [splitLast]
  · rw [if_pos ⟨rfl, hc⟩, lastCompound]
    cases splitLast .code 0 rest <;> rfl
  · exact fun _ _ h => absurd h hback
  · exact fun _ _ h => absurd h hslash

theorem Combinator.lastCompound_text (compound : Compound) (combinator : Combinator)
    (rest : List Char) :
    lastCompound (compound.text ++ combinator.text ++ rest)
      = keepFirst (compound.text ++ combinator.text) (lastCompound rest) := by
  obtain ⟨text, hne, hchars⟩ := combinator
  have hall : ∀ (text : List Char), (∀ c ∈ text, isCombinator c = true) →
      lastCompound (text ++ rest) = keepFirst text (lastCompound rest) := by
    intro text
    induction text with
    | nil => exact fun _ => (keeping_keepFirst.nil _).symm
    | cons c text ih =>
      intro htext
      rw [List.cons_append, lastCompound, lastCompound_combinator (htext c List.mem_cons_self),
        Option.getD_some, ih fun d hd => htext d (List.mem_cons_of_mem _ hd),
        ← keeping_keepFirst.append, List.singleton_append]
  cases text with
  | nil => exact absurd rfl hne
  | cons c text =>
    have hcomb : ∀ d ∈ c :: text, isCombinator d = true := fun d hd =>
      isCombinator_iff.mpr (hchars d hd)
    rw [lastCompound, List.append_assoc, compound.splitLast_text, List.cons_append,
      lastCompound_combinator (hcomb c List.mem_cons_self),
      hall text fun d hd => hcomb d (List.mem_cons_of_mem _ hd),
      ← keeping_keepFirst.append, Option.map_some, Option.getD_some, ← keeping_keepFirst.append,
      List.singleton_append]

theorem Complex.lastCompound_text (selector : Complex) :
    lastCompound selector.text = (selector.lead, selector.last.text) := by
  obtain ⟨before, last⟩ := selector
  simp only [Complex.text, Complex.lead]
  induction before with
  | nil =>
    have := last.splitLast_text []
    rw [List.append_nil] at this
    simp [lastCompound, this, splitLast]
  | cons joined before ih =>
    rw [List.flatMap_cons, List.append_assoc, Combinator.lastCompound_text, ih]
    rfl

theorem Compound.stem_append_pseudos (compound : Compound) :
    compound.stem ++ compound.pseudos = compound.text := by
  rw [Compound.stem, Compound.pseudos, ← List.flatMap_append, List.takeWhile_append_dropWhile]
  rfl

/-- The first colon of a compound is that of its first pseudo part. -/
theorem Compound.splitPseudo_text (compound : Compound) :
    splitPseudo .code 0 compound.text = (compound.stem, compound.pseudos) := by
  have hstem : Nested (Lexeme.IsPlain fun c => c ≠ ':' ∧ c ≠ '\\') 0
      ((compound.parts.takeWhile (!·.isPseudo)).flatMap Part.lexemes) := by
    refine Nested.flatMap fun part hpart => part.nested_lexemes ?_ (by decide) ?_
    · intro c hc
      have := (notMem_of_isSelectorChar hc).2
      simp only [List.mem_cons, not_or] at this
      simp [this]
    · intro hpseudo
      simpa [hpseudo] using List.mem_takeWhile_imp hpart
  have htext : lexemesText ((compound.parts.takeWhile (!·.isPseudo)).flatMap Part.lexemes)
      = compound.stem :=
    lexemesText_flatMap fun part _ => part.lexemesText_lexemes
  have hpseudos : splitPseudo .code 0 compound.pseudos = ([], compound.pseudos) := by
    rw [Compound.pseudos]
    cases h : compound.parts.dropWhile (!·.isPseudo) with
    | nil => rfl
    | cons part parts =>
      have hpart : part.isPseudo = true := by
        have := List.head?_dropWhile_not (fun part : Part => !part.isPseudo) compound.parts
        simpa [h] using this
      obtain ⟨twice, label, arguments, rfl⟩ : ∃ twice label arguments,
          part = .pseudo twice label arguments := by
        cases part <;> simp_all [Part.isPseudo]
      have hhead : ∃ text, (Part.pseudo twice label arguments).text = ':' :: text := by
        cases twice <;> simp [Part.text]
      obtain ⟨text, htext⟩ := hhead
      rw [List.flatMap_cons, htext, List.cons_append, splitPseudo] <;> simp
  have := passing_splitPseudo.scan_nested hstem compound.pseudos
  rw [hpseudos, show ((compound.parts.takeWhile (!·.isPseudo)).flatMap Part.lexemes).flatMap
    Lexeme.text = compound.stem from htext, htext] at this
  rw [← compound.stem_append_pseudos, this]
  simp [keepFirst, Compound.stem]

/-- Scoping a selector requires the marker of its last compound. -/
theorem Complex.scopeSelector_text (marker : List Char) (selector : Complex) :
    scopeSelector marker selector.text = selector.scopedWith marker := by
  rw [scopeSelector, selector.lastCompound_text]
  simp only [selector.last.splitPseudo_text, Text.occursIn_iff, Complex.scopedWith,
    Compound.scopedWith]
  split
  · rfl
  · simp

end SiteTree.Stylesheet
