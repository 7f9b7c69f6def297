import SiteTree.Stylesheet.Scope
import Mathlib.Data.List.Chain

/-!
# Lexemes of a stylesheet

Stylesheets as they are written, not as they are scanned: a text is a row of plain characters,
escapes, string literals and comments. A literal and a comment carry the proof that they end
where they say they end, so whatever follows them is code again.

* `classify_lexemes` — scanning such a row finds exactly the code that the row says it has.
-/

namespace SiteTree.Stylesheet

/-! ### String literals and comments -/

/-- A character of a string literal, by itself or behind a backslash. -/
inductive StringPart where
  | char (c : Char)
  | escaped (c : Char)

def StringPart.text : StringPart → List Char
  | char c => [c]
  | escaped c => ['\\', c]

/-- Does the part leave a string open that `quote` opened? -/
def StringPart.Fits (quote : Char) : StringPart → Prop
  | char c => c ≠ quote ∧ c ≠ '\\'
  | escaped _ => True

/-- A string that ends with the quote it began with. -/
structure StringLiteral where
  quote : Char
  parts : List StringPart
  isQuote_quote : isQuote quote = true
  fits : ∀ part ∈ parts, part.Fits quote

theorem StringLiteral.quote_ne_backslash (literal : StringLiteral) : literal.quote ≠ '\\' := by
  intro h
  have := literal.isQuote_quote
  simp [h, isQuote] at this

/-- What follows the opening quote. -/
def StringLiteral.tail (literal : StringLiteral) : List Char :=
  literal.parts.flatMap StringPart.text ++ [literal.quote]

/-- A comment that ends with the first `*/` behind its opening. -/
structure Comment where
  content : List Char
  closed : ¬ ['*', '/'] <:+: content

/-- What follows the opening. -/
def Comment.tail (comment : Comment) : List Char :=
  comment.content ++ ['*', '/']

/-! ### Lexemes -/

/-- The characters that no scan takes for more than themselves, even when one of them stands
behind a backslash. -/
def isOrdinary (c : Char) : Bool :=
  !(['"', '\'', '(', ')', '[', ']', '{', '}', ';', '/'].contains c)

inductive Lexeme where
  | plain (c : Char) (isCode : isQuote c = false)
  /-- a backslash and what it hides -/
  | escaped (c : Char) (ordinary : isOrdinary c = true)
  | string (literal : StringLiteral)
  | comment (comment : Comment)

namespace Lexeme

def text : Lexeme → List Char
  | plain c _ => [c]
  | escaped c _ => ['\\', c]
  | string literal => literal.quote :: literal.tail
  | comment remark => '/' :: '*' :: remark.tail

/-- The characters of a lexeme, each with whether it is code. -/
def classified : Lexeme → List (Char × Bool)
  | plain c _ => [(c, true)]
  | escaped c _ => [('\\', true), (c, true)]
  | string literal => (literal.quote, false) :: literal.tail.map (·, false)
  | comment remark => ('/', false) :: ('*', false) :: remark.tail.map (·, false)

/-- May the second lexeme follow the first? A plain slash and a plain star would open a
comment. -/
def Joins (first second : Lexeme) : Prop :=
  ¬ (first.text = ['/'] ∧ second.text = ['*'])

/-- A lexeme that is not a brace or a semicolon of the code. -/
def Unmarked : Lexeme → Prop
  | plain c _ => Mark.ofChar? c = none
  | _ => True

end Lexeme

/-- The text of a row of lexemes. -/
def lexemesText (lexemes : List Lexeme) : List Char :=
  lexemes.flatMap Lexeme.text

/-- The characters of a row of lexemes, each with whether it is code. -/
def lexemesClassified (lexemes : List Lexeme) : List (Char × Bool) :=
  lexemes.flatMap Lexeme.classified

section Text

variable (lexeme : Lexeme) (first second : List Lexeme)

@[simp] theorem lexemesText_nil : lexemesText [] = [] := rfl

@[simp] theorem lexemesText_cons :
    lexemesText (lexeme :: first) = lexeme.text ++ lexemesText first := by
  simp [lexemesText]

@[simp] theorem lexemesText_append :
    lexemesText (first ++ second) = lexemesText first ++ lexemesText second := by
  simp [lexemesText]

@[simp] theorem lexemesClassified_nil : lexemesClassified [] = [] := rfl

@[simp] theorem lexemesClassified_cons :
    lexemesClassified (lexeme :: first) = lexeme.classified ++ lexemesClassified first := by
  simp [lexemesClassified]

@[simp] theorem lexemesClassified_append :
    lexemesClassified (first ++ second)
      = lexemesClassified first ++ lexemesClassified second := by
  simp [lexemesClassified]

theorem Lexeme.map_fst_classified : lexeme.classified.map Prod.fst = lexeme.text := by
  cases lexeme <;> simp [Lexeme.classified, Lexeme.text, Function.comp_def]

theorem map_fst_lexemesClassified :
    (lexemesClassified first).map Prod.fst = lexemesText first := by
  induction first with
  | nil => rfl
  | cons lexeme first ih => simp [ih, Lexeme.map_fst_classified]

end Text

/-! ### Passing over a literal or a comment

Every scan of the stylesheet passes over literals and comments in the same way. What it does
with the characters it passes is `keep`: it copies them in front of its answer, or drops them. -/

/-- Keeping a text is keeping its parts, the last one first. -/
structure Keeping {β : Type} (keep : List Char → β → β) : Prop where
  nil : ∀ answer, keep [] answer = answer
  append : ∀ first second answer, keep (first ++ second) answer = keep first (keep second answer)

section Pass

variable {β : Type} {scan : List Char → β} (after : List Char → β) {keep : List Char → β → β}

theorem scan_string_tail (hkeep : Keeping keep) (literal : StringLiteral)
    (hchar : ∀ c rest, c ≠ literal.quote → c ≠ '\\' → scan (c :: rest) = keep [c] (scan rest))
    (hescaped : ∀ c rest, scan ('\\' :: c :: rest) = keep ['\\', c] (scan rest))
    (hquote : ∀ rest, scan (literal.quote :: rest) = keep [literal.quote] (after rest))
    (rest : List Char) :
    scan (literal.tail ++ rest) = keep literal.tail (after rest) := by
  obtain ⟨quote, parts, isQuote_quote, hfits⟩ := literal
  simp only [StringLiteral.tail]
  induction parts with
  | nil => exact hquote rest
  | cons part parts ih =>
    have ih := ih fun p hp => hfits p (List.mem_cons_of_mem _ hp)
    have hpart := hfits part List.mem_cons_self
    rw [List.flatMap_cons, List.append_assoc part.text, hkeep.append, ← ih hchar hquote,
      List.append_assoc part.text]
    cases part with
    | char c => exact hchar c _ hpart.1 hpart.2
    | escaped c => exact hescaped c _

theorem scan_comment_tail (hkeep : Keeping keep) (comment : Comment)
    (hchar : ∀ c rest, (c = '*' → rest.head? ≠ some '/') → scan (c :: rest) = keep [c] (scan rest))
    (hclose : ∀ rest, scan ('*' :: '/' :: rest) = keep ['*', '/'] (after rest))
    (rest : List Char) :
    scan (comment.tail ++ rest) = keep comment.tail (after rest) := by
  obtain ⟨content, hclosed⟩ := comment
  simp only [Comment.tail]
  induction content with
  | nil => exact hclose rest
  | cons c content ih =>
    have ih := ih fun h => hclosed (List.infix_cons h)
    rw [List.cons_append, ← List.singleton_append, hkeep.append, ← ih, List.append_assoc]
    refine hchar c _ ?_
    -- A star of the content is not followed by a slash: neither in the content nor by the
    -- star that closes the comment.
    rintro rfl hslash
    cases content with
    | nil => simp at hslash
    | cons d content =>
      obtain rfl : d = '/' := by simpa using hslash
      exact hclosed ⟨[], content, rfl⟩

end Pass

/-- Dropping a text is dropping its parts. -/
theorem keeping_dropped {β : Type} : Keeping fun (_ : List Char) (answer : β) => answer :=
  ⟨fun _ => rfl, fun _ _ _ => rfl⟩

theorem keeping_classified :
    Keeping fun (text : List Char) (answer : List (Char × Bool)) =>
      text.map (·, false) ++ answer :=
  ⟨fun _ => rfl, fun _ _ _ => by simp⟩

theorem classify_string_tail (literal : StringLiteral) (rest : List Char) :
    (Place.string literal.quote).classify (literal.tail ++ rest)
      = literal.tail.map (·, false) ++ Place.code.classify rest := by
  refine scan_string_tail Place.code.classify keeping_classified literal ?_ ?_ ?_ rest
  · intro c rest hc hback
    rw [Place.classify, if_neg hc]
    · rfl
    · exact fun _ _ h => absurd h hback
  · intro c rest
    rw [Place.classify]
    rfl
  · intro rest
    rw [Place.classify, if_pos rfl]
    · rfl
    · exact fun _ _ h => absurd h literal.quote_ne_backslash

theorem classify_comment_tail (comment : Comment) (rest : List Char) :
    Place.comment.classify (comment.tail ++ rest)
      = comment.tail.map (·, false) ++ Place.code.classify rest := by
  refine scan_comment_tail Place.code.classify keeping_classified comment ?_ ?_ rest
  · intro c rest hslash
    rw [Place.classify]
    · rfl
    · rintro _ rfl rfl
      exact hslash rfl rfl
  · intro rest
    rw [Place.classify]
    rfl

/-! ### Scanning one lexeme -/

/-- A character that opens no string and no comment is code. -/
theorem classify_code_cons {c : Char} {rest : List Char} (hquote : isQuote c = false)
    (hstar : c = '/' → rest.head? ≠ some '*') :
    Place.code.classify (c :: rest) = (c, true) :: Place.code.classify rest := by
  rw [Place.classify]
  · simp [hquote]
  · rintro rest' rfl rfl
    exact hstar rfl rfl

theorem Lexeme.classify_text (lexeme : Lexeme) {rest : List Char}
    (hstar : lexeme.text = ['/'] → rest.head? ≠ some '*') :
    Place.code.classify (lexeme.text ++ rest)
      = lexeme.classified ++ Place.code.classify rest := by
  cases lexeme with
  | plain c hquote =>
    exact classify_code_cons hquote fun h => hstar (by simp [Lexeme.text, h])
  | escaped c hordinary =>
    have hc : isQuote c = false ∧ c ≠ '/' := by
      simp only [isOrdinary, List.contains_eq_mem, List.mem_cons, Bool.not_eq_true',
        decide_eq_false_iff_not, not_or] at hordinary
      simp [isQuote, hordinary]
    have hback : isQuote '\\' = false := by decide
    simp only [Lexeme.text, Lexeme.classified, List.cons_append, List.nil_append]
    rw [classify_code_cons hback (by simp), classify_code_cons hc.1 fun h => absurd h hc.2]
  | string literal =>
    simp only [Lexeme.text, Lexeme.classified, List.cons_append]
    rw [Place.classify, if_pos literal.isQuote_quote, classify_string_tail]
    intro _ h
    have := literal.isQuote_quote
    simp [h, isQuote] at this
  | comment comment =>
    simp only [Lexeme.text, Lexeme.classified, List.cons_append]
    rw [Place.classify, classify_comment_tail]

/-! ### Scanning a row of lexemes -/

/-- Does a text begin with the star that a plain slash in front would turn into a comment? -/
theorem Lexeme.head?_text_ne_star {first second : Lexeme} (h : first.Joins second)
    (hslash : first.text = ['/']) (rest : List Char) :
    (second.text ++ rest).head? ≠ some '*' := by
  cases second with
  | plain c hquote =>
    rintro hstar
    simp only [Lexeme.text, List.cons_append, List.head?_cons, Option.some.injEq] at hstar
    exact h ⟨hslash, by simp [Lexeme.text, hstar]⟩
  | escaped c hordinary => simp [Lexeme.text]
  | string literal =>
    intro hstar
    have hquote := literal.isQuote_quote
    simp only [Lexeme.text, List.cons_append, List.head?_cons, Option.some.injEq] at hstar
    simp [hstar, isQuote] at hquote
  | comment comment => simp [Lexeme.text]

theorem classify_lexemes {lexemes : List Lexeme} (hjoins : lexemes.IsChain Lexeme.Joins)
    {rest : List Char} (hrest : rest.head? ≠ some '*') :
    Place.code.classify (lexemesText lexemes ++ rest)
      = lexemesClassified lexemes ++ Place.code.classify rest := by
  induction lexemes with
  | nil => rfl
  | cons lexeme lexemes ih =>
    simp only [lexemesText_cons, lexemesClassified_cons, List.append_assoc]
    rw [Lexeme.classify_text, ih hjoins.tail]
    intro hslash
    cases lexemes with
    | nil => simpa using hrest
    | cons next lexemes =>
      rw [lexemesText_cons, List.append_assoc]
      exact Lexeme.head?_text_ne_star (List.isChain_cons_cons.mp hjoins).1 hslash _

/-! ### Rows that a star may follow -/

/-- A row of lexemes behind which anything can stand without being drawn into it. -/
structure Solid (lexemes : List Lexeme) : Prop where
  joins : lexemes.IsChain Lexeme.Joins
  getLast : ∀ lexeme ∈ lexemes.getLast?, lexeme.text ≠ ['/']

namespace Solid

variable {first second : List Lexeme}

theorem nil : Solid [] :=
  ⟨List.IsChain.nil, by simp⟩

theorem singleton {lexeme : Lexeme} (h : lexeme.text ≠ ['/']) : Solid [lexeme] :=
  ⟨List.IsChain.singleton _, by simpa using h⟩

theorem isChain_append (hfirst : Solid first) (hsecond : second.IsChain Lexeme.Joins) :
    (first ++ second).IsChain Lexeme.Joins := by
  rw [List.isChain_append]
  exact ⟨hfirst.joins, hsecond, fun a ha b _ h => hfirst.getLast a ha h.1⟩

theorem append (hfirst : Solid first) (hsecond : Solid second) : Solid (first ++ second) := by
  refine ⟨hfirst.isChain_append hsecond.joins, ?_⟩
  intro lexeme hlast
  rw [List.getLast?_append, Option.mem_def] at hlast
  cases h : second.getLast? with
  | none => exact hfirst.getLast lexeme (by simpa [h] using hlast)
  | some last => exact hsecond.getLast lexeme (by simpa [h] using hlast)

theorem flatMap {α : Type} {items : List α} {lexemes : α → List Lexeme}
    (h : ∀ item ∈ items, Solid (lexemes item)) : Solid (items.flatMap lexemes) := by
  induction items with
  | nil => exact nil
  | cons item items ih =>
    rw [List.flatMap_cons]
    exact (h item List.mem_cons_self).append (ih fun i hi => h i (List.mem_cons_of_mem _ hi))

end Solid

end SiteTree.Stylesheet
