import SiteTree.Proofs.Stylesheet.Lexeme

/-!
# Scanning past brackets

The splitter of selector lists, the search for the last compound of a selector and the search
for its first colon each count brackets and skip strings. All three pass over what matched
brackets hold without looking at it.

* `Passing.scan_nested` — a scan passes over every row in which it meets nothing of its own
  outside brackets.
* `passing_splitItems`, `passing_splitLast`, `passing_splitPseudo` — what the three scans pass.
-/

namespace SiteTree.Stylesheet

/-! ### What brackets hold -/

/-- Are all brackets of a row matched, when `depth` brackets are open in front of it? -/
def Balanced : Nat → List Lexeme → Prop
  | depth, [] => depth = 0
  | depth, lexeme :: lexemes =>
    if lexeme.text = ['('] ∨ lexeme.text = ['['] then Balanced (depth + 1) lexemes
    else if lexeme.text = [')'] ∨ lexeme.text = [']'] then
      depth ≠ 0 ∧ Balanced (depth - 1) lexemes
    else Balanced depth lexemes

/-- The lexemes that can stand between brackets. -/
def Lexeme.Inside : Lexeme → Prop
  | plain c _ => Mark.ofChar? c = none ∧ c ≠ '\\'
  | escaped _ _ => True
  | string _ => True
  | comment _ => False

/-- What stands between a pair of brackets of a selector. -/
structure Content where
  lexemes : List Lexeme
  joins : lexemes.IsChain Lexeme.Joins
  inside : ∀ lexeme ∈ lexemes, lexeme.Inside
  balanced : Balanced 0 lexemes

def Content.text (content : Content) : List Char :=
  lexemesText content.lexemes

/-- The content with the bracket that closes it. -/
def Content.closedBy (content : Content) (bracket : Char) (isCode : isQuote bracket = false) :
    List Lexeme :=
  content.lexemes ++ [.plain bracket isCode]

/-- A content in square brackets. -/
def Content.squared (content : Content) : List Lexeme :=
  .plain '[' (by decide) :: content.closedBy ']' (by decide)

/-- A content in parentheses. -/
def Content.rounded (content : Content) : List Lexeme :=
  .plain '(' (by decide) :: content.closedBy ')' (by decide)

theorem Content.lexemesText_squared (content : Content) :
    lexemesText content.squared = '[' :: (content.text ++ [']']) := by
  simp [Content.squared, Content.closedBy, Content.text, Lexeme.text]

theorem Content.lexemesText_rounded (content : Content) :
    lexemesText content.rounded = '(' :: (content.text ++ [')']) := by
  simp [Content.rounded, Content.closedBy, Content.text, Lexeme.text]

theorem Content.solid_closedBy (content : Content) {bracket : Char}
    (isCode : isQuote bracket = false) (hstar : bracket ≠ '*') (hslash : bracket ≠ '/') :
    Solid (content.closedBy bracket isCode) := by
  constructor
  · rw [Content.closedBy, List.isChain_append]
    refine ⟨content.joins, List.IsChain.singleton _, ?_⟩
    rintro first - second hsecond ⟨-, hjoin⟩
    obtain rfl : second = .plain bracket isCode := by simpa using hsecond.symm
    exact hstar (by simpa [Lexeme.text] using hjoin)
  · simp [Content.closedBy, Lexeme.text, hslash]

theorem Content.solid_squared (content : Content) : Solid content.squared :=
  (Solid.singleton (by simp [Lexeme.text])).append
    (content.solid_closedBy _ (by decide) (by decide))

theorem Content.solid_rounded (content : Content) : Solid content.rounded :=
  (Solid.singleton (by simp [Lexeme.text])).append
    (content.solid_closedBy _ (by decide) (by decide))

/-! ### Passing over brackets

What the scans have in common is stated once, for rows whose brackets match and whose lexemes
outside brackets are all of a kind that the scan has no use for. -/

/-- The bracket depth behind a lexeme. -/
def Lexeme.nest (depth : Nat) : Lexeme → Nat
  | plain c _ => Stylesheet.nest depth c
  | _ => depth

/-- Does a row that begins at a bracket depth end outside all brackets, with lexemes of the
given kind only outside them? -/
def Nested (outside : Lexeme → Prop) : Nat → List Lexeme → Prop
  | depth, [] => depth = 0
  | 0, lexeme :: lexemes => outside lexeme ∧ Nested outside (lexeme.nest 0) lexemes
  | depth + 1, lexeme :: lexemes =>
    lexeme.Inside ∧ Nested outside (lexeme.nest (depth + 1)) lexemes

/-- A scan that passes over lexemes: those of a kind outside brackets, and all within. -/
structure Passing {β γ : Type} (outside : Lexeme → Prop) (write : Lexeme → List γ)
    (scan : Nat → List γ → β) (keep : List Char → β → β) : Prop extends Keeping keep where
  passOutside : ∀ lexeme, outside lexeme → ∀ rest,
    scan 0 (write lexeme ++ rest) = keep lexeme.text (scan (lexeme.nest 0) rest)
  passInside : ∀ lexeme, lexeme.Inside → ∀ depth rest,
    scan (depth + 1) (write lexeme ++ rest)
      = keep lexeme.text (scan (lexeme.nest (depth + 1)) rest)

section Nested

variable {outside : Lexeme → Prop} {first second lexemes : List Lexeme} {depth : Nat}

theorem Passing.scan_nested {β γ : Type} {write : Lexeme → List γ} {scan : Nat → List γ → β}
    {keep : List Char → β → β} (hpass : Passing outside write scan keep)
    (hnested : Nested outside depth lexemes) (rest : List γ) :
    scan depth (lexemes.flatMap write ++ rest) = keep (lexemesText lexemes) (scan 0 rest) := by
  induction lexemes generalizing depth with
  | nil =>
    obtain rfl : depth = 0 := by simpa [Nested] using hnested
    exact (hpass.nil _).symm
  | cons lexeme lexemes ih =>
    rw [List.flatMap_cons, List.append_assoc, lexemesText_cons, hpass.append]
    cases depth with
    | zero => rw [hpass.passOutside lexeme hnested.1, ih hnested.2]
    | succ depth => rw [hpass.passInside lexeme hnested.1, ih hnested.2]

theorem Nested.append (hfirst : Nested outside depth first) (hsecond : Nested outside 0 second) :
    Nested outside depth (first ++ second) := by
  induction first generalizing depth with
  | nil =>
    obtain rfl : depth = 0 := by simpa [Nested] using hfirst
    exact hsecond
  | cons lexeme first ih =>
    cases depth with
    | zero => exact ⟨hfirst.1, ih hfirst.2⟩
    | succ depth => exact ⟨hfirst.1, ih hfirst.2⟩

theorem Nested.flatMap {α : Type} {items : List α} {write : α → List Lexeme}
    (h : ∀ item ∈ items, Nested outside 0 (write item)) :
    Nested outside 0 (items.flatMap write) := by
  induction items with
  | nil => simp [Nested]
  | cons item items ih =>
    rw [List.flatMap_cons]
    exact (h item List.mem_cons_self).append (ih fun i hi => h i (List.mem_cons_of_mem _ hi))

end Nested

/-- Behind the bracket that opens it, a balanced row leads to the bracket that closes it. -/
theorem Balanced.nest_cons {depth : Nat} {lexeme : Lexeme} {lexemes : List Lexeme}
    (h : Balanced depth (lexeme :: lexemes)) :
    ∃ next, lexeme.nest (depth + 1) = next + 1 ∧ Balanced next lexemes := by
  cases lexeme with
  | plain c hquote =>
    simp only [Balanced, Lexeme.text, List.cons.injEq, and_true] at h
    simp only [Lexeme.nest, nest]
    split at h
    · next hopen => exact ⟨depth + 1, by rw [if_pos hopen], h⟩
    · next hopen =>
      split at h
      · next hclose =>
        refine ⟨depth - 1, ?_, h.2⟩
        rw [if_neg hopen, if_pos hclose]
        omega
      · next hclose => exact ⟨depth, by rw [if_neg hopen, if_neg hclose], h⟩
  | escaped c hordinary => exact ⟨depth, rfl, by simpa [Balanced, Lexeme.text] using h⟩
  | string literal =>
    have htext : ∀ c, (Lexeme.string literal).text ≠ [c] := by
      simp [Lexeme.text, StringLiteral.tail]
    exact ⟨depth, rfl, by simpa [Balanced, htext] using h⟩
  | comment remark => exact ⟨depth, rfl, by simpa [Balanced, Lexeme.text] using h⟩

theorem Content.nested_closedBy (content : Content) {outside : Lexeme → Prop} {bracket : Char}
    (isCode : isQuote bracket = false) (hclose : bracket = ')' ∨ bracket = ']') :
    Nested outside 1 (content.closedBy bracket isCode) := by
  have key : ∀ (lexemes : List Lexeme) (depth : Nat), (∀ lexeme ∈ lexemes, lexeme.Inside) →
      Balanced depth lexemes →
      Nested outside (depth + 1) (lexemes ++ [.plain bracket isCode]) := by
    intro lexemes
    induction lexemes with
    | nil =>
      intro depth _ hbalanced
      obtain rfl : depth = 0 := by simpa [Balanced] using hbalanced
      refine ⟨?_, ?_⟩
      · rcases hclose with rfl | rfl <;> simp [Lexeme.Inside, Mark.ofChar?]
      · rcases hclose with rfl | rfl <;> rfl
    | cons lexeme lexemes ih =>
      intro depth hinside hbalanced
      obtain ⟨next, hnest, hnext⟩ := hbalanced.nest_cons
      refine ⟨hinside lexeme List.mem_cons_self, ?_⟩
      rw [hnest]
      exact ih next (fun l hl => hinside l (List.mem_cons_of_mem _ hl)) hnext
  exact key content.lexemes 0 content.inside content.balanced

/-! ### The three scans -/

theorem nest_of_isOrdinary {c : Char} (h : isOrdinary c = true) (depth : Nat) :
    nest depth c = depth := by
  simp only [isOrdinary, List.contains_eq_mem, List.mem_cons, Bool.not_eq_true',
    decide_eq_false_iff_not, not_or] at h
  simp [nest, h]

theorem nest_of_isQuote {c : Char} (h : isQuote c = true) (depth : Nat) : nest depth c = depth := by
  simp only [isQuote, Bool.or_eq_true, beq_iff_eq] at h
  rcases h with rfl | rfl <;> rfl

/-- Adds the characters passed to the first of two answers. -/
def keepFirst {α : Type} (text : List Char) (answer : List Char × α) : List Char × α :=
  (text ++ answer.1, answer.2)

theorem keeping_keepFirst {α : Type} : Keeping (keepFirst (α := α)) :=
  ⟨fun _ => rfl, fun _ _ _ => by simp [keepFirst]⟩

theorem keeping_map_keepFirst {α : Type} :
    Keeping fun (text : List Char) (answer : Option (List Char × α)) =>
      answer.map (keepFirst text) := by
  refine ⟨?_, ?_⟩
  · rintro (_ | ⟨head, last⟩) <;> simp [keepFirst]
  · rintro first second (_ | ⟨head, last⟩) <;> simp [keepFirst]

/-- A lexeme that is one plain character of a kind. -/
def Lexeme.IsPlain (kind : Char → Prop) : Lexeme → Prop
  | plain c _ => kind c
  | _ => False

/-! #### The splitter of lists -/

theorem splitItems_cons {c : Char} {code : Bool} {depth : Nat} {rest : List (Char × Bool)}
    (h : ¬ (code = true ∧ c = ',' ∧ depth = 0)) :
    splitItems depth ((c, code) :: rest)
      = keepFirst [c] (splitItems (if code then nest depth c else depth) rest) := by
  rw [splitItems, if_neg h]
  rfl

theorem splitItems_hidden (text : List Char) (depth : Nat) (rest : List (Char × Bool)) :
    splitItems depth (text.map (·, false) ++ rest) = keepFirst text (splitItems depth rest) := by
  induction text with
  | nil => exact (keeping_keepFirst.nil _).symm
  | cons c text ih =>
    rw [List.map_cons, List.cons_append, splitItems_cons (by simp), if_neg (by simp), ih,
      ← keeping_keepFirst.append]
    rfl

theorem splitItems_plain {c : Char} (hquote : isQuote c = false) {depth : Nat}
    (hcomma : depth = 0 → c ≠ ',') (rest : List (Char × Bool)) :
    splitItems depth ((Lexeme.plain c hquote).classified ++ rest)
      = keepFirst [c] (splitItems (nest depth c) rest) :=
  splitItems_cons fun h => hcomma h.2.2 h.2.1

/-- Outside brackets the splitter of lists passes over comments and all characters but commas. -/
theorem passing_splitItems :
    Passing (fun lexeme => lexeme.IsPlain (· ≠ ',') ∨ ∃ remark, lexeme = .comment remark)
      Lexeme.classified splitItems keepFirst where
  toKeeping := keeping_keepFirst
  passOutside := by
    rintro lexeme (hplain | ⟨remark, rfl⟩) rest
    · cases lexeme with
      | plain c hquote => exact splitItems_plain hquote (fun _ => hplain) rest
      | escaped c hordinary => exact hplain.elim
      | string literal => exact hplain.elim
      | comment remark => exact hplain.elim
    · exact splitItems_hidden (Lexeme.comment remark).text 0 rest
  passInside := by
    intro lexeme hinside depth rest
    cases lexeme with
    | plain c hquote => exact splitItems_plain hquote (fun h => absurd h (by simp)) rest
    | escaped c hordinary =>
      have hback : nest (depth + 1) '\\' = depth + 1 := rfl
      have hnest : nest (depth + 1) c = depth + 1 := nest_of_isOrdinary hordinary _
      simp only [Lexeme.classified, List.cons_append, List.nil_append]
      rw [splitItems_cons (by simp), if_pos rfl, hback, splitItems_cons (by simp), if_pos rfl,
        hnest, ← keeping_keepFirst.append]
      rfl
    | string literal => exact splitItems_hidden (Lexeme.string literal).text (depth + 1) rest
    | comment remark => exact hinside.elim

/-! #### The search for the last compound -/

/-- Outside brackets a backslash and a slash would be more than themselves. -/
theorem splitLast_code {c : Char} {depth : Nat} {rest : List Char} (hback : c ≠ '\\')
    (hslash : depth = 0 → c ≠ '/') (hcombinator : ¬ (depth = 0 ∧ isCombinator c = true)) :
    splitLast .code depth (c :: rest)
      = (splitLast (if isQuote c then .string c else .code) (nest depth c) rest).map
          (keepFirst [c]) := by
  rw [splitLast]
  · rw [if_neg hcombinator]
    rfl
  · rintro _ _ h
    exact absurd h hback
  · rintro _ hdepth h
    exact absurd h (hslash hdepth)

theorem splitLast_string (literal : StringLiteral) (depth : Nat) (rest : List Char) :
    splitLast (.string literal.quote) depth (literal.tail ++ rest)
      = (splitLast .code depth rest).map (keepFirst literal.tail) := by
  refine scan_string_tail (splitLast .code depth) keeping_map_keepFirst literal ?_ ?_ ?_ rest
  · intro c rest hc hback
    rw [splitLast, if_neg hc]
    · rfl
    · exact fun _ _ h => absurd h hback
  · intro c rest
    rw [splitLast]
    rfl
  · intro rest
    rw [splitLast, if_pos rfl]
    · rfl
    · exact fun _ _ h => absurd h literal.quote_ne_backslash

/-- Outside brackets the search passes over all characters that join nothing. -/
theorem passing_splitLast :
    Passing (Lexeme.IsPlain fun c => isCombinator c = false ∧ c ≠ '\\' ∧ c ≠ '/')
      Lexeme.text (splitLast .code) fun text answer => answer.map (keepFirst text) where
  toKeeping := keeping_map_keepFirst
  passOutside := by
    intro lexeme hplain rest
    cases lexeme with
    | plain c hquote =>
      obtain ⟨hcombinator, hback, hslash⟩ := hplain
      simp only [Lexeme.text, List.cons_append, List.nil_append]
      rw [splitLast_code hback (fun _ => hslash) (by simp [hcombinator]), hquote]
      rfl
    | escaped c hordinary => exact hplain.elim
    | string literal => exact hplain.elim
    | comment remark => exact hplain.elim
  passInside := by
    intro lexeme hinside depth rest
    cases lexeme with
    | plain c hquote =>
      simp only [Lexeme.text, List.cons_append, List.nil_append]
      rw [splitLast_code hinside.2 (fun h => absurd h (by simp)) (by simp), hquote]
      rfl
    | escaped c hordinary =>
      simp only [Lexeme.text, List.cons_append, List.nil_append]
      rw [splitLast]
      rfl
    | string literal =>
      have hquote := literal.isQuote_quote
      simp only [Lexeme.text, List.cons_append]
      rw [splitLast_code literal.quote_ne_backslash (fun h => absurd h (by simp)) (by simp),
        if_pos hquote, nest_of_isQuote hquote, splitLast_string, ← keeping_map_keepFirst.append]
      rfl
    | comment remark => exact hinside.elim

/-! #### The search for the first colon -/

theorem splitPseudo_code {c : Char} {depth : Nat} {rest : List Char} (hback : c ≠ '\\')
    (hcolon : ¬ (depth = 0 ∧ c = ':')) :
    splitPseudo .code depth (c :: rest)
      = keepFirst [c]
        (splitPseudo (if isQuote c then .string c else .code) (nest depth c) rest) := by
  rw [splitPseudo, if_neg hcolon]
  · rfl
  · exact fun _ _ h => absurd h hback

theorem splitPseudo_string (literal : StringLiteral) (depth : Nat) (rest : List Char) :
    splitPseudo (.string literal.quote) depth (literal.tail ++ rest)
      = keepFirst literal.tail (splitPseudo .code depth rest) := by
  refine scan_string_tail (splitPseudo .code depth) keeping_keepFirst literal ?_ ?_ ?_ rest
  · intro c rest hc hback
    rw [splitPseudo, if_neg hc]
    · rfl
    · exact fun _ _ h => absurd h hback
  · intro c rest
    rw [splitPseudo]
    rfl
  · intro rest
    rw [splitPseudo, if_pos rfl]
    · rfl
    · exact fun _ _ h => absurd h literal.quote_ne_backslash

/-- Outside brackets the search passes over all characters but colons. -/
theorem passing_splitPseudo :
    Passing (Lexeme.IsPlain fun c => c ≠ ':' ∧ c ≠ '\\')
      Lexeme.text (splitPseudo .code) keepFirst where
  toKeeping := keeping_keepFirst
  passOutside := by
    intro lexeme hplain rest
    cases lexeme with
    | plain c hquote =>
      simp only [Lexeme.text, List.cons_append, List.nil_append]
      rw [splitPseudo_code hplain.2 (by simp [hplain.1]), hquote]
      rfl
    | escaped c hordinary => exact hplain.elim
    | string literal => exact hplain.elim
    | comment remark => exact hplain.elim
  passInside := by
    intro lexeme hinside depth rest
    cases lexeme with
    | plain c hquote =>
      simp only [Lexeme.text, List.cons_append, List.nil_append]
      rw [splitPseudo_code hinside.2 (by simp), hquote]
      rfl
    | escaped c hordinary =>
      simp only [Lexeme.text, List.cons_append, List.nil_append]
      rw [splitPseudo]
      rfl
    | string literal =>
      have hquote := literal.isQuote_quote
      simp only [Lexeme.text, List.cons_append]
      rw [splitPseudo_code literal.quote_ne_backslash (by simp), if_pos hquote,
        nest_of_isQuote hquote, splitPseudo_string, ← keeping_keepFirst.append]
      rfl
    | comment remark => exact hinside.elim

end SiteTree.Stylesheet
