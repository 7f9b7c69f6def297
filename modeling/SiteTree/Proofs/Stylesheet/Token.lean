import SiteTree.Proofs.Stylesheet.Nesting
import SiteTree.Proofs.Text.Search

/-!
# Tokens of a stylesheet

Every text, well formed or not, is a row of tokens: characters of code, comments and strings. A
comment or a string that is left open takes all that follows, and can only be the last token.

* `classify_eq` — what is code in a text are its tokens of code.
* `text_tokens` — the tokens, put together again, are the text.
* `tokens_of_append` — a row that is cut between tokens is read as before on both sides.
* `tokens_append` — behind a character of code nothing that precedes is read in another way.
-/

namespace SiteTree.Stylesheet

/-! ### Ends of comments and strings -/

/-- The rest of an open comment, and what follows it. -/
def closeComment : List Char → List Char × List Char
  | [] => ([], [])
  | '*' :: '/' :: rest => (['*', '/'], rest)
  | c :: rest => keepFirst [c] (closeComment rest)

/-- The rest of a string that `quote` opened, and what follows it. -/
def closeString (quote : Char) : List Char → List Char × List Char
  | [] => ([], [])
  | '\\' :: c :: rest => keepFirst ['\\', c] (closeString quote rest)
  | c :: rest => if c = quote then ([c], rest) else keepFirst [c] (closeString quote rest)

theorem closeComment_char {c : Char} {rest : List Char} (h : c = '*' → rest.head? ≠ some '/') :
    closeComment (c :: rest) = keepFirst [c] (closeComment rest) := by
  rw [closeComment]
  rintro more rfl rfl
  exact h rfl rfl

theorem closeString_char {quote c : Char} {rest : List Char} (hc : c ≠ quote)
    (hback : c = '\\' → rest = []) :
    closeString quote (c :: rest) = keepFirst [c] (closeString quote rest) := by
  rw [closeString, if_neg hc]
  rintro d more rfl rfl
  exact absurd (hback rfl) (by simp)

/-- The search for the end of a comment passes over a character that does not begin it. -/
theorem splitFirst?_char {c : Char} {rest : List Char} (h : c = '*' → rest.head? ≠ some '/') :
    Text.splitFirst? ['*', '/'] (c :: rest)
      = (Text.splitFirst? ['*', '/'] rest).map (keepFirst [c]) := by
  have hafter : Text.after? ['*', '/'] (c :: rest) = none := by
    rw [← Option.not_isSome_iff_eq_none, Text.isSome_after?_iff]
    rintro ⟨more, hmore⟩
    cases hmore
    exact h rfl rfl
  rw [Text.splitFirst?, hafter]
  rfl

theorem closeComment_join (text : List Char) :
    (closeComment text).1 ++ (closeComment text).2 = text := by
  fun_induction closeComment text <;> simp_all [keepFirst]

theorem closeString_join (quote : Char) (text : List Char) :
    (closeString quote text).1 ++ (closeString quote text).2 = text := by
  fun_induction closeString quote text <;> simp_all [keepFirst]

/-- A comment is closed where `*/` is found. -/
theorem closeComment_eq (text : List Char) :
    closeComment text = match Text.splitFirst? ['*', '/'] text with
      | some (inside, behind) => (inside ++ ['*', '/'], behind)
      | none => (text, []) := by
  fun_induction closeComment text with
  | case1 => rfl
  | case2 rest => rfl
  | case3 c rest hnot ih =>
    have hchar : c = '*' → rest.head? ≠ some '/' := by
      rintro rfl hslash
      obtain ⟨more, rfl⟩ := List.head?_eq_some_iff.mp hslash
      exact hnot more rfl rfl
    rw [ih, splitFirst?_char hchar]
    cases Text.splitFirst? ['*', '/'] rest with
    | none => rfl
    | some found => rfl

theorem length_closeComment_le (text : List Char) :
    (closeComment text).2.length ≤ text.length := by
  have := congrArg List.length (closeComment_join text)
  rw [List.length_append] at this
  omega

theorem length_closeString_le (quote : Char) (text : List Char) :
    (closeString quote text).2.length ≤ text.length := by
  have := congrArg List.length (closeString_join quote text)
  rw [List.length_append] at this
  omega

section Scans

variable {β : Type} (scan after : List Char → β) {keep : List Char → β → β}

/-- A scan that reads a comment to its end keeps what the comment takes up. -/
theorem scan_comment (hkeep : Keeping keep) (hend : scan [] = after [])
    (hchar : ∀ c rest, (c = '*' → rest.head? ≠ some '/') → scan (c :: rest) = keep [c] (scan rest))
    (hclose : ∀ rest, scan ('*' :: '/' :: rest) = keep ['*', '/'] (after rest))
    (text : List Char) :
    scan text = keep (closeComment text).1 (after (closeComment text).2) := by
  fun_induction closeComment text with
  | case1 => rw [hkeep.nil, hend]
  | case2 rest => exact hclose rest
  | case3 c rest hnot ih =>
    rw [hchar, ih, keepFirst, hkeep.append]
    rintro rfl hslash
    obtain ⟨more, rfl⟩ := List.head?_eq_some_iff.mp hslash
    exact hnot more rfl rfl

/-- A scan that reads a string to its end keeps what the string takes up. -/
theorem scan_string {quote : Char} (hkeep : Keeping keep) (hend : scan [] = after [])
    (hescaped : ∀ c rest, scan ('\\' :: c :: rest) = keep ['\\', c] (scan rest))
    (hquote : ∀ rest, quote ≠ '\\' → scan (quote :: rest) = keep [quote] (after rest))
    (hchar : ∀ c rest, c ≠ quote → (c = '\\' → rest = []) →
      scan (c :: rest) = keep [c] (scan rest))
    (hopening : isQuote quote = true) (text : List Char) :
    scan text = keep (closeString quote text).1 (after (closeString quote text).2) := by
  have hne : quote ≠ '\\' := by
    rintro rfl
    exact absurd hopening (by decide)
  fun_induction closeString quote text with
  | case1 => rw [hkeep.nil, hend]
  | case2 c rest ih => rw [hescaped, ih, keepFirst, hkeep.append]
  | case3 rest hnot => exact hquote rest hne
  | case4 c rest hnot hc ih =>
    rw [hchar c rest hc, ih, keepFirst, hkeep.append]
    rintro rfl
    cases rest with
    | nil => rfl
    | cons d rest => exact absurd rfl (hnot d rest rfl)

end Scans

theorem ne_of_isQuote {c d : Char} (h : isQuote c = true) (hd : isQuote d = false) : c ≠ d := by
  rintro rfl
  exact absurd h (by simp [hd])

theorem classify_comment (rest : List Char) :
    classify ('/' :: '*' :: rest)
      = (['/', '*'] ++ (closeComment rest).1).map (·, false) ++ classify (closeComment rest).2 := by
  have hscan := scan_comment Place.comment.classify Place.code.classify keeping_classified rfl
    ?_ ?_ rest
  · rw [classify, Place.classify, hscan]
    rfl
  · intro c rest hslash
    rw [Place.classify]
    · rfl
    · rintro _ rfl rfl
      exact hslash rfl rfl
  · intro rest
    rw [Place.classify]
    rfl

theorem classify_string {quote : Char} (hquote : isQuote quote = true) (rest : List Char) :
    classify (quote :: rest)
      = (quote :: (closeString quote rest).1).map (·, false)
        ++ classify (closeString quote rest).2 := by
  have hscan := scan_string (Place.string quote).classify Place.code.classify keeping_classified
    rfl ?_ ?_ ?_ hquote rest
  · have hslash : quote ≠ '/' := by
      rintro rfl
      exact absurd hquote (by decide)
    rw [classify, Place.classify, if_pos hquote, hscan]
    · rfl
    · exact fun _ h => absurd h hslash
  · intro c rest
    rw [Place.classify]
    rfl
  · intro rest hne
    rw [Place.classify, if_pos rfl]
    · rfl
    · exact fun _ _ h => absurd h hne
  · intro c rest hc hback
    rw [Place.classify, if_neg hc]
    · rfl
    · rintro d more rfl rfl
      exact absurd (hback rfl) (by simp)

/-! ### Tokens -/

/-- A character of code, or a whole comment or string with what opens and closes it. -/
inductive Token where
  | code (c : Char)
  | comment (text : List Char)
  | string (text : List Char)
  deriving DecidableEq, Repr

namespace Token

def text : Token → List Char
  | code c => [c]
  | comment text => text
  | string text => text

/-- The characters of a token, each with whether it is code. -/
def classified : Token → List (Char × Bool)
  | code c => [(c, true)]
  | comment text => text.map (·, false)
  | string text => text.map (·, false)

theorem map_fst_classified (token : Token) : token.classified.map Prod.fst = token.text := by
  cases token <;> simp [classified, text, Function.comp_def]

end Token

/-- What is left of the token that a scan stands in, and the tokens behind it. -/
def Place.read : Place → List Char → List Char × List Token
  | _, [] => ([], [])
  | .code, '/' :: '*' :: rest =>
    let (inside, tokens) := Place.comment.read rest
    ([], .comment ('/' :: '*' :: inside) :: tokens)
  | .code, c :: rest =>
    if isQuote c then
      let (inside, tokens) := (Place.string c).read rest
      ([], .string (c :: inside) :: tokens)
    else ([], .code c :: (Place.code.read rest).2)
  | .comment, '*' :: '/' :: rest => (['*', '/'], (Place.code.read rest).2)
  | .comment, c :: rest => keepFirst [c] (Place.comment.read rest)
  | .string quote, '\\' :: c :: rest => keepFirst ['\\', c] ((Place.string quote).read rest)
  | .string quote, c :: rest =>
    if c = quote then ([c], (Place.code.read rest).2)
    else keepFirst [c] ((Place.string quote).read rest)

/-- The tokens of a text. -/
def tokens (text : List Char) : List Token :=
  (Place.code.read text).2

def tokensText (row : List Token) : List Char :=
  row.flatMap Token.text

@[simp] theorem tokensText_nil : tokensText [] = [] := rfl

@[simp] theorem tokensText_cons (token : Token) (row : List Token) :
    tokensText (token :: row) = token.text ++ tokensText row := by
  simp [tokensText]

@[simp] theorem tokensText_append (first second : List Token) :
    tokensText (first ++ second) = tokensText first ++ tokensText second := by
  simp [tokensText]

theorem tokens_nil : tokens [] = [] := rfl

theorem tokens_comment (rest : List Char) :
    tokens ('/' :: '*' :: rest)
      = .comment ('/' :: '*' :: (closeComment rest).1) :: tokens (closeComment rest).2 := by
  have hscan := scan_comment Place.comment.read (fun rest => ([], tokens rest)) keeping_keepFirst
    rfl ?_ ?_ rest
  · rw [tokens, Place.read, hscan]
    simp [keepFirst]
  · intro c rest hslash
    rw [Place.read]
    rintro _ rfl rfl
    exact hslash rfl rfl
  · intro rest
    rw [Place.read]
    rfl

theorem tokens_string {quote : Char} (hquote : isQuote quote = true) (rest : List Char) :
    tokens (quote :: rest)
      = .string (quote :: (closeString quote rest).1) :: tokens (closeString quote rest).2 := by
  have hscan := scan_string (Place.string quote).read (fun rest => ([], tokens rest))
    keeping_keepFirst rfl ?_ ?_ ?_ hquote rest
  · have hslash : quote ≠ '/' := by
      rintro rfl
      exact absurd hquote (by decide)
    rw [tokens, Place.read, if_pos hquote, hscan]
    · simp [keepFirst]
    · exact fun _ h => absurd h hslash
  · intro c rest
    rw [Place.read]
  · intro rest hne
    rw [Place.read, if_pos rfl]
    · rfl
    · exact fun _ _ h => absurd h hne
  · intro c rest hc hback
    rw [Place.read, if_neg hc]
    rintro d more rfl rfl
    exact absurd (hback rfl) (by simp)

theorem tokens_code {c : Char} {rest : List Char} (hquote : isQuote c = false)
    (hstar : c = '/' → rest.head? ≠ some '*') : tokens (c :: rest) = .code c :: tokens rest := by
  rw [tokens, Place.read]
  · rw [if_neg (by simp [hquote])]
    rfl
  · rintro _ rfl rfl
    exact hstar rfl rfl

/-- A text is read token by token. -/
theorem text_induction {motive : List Char → Prop} (nil : motive [])
    (comment : ∀ rest, motive (closeComment rest).2 → motive ('/' :: '*' :: rest))
    (string : ∀ quote rest, isQuote quote = true → motive (closeString quote rest).2 →
      motive (quote :: rest))
    (code : ∀ c rest, isQuote c = false → (c = '/' → rest.head? ≠ some '*') → motive rest →
      motive (c :: rest))
    (text : List Char) : motive text := by
  induction hn : text.length using Nat.strong_induction_on generalizing text with
  | _ n ih =>
    subst hn
    match text with
    | [] => exact nil
    | c :: rest =>
      cases hquote : isQuote c with
      | true =>
        refine string c rest hquote (ih _ ?_ _ rfl)
        exact Nat.lt_succ_of_le (length_closeString_le c rest)
      | false =>
        by_cases hstar : c = '/' → rest.head? ≠ some '*'
        · exact code c rest hquote hstar (ih _ (Nat.lt_succ_self _) _ rfl)
        · obtain ⟨rfl, hhead⟩ := Classical.not_imp.mp hstar
          obtain ⟨more, rfl⟩ := List.head?_eq_some_iff.mp (Classical.not_not.mp hhead)
          refine comment more (ih _ ?_ _ rfl)
          have := length_closeComment_le more
          simp only [List.length_cons]
          omega

/-- What is code in a text are its tokens of code. -/
theorem classify_eq (text : List Char) : classify text = (tokens text).flatMap Token.classified := by
  induction text using text_induction with
  | nil => rfl
  | comment rest ih =>
    rw [classify_comment, tokens_comment, ih]
    rfl
  | string quote rest hquote ih =>
    rw [classify_string hquote, tokens_string hquote, ih]
    rfl
  | code c rest hquote hstar ih =>
    rw [classify, classify_code_cons hquote hstar, tokens_code hquote hstar, ← classify, ih]
    rfl

theorem map_fst_flatMap_classified (row : List Token) :
    (row.flatMap Token.classified).map Prod.fst = tokensText row := by
  induction row with
  | nil => rfl
  | cons token row ih => rw [List.flatMap_cons, List.map_append, ih, token.map_fst_classified,
      tokensText_cons]

theorem text_tokens (text : List Char) : tokensText (tokens text) = text := by
  rw [← map_fst_flatMap_classified, ← classify_eq, classify, map_fst_classify]

/-! ### Cutting between tokens -/

/-- A comment is closed in the same place when what follows is cut off somewhere. -/
theorem closeComment_cut {text front back : List Char} (h : (closeComment text).2 = front ++ back) :
    closeComment ((closeComment text).1 ++ front) = ((closeComment text).1, front) := by
  fun_induction closeComment text with
  | case1 =>
    obtain ⟨rfl, -⟩ := List.append_eq_nil_iff.mp h.symm
    rfl
  | case2 rest => rfl
  | case3 c rest hnot ih =>
    rw [keepFirst] at h ⊢
    rw [List.append_assoc, List.singleton_append, closeComment, ih h]
    · rfl
    · rintro more rfl hmore
      -- What is left in front of the cut begins as the whole rest did.
      have hrest := closeComment_join rest
      rw [h, ← List.append_assoc, hmore] at hrest
      exact hnot _ rfl hrest.symm

theorem closeString_cut {quote : Char} {text front back : List Char}
    (h : (closeString quote text).2 = front ++ back) :
    closeString quote ((closeString quote text).1 ++ front)
      = ((closeString quote text).1, front) := by
  fun_induction closeString quote text with
  | case1 =>
    obtain ⟨rfl, -⟩ := List.append_eq_nil_iff.mp h.symm
    rfl
  | case2 c rest ih =>
    rw [keepFirst] at h ⊢
    rw [List.append_assoc, List.cons_append, List.singleton_append, closeString, ih h]
    rfl
  | case3 rest hnot =>
    rw [List.singleton_append, closeString, if_pos rfl]
    rintro d more rfl rfl
    simp only at h
    exact hnot d (more ++ back) rfl h
  | case4 c rest hnot hc ih =>
    rw [keepFirst] at h ⊢
    rw [List.append_assoc, List.singleton_append, closeString, if_neg hc, ih h]
    · rfl
    · rintro d more rfl hmore
      have hrest := closeString_join quote rest
      rw [h, ← List.append_assoc, hmore] at hrest
      exact hnot d _ rfl hrest.symm

theorem text_of_append {text : List Char} {first second : List Token}
    (h : tokens text = first ++ second) : text = tokensText first ++ tokensText second := by
  rw [← tokensText_append, ← h, text_tokens]

/-- A row of tokens that is cut in two is read as before on both sides. -/
theorem tokens_of_append {text : List Char} {first second : List Token}
    (h : tokens text = first ++ second) :
    tokens (tokensText first) = first ∧ tokens (tokensText second) = second := by
  induction text using text_induction generalizing first with
  | nil =>
    obtain ⟨rfl, rfl⟩ := List.append_eq_nil_iff.mp h.symm
    exact ⟨rfl, rfl⟩
  | comment rest ih =>
    rw [tokens_comment] at h
    rcases List.cons_eq_append_iff.mp h with ⟨rfl, rfl⟩ | ⟨front, rfl, hrest⟩
    · rw [← tokens_comment, text_tokens]
      exact ⟨rfl, rfl⟩
    · obtain ⟨hfront, hsecond⟩ := ih hrest
      refine ⟨?_, hsecond⟩
      rw [tokensText_cons, Token.text, List.cons_append, List.cons_append, tokens_comment,
        closeComment_cut (text_of_append hrest), hfront]
  | string quote rest hquote ih =>
    rw [tokens_string hquote] at h
    rcases List.cons_eq_append_iff.mp h with ⟨rfl, rfl⟩ | ⟨front, rfl, hrest⟩
    · rw [← tokens_string hquote, text_tokens]
      exact ⟨rfl, rfl⟩
    · obtain ⟨hfront, hsecond⟩ := ih hrest
      refine ⟨?_, hsecond⟩
      rw [tokensText_cons, Token.text, List.cons_append, tokens_string hquote,
        closeString_cut (text_of_append hrest), hfront]
  | code c rest hquote hstar ih =>
    rw [tokens_code hquote hstar] at h
    rcases List.cons_eq_append_iff.mp h with ⟨rfl, rfl⟩ | ⟨front, rfl, hrest⟩
    · rw [← tokens_code hquote hstar, text_tokens]
      exact ⟨rfl, rfl⟩
    · obtain ⟨hfront, hsecond⟩ := ih hrest
      refine ⟨?_, hsecond⟩
      rw [tokensText_cons, Token.text, List.singleton_append, tokens_code hquote, hfront]
      intro hslash hhead
      refine hstar hslash ?_
      rw [text_of_append hrest, List.head?_append, hhead]
      rfl

/-! ### Joining behind code -/

theorem closeComment_append {text : List Char} (h : (closeComment text).2 ≠ []) (more : List Char) :
    closeComment (text ++ more) = ((closeComment text).1, (closeComment text).2 ++ more) := by
  fun_induction closeComment text with
  | case1 => exact absurd rfl h
  | case2 rest => rfl
  | case3 c rest hnot ih =>
    rw [keepFirst] at h ⊢
    rw [List.cons_append, closeComment, ih h]
    · rfl
    · rintro after rfl hafter
      -- Only behind the end of the text could the slash be new; but something follows there.
      cases rest with
      | nil => exact absurd rfl h
      | cons d rest =>
        obtain ⟨rfl, -⟩ := List.cons.inj hafter
        exact hnot rest rfl rfl

theorem closeString_append {quote : Char} {text : List Char} (h : (closeString quote text).2 ≠ [])
    (more : List Char) :
    closeString quote (text ++ more)
      = ((closeString quote text).1, (closeString quote text).2 ++ more) := by
  fun_induction closeString quote text with
  | case1 => exact absurd rfl h
  | case2 c rest ih =>
    rw [keepFirst] at h ⊢
    rw [List.cons_append, List.cons_append, closeString, ih h]
    rfl
  | case3 rest hnot =>
    rw [List.cons_append, closeString, if_pos rfl]
    rintro d after rfl hafter
    cases rest with
    | nil => exact absurd rfl h
    | cons e rest => exact hnot e rest rfl rfl
  | case4 c rest hnot hc ih =>
    rw [keepFirst] at h ⊢
    rw [List.cons_append, closeString, if_neg hc, ih h]
    · rfl
    · rintro d after rfl hafter
      cases rest with
      | nil => exact absurd rfl h
      | cons e rest => exact hnot e rest rfl rfl

/-- Does a row of tokens end in a character of code that can open no comment, if it has an end? -/
def EndsInCode (row : List Token) : Prop :=
  ∀ token ∈ row.getLast?, ∃ c, token = .code c ∧ c ≠ '/'

theorem EndsInCode.of_cons {token : Token} {row : List Token} (h : EndsInCode (token :: row)) :
    EndsInCode row := by
  intro last hlast
  cases row with
  | nil => simp at hlast
  | cons next row => exact h last (by rwa [List.getLast?_cons_cons])

theorem EndsInCode.tail_ne_nil {token : Token} {row : List Token}
    (h : EndsInCode (token :: row)) (htoken : ∀ c, token ≠ .code c) : row ≠ [] := by
  rintro rfl
  obtain ⟨c, hc, -⟩ := h token rfl
  exact htoken c hc

theorem tokens_ne_nil {text : List Char} (h : tokens text ≠ []) : text ≠ [] := by
  rintro rfl
  exact h rfl

/-- Behind a character of code that can open no comment, the scan begins anew. -/
theorem tokens_append {text : List Char} (h : EndsInCode (tokens text)) (more : List Char) :
    tokens (text ++ more) = tokens text ++ tokens more := by
  induction text using text_induction with
  | nil => rfl
  | comment rest ih =>
    rw [tokens_comment] at h
    have hrest := tokens_ne_nil (h.tail_ne_nil fun c => Token.noConfusion)
    rw [List.cons_append, List.cons_append, tokens_comment, closeComment_append hrest,
      ih h.of_cons, tokens_comment]
    rfl
  | string quote rest hquote ih =>
    rw [tokens_string hquote] at h
    have hrest := tokens_ne_nil (h.tail_ne_nil fun c => Token.noConfusion)
    rw [List.cons_append, tokens_string hquote, closeString_append hrest, ih h.of_cons,
      tokens_string hquote]
    rfl
  | code c rest hquote hstar ih =>
    rw [tokens_code hquote hstar] at h
    rw [List.cons_append, tokens_code hquote, ih h.of_cons, tokens_code hquote hstar]
    · rfl
    · rintro rfl
      cases rest with
      | nil =>
        obtain ⟨d, hd, hslash⟩ := h _ rfl
        cases hd
        exact absurd rfl hslash
      | cons d rest => exact hstar rfl

end SiteTree.Stylesheet
