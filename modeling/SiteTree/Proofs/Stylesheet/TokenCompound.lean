import SiteTree.Proofs.Stylesheet.Compound
import SiteTree.Proofs.Stylesheet.Gap

/-!
# Compounds between tokens

The scan of a selector knows escapes, and takes comments between brackets for code. Where that makes no
difference it finds the last compound and its first colon between tokens.

* `splitLast_tokens`, `splitPseudo_tokens` — the two searches, and those on tokens that they agree with.
* `lastTokens_spec` — what the last compound is.
-/

namespace SiteTree.Stylesheet

/-! ### Compounds between tokens -/

/-- The bracket depth behind a token. -/
def Token.nest (depth : Nat) : Token → Nat
  | code c => Stylesheet.nest depth c
  | comment _ => depth
  | string _ => depth

/-- Does a compound end at the token, when it stands outside brackets? -/
def Token.endsCompound : Token → Bool
  | code c => isCombinator c
  | comment _ => true
  | string _ => false

/-- Splits a row behind its last combinator or comment outside brackets; `none` when it has neither.
A backslash hides the character of code that follows it. -/
def splitCompound : Nat → List Token → Option (List Token × List Token)
  | _, [] => none
  | depth, .code '\\' :: .code c :: row =>
    (splitCompound depth row).map (Prod.map ([.code '\\', .code c] ++ ·) id)
  | depth, token :: row =>
    if depth = 0 ∧ token.endsCompound then
      some (Prod.map (token :: ·) id ((splitCompound 0 row).getD ([], row)))
    else (splitCompound (token.nest depth) row).map (Prod.map (token :: ·) id)

/-- What stands before the last compound of a row, and that compound. -/
def lastTokens (row : List Token) : List Token × List Token :=
  (splitCompound 0 row).getD ([], row)

/-- Splits a row before its first colon outside brackets. -/
def splitColon : Nat → List Token → List Token × List Token
  | _, [] => ([], [])
  | depth, .code '\\' :: .code c :: row =>
    Prod.map ([.code '\\', .code c] ++ ·) id (splitColon depth row)
  | depth, token :: row =>
    if depth = 0 ∧ token = .code ':' then ([], token :: row)
    else Prod.map (token :: ·) id (splitColon (token.nest depth) row)

/-- Does a comment between brackets hold nothing that counts there? -/
def Token.isIdle : Token → Bool
  | comment text => text.all fun c => !isQuote c && !(['(', ')', '[', ']'].contains c)
  | _ => true

/-- Is a row read within a selector as it is read within a stylesheet? A backslash stands before a
character of code or at the end, and comments between brackets hold no bracket and no quote. -/
def isPlain : Nat → List Token → Bool
  | _, [] => true
  | depth, .code '\\' :: .code _ :: row => isPlain depth row
  | depth, token :: row =>
    (token != .code '\\' || row.isEmpty) && (depth == 0 || token.isIdle)
      && isPlain (token.nest depth) row

section Cons

variable {token : Token} {row : List Token}
  (h : ∀ c rest, token = .code '\\' → row ≠ .code c :: rest) (depth : Nat)

include h

theorem splitCompound_cons :
    splitCompound depth (token :: row)
      = if depth = 0 ∧ token.endsCompound then some (Prod.map (token :: ·) id (lastTokens row))
        else (splitCompound (token.nest depth) row).map (Prod.map (token :: ·) id) := by
  rw [splitCompound]
  · rfl
  · rintro c rest rfl rfl
    exact h c rest rfl rfl

theorem splitColon_cons :
    splitColon depth (token :: row)
      = if depth = 0 ∧ token = .code ':' then ([], token :: row)
        else Prod.map (token :: ·) id (splitColon (token.nest depth) row) := by
  rw [splitColon]
  rintro c rest rfl rfl
  exact h c rest rfl rfl

theorem isPlain_cons :
    isPlain depth (token :: row) = true ↔ (token = .code '\\' → row = []) ∧
      (depth ≠ 0 → token.isIdle = true) ∧ isPlain (token.nest depth) row = true := by
  rw [isPlain]
  · simp [Decidable.imp_iff_not_or, and_assoc]
  · rintro c rest rfl rfl
    exact h c rest rfl rfl

end Cons

theorem exists_code_of_tokens {text : List Char} {c : Char} {row : List Token}
    (h : tokens text = .code c :: row) :
    ∃ rest, text = c :: rest ∧ isQuote c = false ∧ (c = '/' → rest.head? ≠ some '*') ∧
      tokens rest = row := by
  cases text using text_induction with
  | nil => exact absurd h (by simp [tokens_nil])
  | comment rest _ =>
    rw [tokens_comment] at h
    exact Token.noConfusion (List.cons.inj h).1
  | string quote rest hquote _ =>
    rw [tokens_string hquote] at h
    exact Token.noConfusion (List.cons.inj h).1
  | code d rest hquote hstar _ =>
    rw [tokens_code hquote hstar] at h
    obtain ⟨hcode, hrow⟩ := List.cons.inj h
    cases hcode
    exact ⟨rest, rfl, hquote, hstar, hrow⟩

/-- A text is read token by token, a backslash together with the character of code behind it. -/
theorem pair_induction {motive : List Char → Prop} (nil : motive [])
    (comment : ∀ rest, motive (closeComment rest).2 → motive ('/' :: '*' :: rest))
    (string : ∀ quote rest, isQuote quote = true → motive (closeString quote rest).2 →
      motive (quote :: rest))
    (escaped : ∀ c rest, isQuote c = false → (c = '/' → rest.head? ≠ some '*') → motive rest →
      motive ('\\' :: c :: rest))
    (code : ∀ c rest, isQuote c = false → (c = '/' → rest.head? ≠ some '*') →
      (∀ d more, c = '\\' → tokens rest ≠ .code d :: more) → motive rest → motive (c :: rest))
    (text : List Char) : motive text := by
  -- A pair is two characters of code, so what follows the first of them is to be at hand.
  have hboth : motive text ∧ ∀ c row, tokens text = .code c :: row → motive text.tail := by
    induction text using text_induction with
    | nil => exact ⟨nil, fun c row h => absurd h (by simp [tokens_nil])⟩
    | comment rest ih =>
      refine ⟨comment rest ih.1, fun c row h => ?_⟩
      rw [tokens_comment] at h
      exact Token.noConfusion (List.cons.inj h).1
    | string quote rest hquote ih =>
      refine ⟨string quote rest hquote ih.1, fun c row h => ?_⟩
      rw [tokens_string hquote] at h
      exact Token.noConfusion (List.cons.inj h).1
    | code c rest hquote hstar ih =>
      refine ⟨?_, fun _ _ _ => ih.1⟩
      by_cases hpair : ∀ d more, c = '\\' → tokens rest ≠ .code d :: more
      · exact code c rest hquote hstar hpair ih.1
      · simp only [Classical.not_imp, not_forall, Classical.not_not] at hpair
        obtain ⟨d, more, rfl, hmore⟩ := hpair
        obtain ⟨behind, rfl, hd, hdstar, -⟩ := exists_code_of_tokens hmore
        exact escaped d behind hd hdstar (ih.2 d more hmore)
  exact hboth.1

/-! ### The scans of a selector on tokens -/

/-- A scan that counts brackets passes over a comment that it takes for code, when nothing in the
comment counts. -/
theorem scan_idle {β : Type} (scan : List Char → β) {keep : List Char → β → β} (hkeep : Keeping keep)
    (Idle : Char → Prop)
    (hescaped : ∀ c rest, scan ('\\' :: c :: rest) = keep ['\\', c] (scan rest))
    (hchar : ∀ c rest, Idle c → c ≠ '\\' → scan (c :: rest) = keep [c] (scan rest))
    (hstar : Idle '*') (hslash : Idle '/') {content : List Char} (h : ∀ c ∈ content, Idle c)
    (rest : List Char) :
    scan (content ++ ['*', '/'] ++ rest) = keep (content ++ ['*', '/']) (scan rest) := by
  induction hn : content.length using Nat.strong_induction_on generalizing content with
  | _ n ih =>
    subst hn
    match content with
    | [] =>
      rw [List.nil_append, List.cons_append, List.singleton_append, hchar _ _ hstar (by decide),
        hchar _ _ hslash (by decide), ← hkeep.append]
      rfl
    | [c] =>
      by_cases hc : c = '\\'
      · subst hc
        simp only [List.cons_append, List.nil_append]
        rw [hescaped, hchar _ _ hslash (by decide), ← hkeep.append]
        rfl
      · simp only [List.cons_append, List.nil_append]
        rw [hchar _ _ (h c (by simp)) hc, hchar _ _ hstar (by decide), hchar _ _ hslash (by decide),
          ← hkeep.append, ← hkeep.append]
        rfl
    | c :: d :: content =>
      by_cases hc : c = '\\'
      · subst hc
        have hlength : content.length < ('\\' :: d :: content).length := by
          simp only [List.length_cons]
          omega
        have hrest := ih content.length hlength (fun e he => h e (by simp [he])) rfl
        simp only [List.cons_append] at hrest ⊢
        rw [hescaped, hrest, ← hkeep.append]
        rfl
      · have hrest := ih (d :: content).length (by simp) (fun e he => h e (by simp_all)) rfl
        rw [List.cons_append, List.cons_append, hchar _ _ (h c (by simp)) hc, hrest, ← hkeep.append]
        rfl

theorem nest_of_idle {c : Char} (h : c ∉ ['(', ')', '[', ']']) (depth : Nat) :
    nest depth c = depth := by
  simp only [List.mem_cons, List.not_mem_nil, or_false, not_or] at h
  simp [nest, h]

theorem isIdle_comment {text : List Char} (h : (Token.comment text).isIdle = true) :
    ∀ c ∈ text, isQuote c = false ∧ c ∉ ['(', ')', '[', ']'] := by
  intro c hc
  have hall := List.all_eq_true.mp h c hc
  simpa using hall

theorem splitLast_idle {text : List Char} (hclosed : (Token.comment text).IsClosed)
    (hidle : (Token.comment text).isIdle = true) (depth : Nat) (rest : List Char) :
    splitLast .code (depth + 1) (text ++ rest)
      = (splitLast .code (depth + 1) rest).map (keepFirst text) := by
  obtain ⟨content, rfl⟩ := hclosed
  have hcontent : ∀ c ∈ '/' :: '*' :: content, isQuote c = false ∧ c ∉ ['(', ')', '[', ']'] :=
    fun c hc => isIdle_comment hidle c (List.mem_append_left ['*', '/'] hc)
  have hscan := scan_idle (splitLast .code (depth + 1)) keeping_map_keepFirst _
    (splitLast_escaped (depth + 1)) ?_ (by decide) (by decide) hcontent rest
  · simpa using hscan
  · rintro c rest ⟨hquote, hbracket⟩ hback
    rw [splitLast_char (fun h => absurd h hback) (by simp) (by simp), hquote, nest_of_idle hbracket]
    rfl

theorem text_keepTokens (front : List Token) (cut : List Token × List Token) :
    Prod.map tokensText tokensText (Prod.map (front ++ ·) id cut)
      = keepFirst (tokensText front) (Prod.map tokensText tokensText cut) := by
  obtain ⟨head, last⟩ := cut
  simp [keepFirst]

theorem map_text_keepTokens (front : List Token) (cut : Option (List Token × List Token)) :
    (cut.map (Prod.map (front ++ ·) id)).map (Prod.map tokensText tokensText)
      = (cut.map (Prod.map tokensText tokensText)).map (keepFirst (tokensText front)) := by
  cases cut with
  | none => rfl
  | some cut => exact congrArg some (text_keepTokens front cut)

/-- Where the search for the last compound agrees with that on tokens, so do the compounds found. -/
theorem lastCompound_tokens {text : List Char}
    (h : splitLast .code 0 text
      = (splitCompound 0 (tokens text)).map (Prod.map tokensText tokensText)) :
    lastCompound text = Prod.map tokensText tokensText (lastTokens (tokens text)) := by
  rw [lastCompound, lastTokens, h]
  cases splitCompound 0 (tokens text) with
  | none => simp [text_tokens]
  | some cut => rfl

/-- The search for the last compound finds it between tokens. -/
theorem splitLast_tokens {text : List Char} (hclosed : ∀ token ∈ tokens text, token.IsClosed)
    {depth : Nat} (hplain : isPlain depth (tokens text) = true) :
    splitLast .code depth text
      = (splitCompound depth (tokens text)).map (Prod.map tokensText tokensText) := by
  induction text using pair_induction generalizing depth with
  | nil => rfl
  | comment rest ih =>
    rw [tokens_comment] at hclosed hplain ⊢
    have hrest := fun token htoken => hclosed token (List.mem_cons_of_mem _ htoken)
    obtain ⟨-, hidle, hplain⟩ := (isPlain_cons (by simp) depth).mp hplain
    rw [splitCompound_cons (by simp)]
    rw [Token.nest] at hplain ⊢
    cases depth with
    | zero =>
      rw [if_pos ⟨rfl, rfl⟩, splitLast_comment, lastCompound_tokens (ih hrest hplain)]
      exact congrArg some (Eq.trans (by simp [Token.text]) (text_keepTokens [_] _).symm)
    | succ depth =>
      have hjoin := closeComment_join rest
      have hpass := splitLast_idle (hclosed _ List.mem_cons_self) (hidle (by simp)) depth
        (closeComment rest).2
      rw [List.cons_append, List.cons_append, hjoin] at hpass
      rw [if_neg (by simp), hpass, ih hrest hplain]
      exact Eq.trans (by simp [Token.text]) (map_text_keepTokens [_] _).symm
  | string quote rest hquote ih =>
    rw [tokens_string hquote] at hclosed hplain ⊢
    have hrest := fun token htoken => hclosed token (List.mem_cons_of_mem _ htoken)
    obtain ⟨-, -, hplain⟩ := (isPlain_cons (by simp) depth).mp hplain
    rw [Token.nest] at hplain
    rw [splitCompound_cons (by simp), Token.nest, if_neg (by simp [Token.endsCompound]),
      splitLast_quote hquote, ih hrest hplain]
    exact Eq.trans (by simp [Token.text]) (map_text_keepTokens [_] _).symm
  | escaped c rest hquote hstar ih =>
    rw [tokens_code (by decide) (by simp), tokens_code hquote hstar] at hclosed hplain ⊢
    have hrest := fun token htoken =>
      hclosed token (List.mem_cons_of_mem _ (List.mem_cons_of_mem _ htoken))
    rw [splitCompound, splitLast_escaped, ih hrest hplain]
    exact Eq.trans (by simp [Token.text]) (map_text_keepTokens [.code '\\', .code c] _).symm
  | code c rest hquote hstar hpair ih =>
    rw [tokens_code hquote hstar] at hclosed hplain ⊢
    have hrest := fun token htoken => hclosed token (List.mem_cons_of_mem _ htoken)
    have hcons : ∀ d more, Token.code c = .code '\\' → tokens rest ≠ .code d :: more :=
      fun d more hc => hpair d more (Token.code.inj hc)
    obtain ⟨hback, -, hplain⟩ := (isPlain_cons hcons depth).mp hplain
    rw [splitCompound_cons hcons]
    rw [Token.nest] at hplain ⊢
    by_cases hcombinator : depth = 0 ∧ isCombinator c = true
    · obtain ⟨rfl, hc⟩ := hcombinator
      rw [nest_of_isCombinator hc] at hplain
      rw [if_pos ⟨rfl, hc⟩, splitLast_combinator hc, lastCompound_tokens (ih hrest hplain)]
      exact congrArg some (Eq.trans (by simp [Token.text]) (text_keepTokens [_] _).symm)
    · have hend : c = '\\' → rest = [] := by
        rintro rfl
        rw [← text_tokens rest, hback rfl]
        rfl
      rw [Token.endsCompound, if_neg hcombinator, splitLast_char hend (fun _ => hstar) hcombinator,
        if_neg (by simp [hquote]), ih hrest hplain]
      exact Eq.trans (by simp [Token.text]) (map_text_keepTokens [.code c] _).symm

/-! #### The last compound itself -/

theorem Token.nest_of_endsCompound {token : Token} (h : token.endsCompound = true) (depth : Nat) :
    token.nest depth = depth := by
  cases token with
  | code c => exact nest_of_isCombinator h depth
  | comment text => rfl
  | string text => rfl

/-- The last compound is the end of its row, and there is neither a combinator nor a comment in it. -/
theorem splitCompound_spec {depth : Nat} {row head last : List Token}
    (h : splitCompound depth row = some (head, last)) :
    head ++ last = row ∧ splitCompound 0 last = none ∧
      (isPlain depth row = true → isPlain 0 last = true) := by
  fun_induction splitCompound depth row generalizing head last with
  | case1 => exact absurd h (by simp)
  | case2 depth c row ih =>
    obtain ⟨⟨front, _⟩, hcut, heq⟩ := Option.map_eq_some_iff.mp h
    cases heq
    obtain ⟨rfl, hnone, hplain⟩ := ih hcut
    exact ⟨rfl, hnone, hplain⟩
  | case3 depth token row hpair hend ih =>
    obtain ⟨rfl, hends⟩ := hend
    have hplain (h : isPlain 0 (token :: row) = true) : isPlain 0 row = true := by
      have hrow := ((isPlain_cons hpair 0).mp h).2.2
      rwa [Token.nest_of_endsCompound hends] at hrow
    cases hcut : splitCompound 0 row with
    | none =>
      rw [hcut] at h
      cases h
      exact ⟨rfl, hcut, hplain⟩
    | some cut =>
      rw [hcut] at h
      cases h
      obtain ⟨rfl, hnone, hlast⟩ := ih hcut
      exact ⟨rfl, hnone, fun h => hlast (hplain h)⟩
  | case4 depth token row hpair hend ih =>
    obtain ⟨⟨front, _⟩, hcut, heq⟩ := Option.map_eq_some_iff.mp h
    cases heq
    obtain ⟨rfl, hnone, hplain⟩ := ih hcut
    exact ⟨rfl, hnone, fun h => hplain ((isPlain_cons hpair depth).mp h).2.2⟩

theorem lastTokens_spec (row : List Token) :
    (lastTokens row).1 ++ (lastTokens row).2 = row ∧ splitCompound 0 (lastTokens row).2 = none ∧
      (isPlain 0 row = true → isPlain 0 (lastTokens row).2 = true) := by
  rw [lastTokens]
  cases hcut : splitCompound 0 row with
  | none => exact ⟨rfl, hcut, id⟩
  | some cut => exact splitCompound_spec hcut

/-! #### The first colon -/

theorem splitColon_join (depth : Nat) (row : List Token) :
    (splitColon depth row).1 ++ (splitColon depth row).2 = row := by
  fun_induction splitColon depth row <;> simp_all

theorem splitPseudo_idle {text : List Char} (hclosed : (Token.comment text).IsClosed)
    (hidle : (Token.comment text).isIdle = true) (depth : Nat) (rest : List Char) :
    splitPseudo .code (depth + 1) (text ++ rest)
      = keepFirst text (splitPseudo .code (depth + 1) rest) := by
  obtain ⟨content, rfl⟩ := hclosed
  have hcontent : ∀ c ∈ '/' :: '*' :: content, isQuote c = false ∧ c ∉ ['(', ')', '[', ']'] :=
    fun c hc => isIdle_comment hidle c (List.mem_append_left ['*', '/'] hc)
  have hscan := scan_idle (splitPseudo .code (depth + 1)) keeping_keepFirst _
    (splitPseudo_escaped (depth + 1)) ?_ (by decide) (by decide) hcontent rest
  · simpa using hscan
  · rintro c rest ⟨hquote, hbracket⟩ hback
    rw [splitPseudo_char (fun h => absurd h hback) (by simp), hquote, nest_of_idle hbracket]
    rfl

/-- In a row without combinators and comments outside brackets the search for a colon finds it between
tokens. -/
theorem splitPseudo_tokens {text : List Char} (hclosed : ∀ token ∈ tokens text, token.IsClosed)
    {depth : Nat} (hplain : isPlain depth (tokens text) = true)
    (hnone : splitCompound depth (tokens text) = none) :
    splitPseudo .code depth text
      = Prod.map tokensText tokensText (splitColon depth (tokens text)) := by
  induction text using pair_induction generalizing depth with
  | nil => rfl
  | comment rest ih =>
    rw [tokens_comment] at hclosed hplain hnone ⊢
    have hrest := fun token htoken => hclosed token (List.mem_cons_of_mem _ htoken)
    obtain ⟨-, hidle, hplain⟩ := (isPlain_cons (by simp) depth).mp hplain
    rw [splitCompound_cons (by simp)] at hnone
    rw [splitColon_cons (by simp), if_neg (by simp)]
    rw [Token.nest] at hplain hnone ⊢
    cases depth with
    | zero => exact absurd hnone (by simp [Token.endsCompound])
    | succ depth =>
      have hjoin := closeComment_join rest
      have hpass := splitPseudo_idle (hclosed _ List.mem_cons_self) (hidle (by simp)) depth
        (closeComment rest).2
      rw [List.cons_append, List.cons_append, hjoin] at hpass
      rw [if_neg (by simp), Option.map_eq_none_iff] at hnone
      rw [hpass, ih hrest hplain hnone]
      exact Eq.trans (by simp [Token.text]) (text_keepTokens [.comment _] _).symm
  | string quote rest hquote ih =>
    rw [tokens_string hquote] at hclosed hplain hnone ⊢
    have hrest := fun token htoken => hclosed token (List.mem_cons_of_mem _ htoken)
    obtain ⟨-, -, hplain⟩ := (isPlain_cons (by simp) depth).mp hplain
    rw [splitCompound_cons (by simp), if_neg (by simp [Token.endsCompound]),
      Option.map_eq_none_iff] at hnone
    rw [splitColon_cons (by simp), if_neg (by simp)]
    rw [Token.nest] at hplain hnone ⊢
    rw [splitPseudo_quote hquote, ih hrest hplain hnone]
    exact Eq.trans (by simp [Token.text]) (text_keepTokens [.string _] _).symm
  | escaped c rest hquote hstar ih =>
    rw [tokens_code (by decide) (by simp), tokens_code hquote hstar] at hclosed hplain hnone ⊢
    have hrest := fun token htoken =>
      hclosed token (List.mem_cons_of_mem _ (List.mem_cons_of_mem _ htoken))
    rw [splitCompound, Option.map_eq_none_iff] at hnone
    rw [splitColon, splitPseudo_escaped, ih hrest hplain hnone]
    exact Eq.trans (by simp [Token.text]) (text_keepTokens [.code '\\', .code c] _).symm
  | code c rest hquote hstar hpair ih =>
    rw [tokens_code hquote hstar] at hclosed hplain hnone ⊢
    have hrest := fun token htoken => hclosed token (List.mem_cons_of_mem _ htoken)
    have hcons : ∀ d more, Token.code c = .code '\\' → tokens rest ≠ .code d :: more :=
      fun d more hc => hpair d more (Token.code.inj hc)
    obtain ⟨hback, -, hplain⟩ := (isPlain_cons hcons depth).mp hplain
    rw [splitCompound_cons hcons] at hnone
    rw [splitColon_cons hcons]
    rw [Token.nest] at hplain hnone ⊢
    by_cases hcolon : depth = 0 ∧ c = ':'
    · obtain ⟨rfl, rfl⟩ := hcolon
      rw [if_pos ⟨rfl, rfl⟩, splitPseudo_colon]
      simp [Token.text, text_tokens]
    · have hend : c = '\\' → rest = [] := by
        rintro rfl
        rw [← text_tokens rest, hback rfl]
        rfl
      split at hnone
      · exact absurd hnone (by simp)
      · rw [Option.map_eq_none_iff] at hnone
        rw [if_neg (by simpa using hcolon), splitPseudo_char hend hcolon, if_neg (by simp [hquote]),
          ih hrest hplain hnone]
        exact Eq.trans (by simp [Token.text]) (text_keepTokens [.code c] _).symm

end SiteTree.Stylesheet
