import SiteTree.Proofs.Markup.Insertion
import SiteTree.Proofs.Text.Search
import Mathlib.Data.List.Infix

/-!
# Reading documents with comments

Giving a document a class takes everything for a tag that looks like one, in comments as well. A
reader of documents knows better: it passes over comments and doctypes and finds the tags outside of
them.

* `tags_injectText` — the tags that it finds in a document with a class are those of the document,
  each with the class, as long as no tag is taken to begin inside a comment and end behind it.
-/

namespace SiteTree.Markup

/-! ### Comments and doctypes -/

/-- A comment or doctype: how it begins, what is in it, and how it ends. -/
structure Hidden where
  start : List Char
  inside : List Char
  closing : List Char
  deriving DecidableEq

def Hidden.text (hidden : Hidden) : List Char :=
  hidden.start ++ hidden.inside ++ hidden.closing

/-- What a text that begins with `start`, the case of letters aside, has up to the first `closing`
behind it, and what follows. -/
def enclosed? (start closing text : List Char) : Option (Hidden × List Char) :=
  if startsIgnoringCase start text then
    (Text.splitFirst? closing (text.drop start.length)).map fun (inside, after) =>
      (⟨text.take start.length, inside, closing⟩, after)
  else none

def commentStart : List Char :=
  "<!--".toList

def doctypeStart : List Char :=
  "<!doctype".toList

def doctypeEnd : List Char :=
  ['>']

/-- The comment or doctype that a text begins with, and what follows it. -/
def hidden? (text : List Char) : Option (Hidden × List Char) :=
  (enclosed? commentStart commentEnd text).or (enclosed? doctypeStart doctypeEnd text)

/-- What is read between `start` and the first `closing`. -/
structure Hidden.Within (start closing : List Char) (hidden : Hidden) : Prop where
  begins : hidden.start.map Char.toLower = start.map Char.toLower
  ends : hidden.closing = closing
  first : ¬ closing <:+: hidden.inside ++ closing.dropLast

theorem enclosed?_eq_some_iff {start closing text after : List Char} {hidden : Hidden}
    (hne : closing ≠ []) :
    enclosed? start closing text = some (hidden, after)
      ↔ hidden.Within start closing ∧ text = hidden.text ++ after := by
  unfold enclosed?
  constructor
  · intro h
    split at h
    · next hstarts =>
      obtain ⟨⟨inside, _⟩, hsplit, heq⟩ := Option.map_eq_some_iff.mp h
      cases heq
      obtain ⟨hdrop, hfirst⟩ := (Text.splitFirst?_eq_some_iff hne).mp hsplit
      refine ⟨⟨(beq_iff_eq.mp hstarts).symm, rfl, hfirst⟩, ?_⟩
      rw [Hidden.text, List.append_assoc, List.append_assoc, ← List.append_assoc inside, ← hdrop,
        List.take_append_drop]
    · cases h
  · obtain ⟨found, inside, ends⟩ := hidden
    rintro ⟨⟨hstart, hclosing, hfirst⟩, rfl⟩
    obtain rfl : ends = closing := hclosing
    have hlength : found.length = start.length := by
      simpa using congrArg List.length hstart
    have htext : Hidden.text ⟨found, inside, ends⟩ ++ after
        = found ++ (inside ++ ends ++ after) := by
      simp [Hidden.text]
    have hstarts : startsIgnoringCase start (found ++ (inside ++ ends ++ after)) = true := by
      rw [startsIgnoringCase, ← hlength, List.take_left, Text.eqIgnoringCase, hstart]
      exact beq_self_eq_true _
    rw [htext, if_pos hstarts, ← hlength, List.drop_left, List.take_left,
      (Text.splitFirst?_eq_some_iff hne).mpr ⟨rfl, hfirst⟩]
    rfl

/-- It is what a comment or what a doctype is read from. -/
def Hidden.IsRead (hidden : Hidden) : Prop :=
  hidden.Within commentStart commentEnd ∨ hidden.Within doctypeStart doctypeEnd

theorem Hidden.IsRead.closing_ne_nil {hidden : Hidden} (h : hidden.IsRead) :
    hidden.closing ≠ [] := by
  rcases h with hcomment | hdoctype
  · rw [hcomment.ends]
    decide
  · rw [hdoctype.ends]
    decide

/-- A comment or doctype is read where its text begins. -/
theorem hidden?_eq_some_iff {text after : List Char} {hidden : Hidden} :
    hidden? text = some (hidden, after) ↔ hidden.IsRead ∧ text = hidden.text ++ after := by
  rw [hidden?, Option.or_eq_some_iff, enclosed?_eq_some_iff (by decide),
    enclosed?_eq_some_iff (by decide)]
  constructor
  · rintro (⟨hcomment, htext⟩ | ⟨-, hdoctype, htext⟩)
    · exact ⟨.inl hcomment, htext⟩
    · exact ⟨.inr hdoctype, htext⟩
  · rintro ⟨hcomment | hdoctype, htext⟩
    · exact .inl ⟨hcomment, htext⟩
    · refine .inr ⟨?_, hdoctype, htext⟩
      -- Where a doctype has a letter, a comment has a hyphen.
      have hnot : startsIgnoringCase commentStart text = false := by
        rw [Bool.eq_false_iff, Ne, startsIgnoringCase_iff, htext, Hidden.text, List.append_assoc,
          List.append_assoc, List.map_append, hdoctype.begins]
        intro hprefix
        have hprefix : commentStart.map Char.toLower <+: doctypeStart.map Char.toLower :=
          List.prefix_of_prefix_length_le hprefix (List.prefix_append _ _) (by decide)
        exact absurd hprefix (by decide)
      rw [enclosed?, if_neg (by simp [hnot])]

theorem length_lt_of_hidden? {text after : List Char} {hidden : Hidden}
    (h : hidden? text = some (hidden, after)) : after.length < text.length := by
  obtain ⟨hread, rfl⟩ := hidden?_eq_some_iff.mp h
  have hpos := List.length_pos_iff.mpr hread.closing_ne_nil
  simp only [Hidden.text, List.length_append]
  omega

/-! #### Beginnings that are no tags -/

/-- A text that is `<`, a mark and letters up to their case has no other `<`. -/
theorem exists_of_map_toLower_eq {mark : Char} {start letters : List Char}
    (hmark : mark.isAlpha = false) (hletters : '<' ∉ mark :: letters)
    (h : start.map Char.toLower = ('<' :: mark :: letters).map Char.toLower) :
    ∃ found, start = '<' :: mark :: found ∧ '<' ∉ mark :: found := by
  have hlower {c d : Char} (hd : d.isAlpha = false) (heq : c.toLower = d.toLower) : c = d :=
    (toLower_eq_iff hd).mp (heq.trans ((toLower_eq_iff hd).mpr rfl))
  obtain ⟨first, rest, rfl, hfirst, hrest⟩ := List.map_eq_cons_iff.mp h
  obtain ⟨second, found, rfl, hsecond, hfound⟩ := List.map_eq_cons_iff.mp hrest
  obtain rfl := hlower (by decide) hfirst
  obtain rfl := hlower hmark hsecond
  refine ⟨found, rfl, fun hmem => ?_⟩
  have hmem : ('<' : Char).toLower ∈ (second :: letters).map Char.toLower := by
    rw [List.map_cons, ← hfound]
    exact List.mem_map_of_mem hmem
  obtain ⟨c, hc, heq⟩ := List.mem_map.mp hmem
  exact hletters (hlower (by decide) heq ▸ hc)

theorem Hidden.IsRead.start_eq {hidden : Hidden} (h : hidden.IsRead) :
    ∃ letters, hidden.start = '<' :: '!' :: letters ∧ '<' ∉ '!' :: letters := by
  rcases h with hcomment | hdoctype
  · exact exists_of_map_toLower_eq (by decide) (by decide) hcomment.begins
  · exact exists_of_map_toLower_eq (by decide) (by decide) hdoctype.begins

/-! ### Tokens -/

/-- A token of a document. -/
inductive Token where
  /-- a character outside of all the others -/
  | char (c : Char)
  /-- a comment or doctype, and the text behind it -/
  | hidden (hidden : Hidden) (after : List Char)
  | opening (tag : OpenTag)
  /-- the contents of an element whose contents are raw text -/
  | raw (text : List Char)

/-- The tokens of a document, in order. -/
def tokens (html : List Char) : List Token :=
  match html with
  | [] => []
  | c :: rest =>
    match hhidden : hidden? (c :: rest) with
    | some (hidden, after) =>
      have : after.length < (c :: rest).length := length_lt_of_hidden? hhidden
      .hidden hidden after :: tokens after
    | none =>
      match htag : openTag? (c :: rest) with
      | none => .char c :: tokens rest
      | some (tag, after) =>
        have : after.length < (c :: rest).length := length_lt_of_openTag? htag
        if tag.opensRaw then
          have := length_splitRaw_le tag.name after
          .opening tag :: .raw (splitRaw tag.name after).1 :: tokens (splitRaw tag.name after).2
        else .opening tag :: tokens after
termination_by html.length
decreasing_by all_goals (simp only [List.length_cons] at *; omega)

def Token.tag? : Token → Option OpenTag
  | opening tag => some tag
  | _ => none

/-- The opening tags of a document outside of comments, doctypes and raw text. -/
def tags (html : List Char) : List OpenTag :=
  (tokens html).filterMap Token.tag?

/-- No tag is taken to go on across the place between two texts. -/
def CutAt (first second : List Char) : Prop :=
  pieces (first ++ second) = pieces first ++ pieces second

instance (first second : List Char) : Decidable (CutAt first second) :=
  inferInstanceAs (Decidable (_ = _))

/-- No tag that is taken to begin in a comment or doctype goes on where it ends. -/
def Token.Aligned : Token → Prop
  | hidden found after => CutAt found.inside (found.closing ++ after)
  | _ => True

instance : DecidablePred Token.Aligned
  | .hidden found after => inferInstanceAs (Decidable (CutAt found.inside (found.closing ++ after)))
  | .char _ => instDecidableTrue
  | .opening _ => instDecidableTrue
  | .raw _ => instDecidableTrue

/-- No tag is taken to begin in a comment or doctype and go on behind it. -/
def Aligned (html : List Char) : Prop :=
  ∀ token ∈ tokens html, token.Aligned

instance (html : List Char) : Decidable (Aligned html) :=
  inferInstanceAs (Decidable (∀ token ∈ tokens html, token.Aligned))

theorem cutAt_of_notMem {first : List Char} (h : '<' ∉ first) (second : List Char) :
    CutAt first second := by
  have hpieces (rest : List Char) : pieces (first ++ rest) = first.map .char ++ pieces rest := by
    induction first with
    | nil => rfl
    | cons c first ih =>
      have hnone : openTag? (c :: (first ++ rest)) = none := by
        rw [openTag?.eq_def]
        split
        · next heq => exact absurd (List.cons.inj heq).1.symm (List.ne_of_not_mem_cons h)
        · rfl
      rw [List.cons_append, pieces]
      split
      · rw [ih (List.not_mem_of_not_mem_cons h)]
        rfl
      · next heq => cases hnone.symm.trans heq
  have hfirst := hpieces []
  rw [List.append_nil, pieces, List.append_nil] at hfirst
  rw [CutAt, hpieces, hfirst]

/-- Comments that mention no tag are no trouble. -/
theorem aligned_of_notMem {html : List Char}
    (h : ∀ hidden after, .hidden hidden after ∈ tokens html → '<' ∉ hidden.inside) :
    Aligned html := by
  intro token htoken
  cases token with
  | hidden hidden after => exact cutAt_of_notMem (h hidden after htoken) _
  | char => trivial
  | opening => trivial
  | raw => trivial

/-! #### Steps of the reading -/

theorem tokens_hidden {text after : List Char} {hidden : Hidden}
    (h : hidden? text = some (hidden, after)) :
    tokens text = .hidden hidden after :: tokens after := by
  cases text with
  | nil => exact absurd (length_lt_of_hidden? h) (Nat.not_lt_zero _)
  | cons c rest =>
    rw [tokens]
    split
    · next heq =>
      cases h.symm.trans heq
      rfl
    · next heq => cases h.symm.trans heq

theorem tokens_char {c : Char} {rest : List Char} (hhidden : hidden? (c :: rest) = none)
    (htag : openTag? (c :: rest) = none) : tokens (c :: rest) = .char c :: tokens rest := by
  rw [tokens]
  split
  · next heq => cases hhidden.symm.trans heq
  · split
    · rfl
    · next heq => cases htag.symm.trans heq

/-- No comment or doctype begins where a tag begins. -/
theorem hidden?_eq_none_of_openTag? {text after : List Char} {tag : OpenTag}
    (h : openTag? text = some (tag, after)) : hidden? text = none := by
  rw [Option.eq_none_iff_forall_ne_some]
  rintro ⟨hidden, behind⟩ hhidden
  obtain ⟨⟨⟨initial, letters, hname, halpha, -⟩, -⟩, htext⟩ := openTag?_eq_some_iff.mp h
  obtain ⟨hread, hbehind⟩ := hidden?_eq_some_iff.mp hhidden
  obtain ⟨found, hstart, -⟩ := hread.start_eq
  rw [hbehind, Hidden.text, hstart, OpenTag.join, hname] at htext
  obtain rfl : '!' = initial := (List.cons.inj (List.cons.inj htext).2).1
  exact absurd halpha (by decide)

theorem tokens_openTag {text after : List Char} {tag : OpenTag}
    (h : openTag? text = some (tag, after)) :
    tokens text = .opening tag :: if tag.opensRaw then
        .raw (splitRaw tag.name after).1 :: tokens (splitRaw tag.name after).2
      else tokens after := by
  have hhidden := hidden?_eq_none_of_openTag? h
  cases text with
  | nil => cases h
  | cons c rest =>
    rw [tokens]
    split
    · next heq => cases hhidden.symm.trans heq
    · split
      · next heq => cases h.symm.trans heq
      · next heq =>
        cases h.symm.trans heq
        split
        · rfl
        · rfl

theorem tags_hidden {text after : List Char} {hidden : Hidden}
    (h : hidden? text = some (hidden, after)) : tags text = tags after := by
  rw [tags, tokens_hidden h]
  rfl

theorem tags_char {c : Char} {rest : List Char} (hhidden : hidden? (c :: rest) = none)
    (htag : openTag? (c :: rest) = none) : tags (c :: rest) = tags rest := by
  rw [tags, tokens_char hhidden htag]
  rfl

theorem tags_openTag {text after : List Char} {tag : OpenTag}
    (h : openTag? text = some (tag, after)) :
    tags text = tag :: tags (if tag.opensRaw then (splitRaw tag.name after).2 else after) := by
  rw [tags, tokens_openTag h]
  split
  · rfl
  · rfl

/-! ### Documents with a class -/

section Inject

variable (cls : List Char)

theorem injectText_append {first second : List Char} (h : CutAt first second) :
    injectText cls (first ++ second) = injectText cls first ++ injectText cls second := by
  rw [injectText, h, List.flatMap_append]
  rfl

/-- A text that no tag can end in is copied. -/
theorem injectText_of_notMem {text : List Char} (h : '>' ∉ text) : injectText cls text = text := by
  induction text with
  | nil => simp [injectText, pieces]
  | cons c text ih =>
    have hnone : openTag? (c :: text) = none := by
      rw [Option.eq_none_iff_forall_ne_some]
      rintro ⟨tag, after⟩ htag
      exact h (join_of_openTag? htag ▸ by simp [OpenTag.join])
    rw [injectText_char cls hnone, ih fun hmem => h (List.mem_cons_of_mem _ hmem)]

/-- `<` with no letter behind it begins no tag. -/
theorem injectText_marked {mark : Char} {letters : List Char} (hmark : mark.isAlpha = false)
    (hletters : '<' ∉ mark :: letters) (rest : List Char) :
    injectText cls ('<' :: mark :: letters ++ rest)
      = '<' :: mark :: letters ++ injectText cls rest := by
  have hnone : openTag? ('<' :: (mark :: letters ++ rest)) = none := by
    rw [List.cons_append, openTag?, if_neg (by simp [hmark])]
  rw [List.cons_append, injectText_char cls hnone, injectText_notMem cls hletters]
  rfl

theorem head?_injectText (text : List Char) : (injectText cls text).head? = text.head? := by
  cases text with
  | nil => simp [injectText, pieces]
  | cons c rest =>
    cases htag : openTag? (c :: rest) with
    | none => rw [injectText_char cls htag]; rfl
    | some found =>
      obtain ⟨tag, after⟩ := found
      obtain rfl : '<' = c := (List.cons.inj (join_of_openTag? htag)).1
      rw [injectText_openTag cls htag]
      rfl

/-- Text without `<` is in front of a document with a class where it is in front of the document. -/
theorem exists_of_injectText_eq {first text more : List Char} (h : '<' ∉ first)
    (heq : injectText cls text = first ++ more) :
    ∃ rest, text = first ++ rest ∧ injectText cls rest = more := by
  induction first generalizing text with
  | nil => exact ⟨text, rfl, heq⟩
  | cons c first ih =>
    have hhead := head?_injectText cls text
    rw [heq] at hhead
    cases text with
    | nil => cases hhead
    | cons d text =>
      obtain rfl : c = d := Option.some.inj hhead
      have hnot : '<' ∉ [c] := fun hmem => h (List.mem_singleton.mp hmem ▸ List.mem_cons_self)
      have heq : c :: injectText cls text = c :: (first ++ more) :=
        (injectText_notMem cls hnot text).symm.trans heq
      obtain ⟨rest, rfl, hrest⟩ := ih (fun hmem => h (List.mem_cons_of_mem _ hmem))
        (List.cons.inj heq).2
      exact ⟨rest, rfl, hrest⟩

end Inject

theorem Hidden.IsRead.notMem_closing {hidden : Hidden} (h : hidden.IsRead) :
    '<' ∉ hidden.closing := by
  rcases h with hcomment | hdoctype
  · rw [hcomment.ends]
    decide
  · rw [hdoctype.ends]
    decide

/-- What ends a comment or doctype can end one with other text in it. -/
theorem Hidden.IsRead.exists_of_infix {hidden : Hidden} (h : hidden.IsRead) {text : List Char}
    (hends : hidden.closing <:+: text) :
    ∃ inside after, Hidden.IsRead { hidden with inside } ∧
      text = inside ++ hidden.closing ++ after := by
  obtain ⟨⟨inside, after⟩, hsplit⟩ := Option.isSome_iff_exists.mp (Text.occursIn_iff.mpr hends)
  obtain ⟨htext, hfirst⟩ := (Text.splitFirst?_eq_some_iff h.closing_ne_nil).mp hsplit
  refine ⟨inside, after, ?_, htext⟩
  rcases h with hcomment | hdoctype
  · exact .inl ⟨hcomment.begins, hcomment.ends, by rwa [← hcomment.ends]⟩
  · exact .inr ⟨hdoctype.begins, hdoctype.ends, by rwa [← hdoctype.ends]⟩

section Inject

variable {cls : List Char} (hcls : ∀ c ∈ cls, c ∉ ['>', '"', '\''])

include hcls

theorem Hidden.IsRead.ends_of_injectText {hidden : Hidden} (h : hidden.IsRead)
    {text after : List Char} (hends : hidden.closing <:+: injectText cls text ++ after) :
    hidden.closing <:+: text ++ after := by
  rcases h with hcomment | hdoctype
  · rw [hcomment.ends] at hends ⊢
    exact (alike_injectText hcls text).ends [] after hends
  · by_cases hend : '>' ∈ text
    · rw [hdoctype.ends]
      exact (List.singleton_infix_iff _ _).mpr (by simp [hend])
    · rwa [injectText_of_notMem cls hend] at hends

/-- A comment or doctype in a document with a class is one, with the class inside it as well. -/
theorem Hidden.IsRead.injectText {hidden : Hidden} (h : hidden.IsRead) :
    Hidden.IsRead { hidden with inside := injectText cls hidden.inside } := by
  have hfirst {start closing : List Char} (hwithin : hidden.Within start closing) :
      ¬ closing <:+: Markup.injectText cls hidden.inside ++ closing.dropLast := by
    intro hfound
    rw [← hwithin.ends] at hfound
    have hends := h.ends_of_injectText hcls hfound
    rw [hwithin.ends] at hends
    exact hwithin.first hends
  rcases h with hcomment | hdoctype
  · exact .inl ⟨hcomment.begins, hcomment.ends, hfirst hcomment⟩
  · exact .inr ⟨hdoctype.begins, hdoctype.ends, hfirst hdoctype⟩

end Inject

theorem Hidden.IsRead.injectText_append {hidden : Hidden} (h : hidden.IsRead) (cls : List Char)
    {after : List Char} (hcut : CutAt hidden.inside (hidden.closing ++ after)) :
    Markup.injectText cls (hidden.text ++ after)
      = Hidden.text { hidden with inside := Markup.injectText cls hidden.inside }
        ++ Markup.injectText cls after := by
  obtain ⟨letters, hstart, hletters⟩ := h.start_eq
  rw [Hidden.text, List.append_assoc, List.append_assoc, hstart,
    injectText_marked cls (by decide) hletters, Markup.injectText_append cls hcut,
    injectText_notMem cls h.notMem_closing]
  simp [Hidden.text]

section Inject

variable {cls : List Char} (hcls : ∀ c ∈ cls, c ∉ ['>', '"', '\''])

include hcls

theorem hidden?_cons_injectText {c : Char} {rest : List Char} (h : hidden? (c :: rest) = none) :
    hidden? (c :: injectText cls rest) = none := by
  rw [Option.eq_none_iff_forall_ne_some]
  rintro ⟨hidden, after⟩ hsome
  obtain ⟨hread, htext⟩ := hidden?_eq_some_iff.mp hsome
  obtain ⟨letters, hstart, hletters⟩ := hread.start_eq
  rw [Hidden.text, hstart, List.append_assoc, List.append_assoc, List.cons_append] at htext
  obtain ⟨rfl, hinject⟩ := List.cons.inj htext
  obtain ⟨behind, rfl, hbehind⟩ := exists_of_injectText_eq cls hletters hinject
  have hends : hidden.closing <:+: injectText cls behind ++ [] :=
    ⟨hidden.inside, after, by simp [hbehind]⟩
  have hends := hread.ends_of_injectText hcls hends
  rw [List.append_nil] at hends
  obtain ⟨inside, after, hread, hbehind⟩ := hread.exists_of_infix hends
  have htext : '<' :: ('!' :: letters ++ behind)
      = Hidden.text { hidden with inside } ++ after := by
    simp [Hidden.text, hstart, hbehind]
  cases h.symm.trans (hidden?_eq_some_iff.mpr ⟨hread, htext⟩)

theorem openTag?_cons_injectText {c : Char} {rest : List Char} (h : openTag? (c :: rest) = none) :
    openTag? (c :: injectText cls rest) = none := by
  rw [openTag?.eq_def]
  split
  · next d after heq =>
    obtain ⟨rfl, hinject⟩ := List.cons.inj heq
    split
    · next halpha =>
      have hletter : '<' ∉ [d] := by
        intro hmem
        obtain rfl : '<' = d := List.mem_singleton.mp hmem
        exact absurd halpha (by decide)
      have hinject : injectText cls rest = [d] ++ after := hinject
      obtain ⟨behind, rfl, rfl⟩ := exists_of_injectText_eq cls hletter hinject
      have hrun : (Place.outside.run behind).isSome = true := (openTag?_eq_none_iff halpha).mp h
      rw [← (alike_injectText hcls behind).run] at hrun
      have hnone := (openTag?_eq_none_iff halpha).mpr hrun
      rwa [openTag?, if_pos halpha] at hnone
    · rfl
  · rfl

end Inject

/-! #### Raw text -/

/-- Raw text goes up to its closing tag or to the end of the document. -/
theorem splitRaw_cases (name text : List Char) :
    (¬ ('<' :: '/' :: name).map Char.toLower <:+: (splitRaw name text).1.map Char.toLower) ∧
    ((splitRaw name text).2 = [] ∨ ∃ closing rest,
      closing.map Char.toLower = ('<' :: '/' :: name).map Char.toLower ∧
        (splitRaw name text).2 = closing ++ rest) := by
  fun_induction splitRaw name text with
  | case1 => exact ⟨by simp, .inl rfl⟩
  | case2 c rest h =>
    exact ⟨by simp, .inr ⟨_, _, (beq_iff_eq.mp h).symm, (List.take_append_drop _ _).symm⟩⟩
  | case3 c rest h raw after heq ih =>
    rw [heq] at ih
    refine ⟨?_, ih.2⟩
    intro hfound
    rcases List.infix_cons_iff.mp hfound with hstarts | hfound
    · have hraw : raw <+: rest := ⟨after, by rw [← append_splitRaw name rest, heq]⟩
      exact h (startsIgnoringCase_iff.mpr
        (hstarts.trans ((List.cons_prefix_cons.mpr ⟨rfl, hraw⟩).map Char.toLower)))
    · exact ih.1 hfound

theorem splitRaw_of_not_infix {name content : List Char}
    (hfits : ¬ ('<' :: '/' :: name).map Char.toLower <:+: content.map Char.toLower) :
    splitRaw name content = (content, []) := by
  induction content with
  | nil => rfl
  | cons c content ih =>
    rw [splitRaw, ih fun hfound => hfits (List.infix_cons hfound), if_neg]
    intro hstarts
    exact hfits (startsIgnoringCase_iff.mp hstarts).isInfix

/-- Raw text is where it was when the document behind it is given a class. -/
theorem splitRaw_append_injectText {name text : List Char} (cls : List Char)
    (hname : ∀ c ∈ name, isNameChar c = true) :
    splitRaw name ((splitRaw name text).1 ++ injectText cls (splitRaw name text).2)
      = ((splitRaw name text).1, injectText cls (splitRaw name text).2) := by
  have hnot : '<' ∉ '/' :: name := by
    intro hmem
    rcases List.mem_cons.mp hmem with hslash | hmem
    · exact absurd hslash (by decide)
    · exact absurd (hname _ hmem) (by decide)
  obtain ⟨hfits, hafter | ⟨closing, rest, hcloses, hafter⟩⟩ := splitRaw_cases name text
  · have hnil : injectText cls [] = [] := injectText_of_notMem cls List.not_mem_nil
    rw [hafter, hnil, List.append_nil]
    exact splitRaw_of_not_infix hfits
  · obtain ⟨found, rfl, hfound⟩ := exists_of_map_toLower_eq (by decide) hnot hcloses
    rw [hafter, injectText_marked cls (by decide) hfound]
    refine splitRaw_text _ hname hfits ?_
    exact (List.cons.inj (List.cons.inj hcloses).2).2

/-! ### The tags of a document with a class -/

/-- Does a tag with the class have raw text behind it when the tag has? -/
def OpenTag.KeepsRaw (cls : List Char) (tag : OpenTag) : Prop :=
  (tag.addClass cls).opensRaw = tag.opensRaw

theorem OpenTag.IsRead.isNameChar_name {tag : OpenTag} (h : tag.IsRead) :
    ∀ c ∈ tag.name, isNameChar c = true := by
  obtain ⟨initial, letters, hname, halpha, hletters⟩ := h.name
  rw [hname]
  intro c hc
  rcases List.mem_cons.mp hc with rfl | hc
  · simp [isNameChar, Char.isAlphanum, halpha]
  · exact hletters c hc

theorem Aligned.of_append {html rest : List Char} (front : List Token) (h : Aligned html)
    (htokens : tokens html = front ++ tokens rest) : Aligned rest := by
  intro token htoken
  refine h token ?_
  rw [htokens]
  exact List.mem_append_right _ htoken

/-- The tags of a document with a class are the tags of the document, each with the class. -/
theorem tags_injectText {cls html : List Char} (hcls : ∀ c ∈ cls, c ∉ ['>', '"', '\''])
    (haligned : Aligned html) (hraw : ∀ tag ∈ tags html, tag.KeepsRaw cls) :
    tags (injectText cls html) = (tags html).map (OpenTag.addClass cls) := by
  fun_induction tokens html with
  | case1 => simp [injectText, pieces, tags, tokens]
  | case2 c rest hidden after hhidden _ ih =>
    have htokens := tokens_hidden hhidden
    obtain ⟨hread, htext⟩ := hidden?_eq_some_iff.mp hhidden
    have hcut : CutAt hidden.inside (hidden.closing ++ after) :=
      haligned (.hidden hidden after) (htokens ▸ List.mem_cons_self)
    rw [tags_hidden hhidden] at hraw ⊢
    rw [← ih (haligned.of_append [_] htokens) hraw, htext,
      hread.injectText_append cls hcut]
    exact tags_hidden (hidden?_eq_some_iff.mpr ⟨hread.injectText hcls, rfl⟩)
  | case3 c rest hhidden htag ih =>
    have htokens := tokens_char hhidden htag
    rw [tags_char hhidden htag] at hraw ⊢
    rw [← ih (haligned.of_append [_] htokens) hraw, injectText_char cls htag]
    exact tags_char (hidden?_cons_injectText hcls hhidden) (openTag?_cons_injectText hcls htag)
  | case4 c rest hhidden tag after htag _ hopens _ ih =>
    have htokens := tokens_openTag htag
    rw [if_pos hopens] at htokens
    rw [tags_openTag htag, if_pos hopens] at hraw ⊢
    have hkeeps : (tag.addClass cls).opensRaw = true :=
      (hraw tag List.mem_cons_self).trans hopens
    have hread := (openTag?_eq_some_iff.mp htag).1
    rw [List.map_cons, ← ih (haligned.of_append [_, _] htokens)
        fun other hother => hraw other (List.mem_cons_of_mem _ hother),
      injectText_openTag cls htag, if_pos hopens,
      tags_openTag (openTag?_join_addClass hcls htag _), if_pos hkeeps]
    change _ :: tags (splitRaw tag.name _).2 = _
    rw [splitRaw_append_injectText cls hread.isNameChar_name]
  | case5 c rest hhidden tag after htag _ hopens ih =>
    have htokens := tokens_openTag htag
    rw [if_neg hopens] at htokens
    rw [tags_openTag htag, if_neg hopens] at hraw ⊢
    have hkeeps : ¬ (tag.addClass cls).opensRaw = true := by
      rw [hraw tag List.mem_cons_self]
      exact hopens
    rw [List.map_cons, ← ih (haligned.of_append [_] htokens)
        fun other hother => hraw other (List.mem_cons_of_mem _ hother),
      injectText_openTag cls htag, if_neg hopens,
      tags_openTag (openTag?_join_addClass hcls htag _), if_neg hkeeps]

end SiteTree.Markup
