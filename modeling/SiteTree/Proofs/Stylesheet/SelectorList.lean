import SiteTree.Proofs.Stylesheet.Selector

/-!
# The grammar of selector lists

A selector list is one selector or several with commas between them, each with blanks around
it. In front of the whole list blanks and comments can stand.

* `SelectorList.scopeList_text` — scoping a list scopes each of its selectors and leaves all
  blanks, comments and commas as they are.
-/

namespace SiteTree.Stylesheet

/-! ### Gaps -/

/-- A blank or a comment. -/
inductive GapItem where
  | blank (c : { c : Char // Text.isBlank c = true })
  | remark (comment : Comment)

/-- Blanks and comments. -/
abbrev Gap := List GapItem

theorem isQuote_of_isBlank {c : Char} (h : Text.isBlank c = true) : isQuote c = false := by
  rw [Bool.eq_false_iff]
  intro hquote
  simp only [isQuote, Bool.or_eq_true, beq_iff_eq] at hquote
  rcases hquote with rfl | rfl <;> exact absurd h (by decide)

def blankLexeme (c : { c : Char // Text.isBlank c = true }) : Lexeme :=
  .plain c.val (isQuote_of_isBlank c.property)

def GapItem.lexeme : GapItem → Lexeme
  | blank c => blankLexeme c
  | remark comment => .comment comment

def Gap.text (gap : Gap) : List Char :=
  gap.flatMap fun item => item.lexeme.text

theorem Gap.text_append (first second : Gap) :
    Gap.text (first ++ second) = first.text ++ second.text :=
  List.flatMap_append

/-! ### Lists -/

abbrev Blanks := List { c : Char // Text.isBlank c = true }

def Blanks.text (blanks : Blanks) : List Char :=
  blanks.map Subtype.val

/-- A selector of a list, with the blanks around it. -/
structure ListItem where
  before : Blanks
  selector : Complex
  after : Blanks

def ListItem.text (item : ListItem) : List Char :=
  item.before.text ++ item.selector.text ++ item.after.text

def ListItem.scopedWith (marker : List Char) (item : ListItem) : List Char :=
  item.before.text ++ item.selector.scopedWith marker ++ item.after.text

/-- Selectors separated by commas. -/
structure SelectorList where
  first : ListItem
  others : List ListItem

def SelectorList.text (list : SelectorList) : List Char :=
  list.first.text ++ list.others.flatMap fun item => ',' :: item.text

/-- The list with the marker required of each of its selectors. -/
def SelectorList.scopedWith (marker : List Char) (list : SelectorList) : List Char :=
  list.first.scopedWith marker ++ list.others.flatMap fun item => ',' :: item.scopedWith marker

/-! ### Lexemes of a list -/

theorem isQuote_of_mem_combinators {c : Char} (h : c ∈ [' ', '\t', '\n', '\r', '>', '+', '~']) :
    isQuote c = false := by
  have hall : [' ', '\t', '\n', '\r', '>', '+', '~'].all (fun d => !isQuote d) = true := by decide
  simpa using List.all_eq_true.mp hall c h

def Combinator.lexemes (combinator : Combinator) : List Lexeme :=
  combinator.text.attach.map fun c => .plain c.val (isQuote_of_mem_combinators
    (combinator.chars c.val c.property))

def Complex.lexemes (selector : Complex) : List Lexeme :=
  (selector.before.flatMap fun (compound, combinator) =>
    compound.lexemes ++ combinator.lexemes) ++ selector.last.lexemes

def ListItem.lexemes (item : ListItem) : List Lexeme :=
  item.before.map blankLexeme ++ item.selector.lexemes ++ item.after.map blankLexeme

def comma : Lexeme :=
  .plain ',' (by decide)

def SelectorList.lexemes (list : SelectorList) : List Lexeme :=
  list.first.lexemes ++ list.others.flatMap fun item => comma :: item.lexemes

def Gap.lexemes (gap : Gap) : List Lexeme :=
  gap.map GapItem.lexeme

section Text

theorem Combinator.lexemesText_lexemes (combinator : Combinator) :
    lexemesText combinator.lexemes = combinator.text := by
  rw [Combinator.lexemes, lexemesText, List.flatMap_map]
  simp [Lexeme.text, List.flatMap_singleton']

theorem Complex.lexemesText_lexemes (selector : Complex) :
    lexemesText selector.lexemes = selector.text := by
  rw [Complex.lexemes, lexemesText_append, selector.last.lexemesText_lexemes, Complex.text,
    Complex.lead, lexemesText_flatMap]
  intro joined _
  rw [lexemesText_append, joined.1.lexemesText_lexemes, joined.2.lexemesText_lexemes]

theorem Blanks.lexemesText_map (blanks : Blanks) :
    lexemesText (blanks.map blankLexeme) = blanks.text := by
  induction blanks with
  | nil => rfl
  | cons c blanks ih => simpa [blankLexeme, Lexeme.text, Blanks.text] using ih

theorem ListItem.lexemesText_lexemes (item : ListItem) :
    lexemesText item.lexemes = item.text := by
  simp only [ListItem.lexemes, lexemesText_append, Blanks.lexemesText_map,
    item.selector.lexemesText_lexemes, ListItem.text]

theorem SelectorList.lexemesText_lexemes (list : SelectorList) :
    lexemesText list.lexemes = list.text := by
  rw [SelectorList.lexemes, lexemesText_append, list.first.lexemesText_lexemes,
    SelectorList.text, lexemesText_flatMap]
  intro item _
  rw [lexemesText_cons, item.lexemesText_lexemes]
  rfl

theorem Gap.lexemesText_lexemes (gap : Gap) : lexemesText gap.lexemes = gap.text := by
  rw [Gap.lexemes, lexemesText, List.flatMap_map]
  rfl

end Text

/-! ### Lists are solid -/

theorem solid_blankLexeme (c : { c : Char // Text.isBlank c = true }) :
    Solid [blankLexeme c] := by
  refine Solid.singleton ?_
  intro h
  have hslash : c.val = '/' := by simpa [blankLexeme, Lexeme.text] using h
  exact absurd (hslash ▸ c.property) (by decide)

theorem Blanks.solid_map (blanks : Blanks) : Solid (blanks.map blankLexeme) := by
  rw [List.map_eq_flatMap]
  exact Solid.flatMap fun c _ => solid_blankLexeme c

theorem Combinator.solid_lexemes (combinator : Combinator) : Solid combinator.lexemes := by
  rw [Combinator.lexemes, List.map_eq_flatMap]
  refine Solid.flatMap fun c _ => Solid.singleton ?_
  intro h
  have hslash : c.val = '/' := by simpa [Lexeme.text] using h
  exact absurd (hslash ▸ combinator.chars c.val c.property) (by decide)

theorem Complex.solid_lexemes (selector : Complex) : Solid selector.lexemes :=
  (Solid.flatMap fun joined _ => joined.1.solid_lexemes.append joined.2.solid_lexemes).append
    selector.last.solid_lexemes

theorem ListItem.solid_lexemes (item : ListItem) : Solid item.lexemes :=
  (item.before.solid_map.append item.selector.solid_lexemes).append item.after.solid_map

theorem SelectorList.solid_lexemes (list : SelectorList) : Solid list.lexemes := by
  refine list.first.solid_lexemes.append (Solid.flatMap fun item _ => ?_)
  exact (Solid.singleton (by simp [comma, Lexeme.text])).append item.solid_lexemes

theorem Gap.solid_lexemes (gap : Gap) : Solid gap.lexemes := by
  rw [Gap.lexemes, List.map_eq_flatMap]
  refine Solid.flatMap fun item _ => ?_
  cases item with
  | blank c => exact solid_blankLexeme c
  | remark comment => exact Solid.singleton (by simp [GapItem.lexeme, Lexeme.text])

/-! ### Splitting a list -/

/-- What an item of a list has outside its brackets: no comma, no brace and no semicolon. -/
abbrev OfItem (lexeme : Lexeme) : Prop :=
  lexeme.IsPlain (fun c => c ≠ ',' ∧ Mark.ofChar? c = none) ∨ ∃ remark, lexeme = .comment remark

theorem OfItem.passed {lexeme : Lexeme} (h : OfItem lexeme) :
    lexeme.IsPlain (· ≠ ',') ∨ ∃ remark, lexeme = .comment remark := by
  refine h.imp_left fun hplain => ?_
  cases lexeme with
  | plain c hquote => exact hplain.1
  | escaped c hordinary => exact hplain
  | string literal => exact hplain
  | comment remark => exact hplain

theorem Nested.mono {first second : Lexeme → Prop} (h : ∀ lexeme, first lexeme → second lexeme)
    {depth : Nat} {lexemes : List Lexeme} (hnested : Nested first depth lexemes) :
    Nested second depth lexemes := by
  induction lexemes generalizing depth with
  | nil => exact hnested
  | cons lexeme lexemes ih =>
    cases depth with
    | zero => exact ⟨h lexeme hnested.1, ih hnested.2⟩
    | succ depth => exact ⟨hnested.1, ih hnested.2⟩

theorem ofChar?_eq_none {c : Char} (hopening : c ≠ '{') (hclosing : c ≠ '}')
    (hsemicolon : c ≠ ';') : Mark.ofChar? c = none := by
  rw [Mark.ofChar?]
  · exact fun h => hopening h
  · exact fun h => hclosing h
  · exact fun h => hsemicolon h

theorem Compound.nested_splitter (compound : Compound) :
    Nested OfItem 0 compound.lexemes := by
  refine Nested.mono (fun _ => .inl)
    (compound.nested_lexemes ?_ (by decide) (by decide) (by decide))
  intro c hc
  have hne := (notMem_of_isSelectorChar hc).2
  simp only [List.mem_cons, not_or] at hne
  exact ⟨hne.1, ofChar?_eq_none hne.2.1 hne.2.2.1 hne.2.2.2.1⟩

theorem nested_blankLexeme (c : { c : Char // Text.isBlank c = true }) :
    Nested OfItem 0 [blankLexeme c] := by
  have hne : ∀ d, Text.isBlank d = false → c.val ≠ d := by
    rintro d hd rfl
    exact absurd c.property (by simp [hd])
  refine ⟨.inl ⟨hne ',' (by decide), ofChar?_eq_none (hne '{' (by decide)) (hne '}' (by decide))
    (hne ';' (by decide))⟩, ?_⟩
  simp [Nested, blankLexeme, Lexeme.nest, nest, hne '(' (by decide), hne '[' (by decide)]

theorem Blanks.nested_map (blanks : Blanks) :
    Nested OfItem 0 (blanks.map blankLexeme) := by
  rw [List.map_eq_flatMap]
  exact Nested.flatMap fun c _ => nested_blankLexeme c

theorem Combinator.nested_lexemes (combinator : Combinator) :
    Nested OfItem 0 combinator.lexemes := by
  rw [Combinator.lexemes, List.map_eq_flatMap]
  refine Nested.flatMap fun c _ => ?_
  have hall : [' ', '\t', '\n', '\r', '>', '+', '~'].all (fun d =>
      decide ((d ≠ ',' ∧ Mark.ofChar? d = none) ∧ nest 0 d = 0)) = true := by decide
  have hchar := List.all_eq_true.mp hall c.val (combinator.chars c.val c.property)
  obtain ⟨hplain, hnest⟩ := of_decide_eq_true hchar
  exact ⟨.inl hplain, hnest⟩

theorem Complex.nested_lexemes (selector : Complex) :
    Nested OfItem 0 selector.lexemes :=
  (Nested.flatMap fun joined _ => joined.1.nested_splitter.append joined.2.nested_lexemes).append
    selector.last.nested_splitter

theorem ListItem.nested_lexemes (item : ListItem) : Nested OfItem 0 item.lexemes :=
  (item.before.nested_map.append item.selector.nested_lexemes).append item.after.nested_map

theorem Gap.nested_lexemes (gap : Gap) : Nested OfItem 0 gap.lexemes := by
  rw [Gap.lexemes, List.map_eq_flatMap]
  refine Nested.flatMap fun item _ => ?_
  cases item with
  | blank c => exact nested_blankLexeme c
  | remark comment => exact ⟨.inr ⟨comment, rfl⟩, rfl⟩

/-- The splitter cuts rows without commas of their own at the commas between them. -/
theorem splitItems_rows {first : List Lexeme} (hfirst : Nested OfItem 0 first)
    {α : Type} (others : List α) (lexemes : α → List Lexeme)
    (hothers : ∀ item ∈ others, Nested OfItem 0 (lexemes item)) :
    splitItems 0 (lexemesClassified (first ++ others.flatMap fun item => comma :: lexemes item))
      = (lexemesText first, others.map fun item => lexemesText (lexemes item)) := by
  have hpassed : ∀ {lexemes : List Lexeme}, Nested OfItem 0 lexemes → Nested _ 0 lexemes :=
    Nested.mono fun _ => OfItem.passed
  rw [lexemesClassified_append, lexemesClassified,
    passing_splitItems.scan_nested (hpassed hfirst)]
  induction others generalizing first with
  | nil => simp [splitItems, keepFirst]
  | cons item others ih =>
    have hitem := hothers item List.mem_cons_self
    rw [List.flatMap_cons, List.cons_append, lexemesClassified_cons, lexemesClassified_append,
      List.map_cons]
    simp only [comma, Lexeme.classified, List.cons_append, List.nil_append]
    rw [splitItems, if_pos (by simp), lexemesClassified,
      passing_splitItems.scan_nested (hpassed hitem), ← comma, ih hitem fun i hi => hothers i (List.mem_cons_of_mem _ hi)]
    simp [keepFirst]

/-- The items of a list, the gap in front of the list being part of the first. -/
theorem SelectorList.splitList_text (gap : Gap) (list : SelectorList) :
    splitList (gap.text ++ list.text)
      = (gap.text ++ list.first.text) :: list.others.map ListItem.text := by
  have hsolid : Solid (gap.lexemes ++ list.lexemes) := gap.solid_lexemes.append list.solid_lexemes
  have hclassify : classify (gap.text ++ list.text)
      = lexemesClassified (gap.lexemes ++ list.lexemes) := by
    have := classify_lexemes hsolid.joins (show ([] : List Char).head? ≠ some '*' by simp)
    simpa [classify, Place.classify, gap.lexemesText_lexemes, list.lexemesText_lexemes] using this
  have hfirst := gap.nested_lexemes.append list.first.nested_lexemes
  have hrows := splitItems_rows hfirst list.others ListItem.lexemes
    fun item _ => item.nested_lexemes
  rw [List.append_assoc] at hrows
  rw [splitList, hclassify, SelectorList.lexemes, hrows]
  simp [gap.lexemesText_lexemes, ListItem.lexemesText_lexemes]

/-! ### Trimming an item -/

/-- A character that no trimming takes away. -/
def IsFirm (c : Char) : Prop :=
  Text.isBlank c = false ∧ c ≠ '/'

theorem dropLead_firm {c : Char} (h : IsFirm c) (rest : List Char) :
    dropLead false (c :: rest) = c :: rest := by
  rw [dropLead]
  · simp [h.1]
  · exact fun _ hslash => absurd hslash h.2

theorem dropTrail_firm {c : Char} (h : IsFirm c) (rest : List Char) :
    dropTrail none (c :: rest) = c :: rest := by
  rw [dropTrail]
  · simp [h.1]
  · exact fun _ hslash => absurd hslash h.2

theorem ne_slash_of_isBlank {c : Char} (h : Text.isBlank c = true) : c ≠ '/' := by
  rintro rfl
  exact absurd h (by decide)

theorem dropLead_comment_tail (comment : Comment) (rest : List Char) :
    dropLead true (comment.tail ++ rest) = dropLead false rest := by
  refine scan_comment_tail (dropLead false) keeping_dropped comment ?_ ?_ rest
  · intro c rest hslash
    rw [dropLead]
    rintro _ rfl rfl
    exact hslash rfl rfl
  · intro rest
    rw [dropLead]

/-- Trimming takes a gap away. -/
theorem Gap.trimStart_text (gap : Gap) (rest : List Char) :
    trimStart (gap.text ++ rest) = trimStart rest := by
  simp only [trimStart]
  induction gap with
  | nil => rfl
  | cons item gap ih =>
    rw [Gap.text, List.flatMap_cons, List.append_assoc, ← Gap.text, ← ih]
    cases item with
    | blank c =>
      simp only [GapItem.lexeme, blankLexeme, Lexeme.text, List.cons_append, List.nil_append]
      rw [dropLead, if_pos c.property]
      exact fun _ hslash => absurd hslash (ne_slash_of_isBlank c.property)
    | remark comment =>
      simp only [GapItem.lexeme, Lexeme.text, List.cons_append]
      rw [dropLead, dropLead_comment_tail]

theorem Blanks.trimEnd_text (blanks : Blanks) (text : List Char) {c : Char} (h : IsFirm c) :
    trimEnd (text ++ [c] ++ blanks.text) = text ++ [c] := by
  have hdrop : ∀ blanks : Blanks, dropTrail none (blanks.text ++ c :: text.reverse)
      = c :: text.reverse := by
    intro blanks
    induction blanks with
    | nil => exact dropTrail_firm h _
    | cons blank blanks ih =>
      rw [Blanks.text, List.map_cons, List.cons_append, dropTrail, if_pos blank.property]
      · exact ih
      · exact fun _ hslash => absurd hslash (ne_slash_of_isBlank blank.property)
  have hreverse : (Blanks.text blanks).reverse = Blanks.text blanks.reverse := by
    simp [Blanks.text]
  simp [trimEnd, hreverse, hdrop]

/-! ### The ends of a selector -/

/-- A text that begins and ends with firm characters. -/
structure Firm (text : List Char) : Prop where
  head : ∃ c rest, text = c :: rest ∧ IsFirm c ∧ c ≠ '@'
  last : ∃ rest c, text = rest ++ [c] ∧ IsFirm c

theorem Firm.append {first second : List Char} (hfirst : Firm first) (hsecond : Firm second)
    (between : List Char) : Firm (first ++ between ++ second) := by
  obtain ⟨c, rest, rfl, hc⟩ := hfirst.head
  obtain ⟨rest', d, rfl, hd⟩ := hsecond.last
  exact ⟨⟨c, _, rfl, hc⟩, ⟨_, d, (List.append_assoc _ _ _).symm, hd⟩⟩

theorem isFirm_of_isSelectorChar {c : Char} (h : isSelectorChar c = true) :
    IsFirm c ∧ c ≠ '@' := by
  have hne := (notMem_of_isSelectorChar h).2
  simp only [List.mem_cons, not_or] at hne
  exact ⟨⟨(notMem_of_isSelectorChar h).1, by simp [hne]⟩, by simp [hne]⟩

theorem Part.firm_text (part : Part) : Firm part.text := by
  have hcolon : IsFirm ':' ∧ ':' ≠ '@' := ⟨⟨by decide, by decide⟩, by decide⟩
  cases part with
  | name c =>
    have := isFirm_of_isSelectorChar c.property
    exact ⟨⟨c.val, [], rfl, this⟩, ⟨[], c.val, rfl, this.1⟩⟩
  | test content =>
    exact ⟨⟨'[', _, rfl, ⟨by decide, by decide⟩, by decide⟩,
      ⟨'[' :: content.text, ']', rfl, by decide, by decide⟩⟩
  | pseudo twice label arguments =>
    have hhead : ∃ rest, (Part.pseudo twice label arguments).text = ':' :: rest := by
      cases twice <;> simp [Part.text]
    obtain ⟨rest, hrest⟩ := hhead
    refine ⟨⟨':', rest, hrest, hcolon⟩, ?_⟩
    cases arguments with
    | some content =>
      refine ⟨(if twice then [':', ':'] else [':']) ++ label.map Subtype.val
        ++ ('(' :: content.text), ')', ?_, by decide, by decide⟩
      simp [Part.text]
    | none =>
      -- Without arguments the part ends in a name, or in a colon when the name is empty.
      rcases List.eq_nil_or_concat label with rfl | ⟨front, c, rfl⟩
      · cases twice with
        | false => exact ⟨[], ':', rfl, hcolon.1⟩
        | true => exact ⟨[':'], ':', rfl, hcolon.1⟩
      · refine ⟨(if twice then [':', ':'] else [':']) ++ front.map Subtype.val, c.val, ?_,
          (isFirm_of_isSelectorChar c.property).1⟩
        simp [Part.text]

theorem Compound.firm_text (compound : Compound) : Firm compound.text := by
  obtain ⟨parts, hne⟩ := compound
  simp only [Compound.text]
  induction parts with
  | nil => exact absurd rfl hne
  | cons part parts ih =>
    cases parts with
    | nil => simpa using part.firm_text
    | cons next parts =>
      rw [List.flatMap_cons, ← List.append_nil part.text]
      exact part.firm_text.append (ih (by simp)) []

theorem Complex.firm_text (selector : Complex) : Firm selector.text := by
  obtain ⟨before, last⟩ := selector
  simp only [Complex.text, Complex.lead]
  induction before with
  | nil => exact last.firm_text
  | cons joined before ih =>
    rw [List.flatMap_cons, List.append_assoc]
    exact joined.1.firm_text.append ih joined.2.text

/-! ### Scoping a list -/

/-- Scoping an item scopes its selector and keeps what stands around it. -/
theorem scopeItem_text (marker : List Char) (gap : Gap) (selector : Complex) (blanks : Blanks) :
    scopeItem marker (gap.text ++ selector.text ++ blanks.text)
      = gap.text ++ selector.scopedWith marker ++ blanks.text := by
  have hstart : trimStart (gap.text ++ selector.text ++ blanks.text)
      = selector.text ++ blanks.text := by
    obtain ⟨c, rest, hc, hfirm, -⟩ := selector.firm_text.head
    rw [List.append_assoc, gap.trimStart_text, hc]
    exact dropLead_firm hfirm _
  have hend : trimEnd (selector.text ++ blanks.text) = selector.text := by
    obtain ⟨rest, c, hc, hfirm⟩ := selector.firm_text.last
    rw [hc]
    exact blanks.trimEnd_text rest hfirm
  have hne : selector.text.isEmpty = false := by
    obtain ⟨c, rest, hc, -⟩ := selector.firm_text.head
    rw [hc]
    rfl
  have hlead : (gap.text ++ selector.text ++ blanks.text).take
      ((gap.text ++ selector.text ++ blanks.text).length
        - (selector.text ++ blanks.text).length) = gap.text := by
    rw [List.append_assoc, List.length_append, Nat.add_sub_cancel, List.take_left]
  rw [scopeItem]
  simp only [hstart, hend, hne, hlead, Bool.false_eq_true, if_false, List.drop_left,
    selector.scopeSelector_text]

/-- Blanks are a gap without comments. -/
def Blanks.gap (blanks : Blanks) : Gap :=
  blanks.map GapItem.blank

theorem Blanks.text_gap (blanks : Blanks) : blanks.gap.text = blanks.text := by
  rw [Blanks.gap, Gap.text, List.flatMap_map, Blanks.text, List.map_eq_flatMap]
  rfl

theorem intercalate_comma (first : List Char) (others : List (List Char)) :
    [','].intercalate (first :: others) = first ++ others.flatMap (',' :: ·) := by
  induction others generalizing first with
  | nil => simp
  | cons item others ih =>
    rw [List.flatMap_cons, List.cons_append, ← ih, List.intercalate_cons_cons]
    simp

/-- Scoping a list scopes each of its selectors and nothing else. -/
theorem SelectorList.scopeList_text (marker : List Char) (gap : Gap) (list : SelectorList) :
    scopeList marker (gap.text ++ list.text) = gap.text ++ list.scopedWith marker := by
  have hitem : ∀ item : ListItem, scopeItem marker item.text = item.scopedWith marker := by
    intro item
    rw [ListItem.text, ← item.before.text_gap, scopeItem_text, item.before.text_gap]
    rfl
  have hfirst : scopeItem marker (gap.text ++ list.first.text)
      = gap.text ++ list.first.scopedWith marker := by
    have htext : ∀ rest, gap.text ++ (list.first.before.text ++ rest)
        = Gap.text (gap ++ list.first.before.gap) ++ rest := by
      intro rest
      rw [Gap.text_append, Blanks.text_gap, List.append_assoc]
    rw [ListItem.text, ListItem.scopedWith, List.append_assoc, List.append_assoc, htext, htext,
      ← List.append_assoc, ← List.append_assoc, scopeItem_text]
  rw [scopeList, list.splitList_text, List.map_cons, hfirst, intercalate_comma, List.map_map,
    List.flatMap_map, SelectorList.scopedWith, List.append_assoc]
  simp only [Function.comp_def, hitem]

end SiteTree.Stylesheet
