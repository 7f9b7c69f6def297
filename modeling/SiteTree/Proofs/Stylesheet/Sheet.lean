import SiteTree.Proofs.Stylesheet.SelectorList

/-!
# The grammar of stylesheets

A stylesheet is a row of statements, style rules, group rules and other at-rules. A group rule
holds a stylesheet again; what the braces of the other rules hold is any text whose own braces
are matched.

* `Sheet.scope_text` — scoping a stylesheet scopes the selector lists of the style rules that
  stand at top level or directly in group rules, nested to any depth, and copies the rest.
* `Body.scopedIn_eq_text` — a body in which no group rule is nested is copied as it is.
-/

namespace SiteTree.Stylesheet

/-! ### Code -/

/-- Text without braces and semicolons, but for those in its literals and comments. -/
structure Code where
  lexemes : List Lexeme
  joins : lexemes.IsChain Lexeme.Joins
  unmarked : ∀ lexeme ∈ lexemes, lexeme.Unmarked

def Code.text (code : Code) : List Char :=
  lexemesText code.lexemes

theorem Lexeme.Unmarked.ofChar? {lexeme : Lexeme} (h : lexeme.Unmarked) {c : Char}
    (hc : (c, true) ∈ lexeme.classified) : Mark.ofChar? c = none := by
  cases lexeme with
  | plain d hquote =>
    obtain rfl : c = d := by simpa [Lexeme.classified] using hc
    exact h
  | escaped d hordinary =>
    rcases List.mem_pair.mp hc with hc | hc
    · cases hc
      rfl
    · cases hc
      have hne := hordinary
      simp only [isOrdinary, List.contains_eq_mem, List.mem_cons, Bool.not_eq_true',
        decide_eq_false_iff_not, not_or] at hne
      exact ofChar?_eq_none hne.2.2.2.2.2.2.1 hne.2.2.2.2.2.2.2.1 hne.2.2.2.2.2.2.2.2.1
  | string literal => simp [Lexeme.classified] at hc
  | comment remark => simp [Lexeme.classified] at hc

/-- A character that is no mark joins the segment behind it. -/
theorem splitSegments_cons {c : Char} {code : Bool}
    (h : code = true → Mark.ofChar? c = none) (rest : List (Char × Bool)) :
    splitSegments ((c, code) :: rest)
      = match splitSegments rest with
        | ([], tail) => ([], c :: tail)
        | (first :: more, tail) => (⟨c :: first.text, first.mark⟩ :: more, tail) := by
  have hmark : (if code then Mark.ofChar? c else none) = none := by
    cases code with
    | false => rfl
    | true => exact h rfl
  rw [splitSegments]
  simp only [hmark]
  rcases splitSegments rest with ⟨_ | ⟨first, more⟩, tail⟩ <;> rfl

/-- A row of characters without marks is passed over up to the mark that ends it. -/
theorem splitSegments_mark {chars : List (Char × Bool)}
    (hchars : ∀ c, (c, true) ∈ chars → Mark.ofChar? c = none) (mark : Mark)
    (rest : List (Char × Bool)) :
    splitSegments (chars ++ (mark.char, true) :: rest)
      = (⟨chars.map Prod.fst, mark⟩ :: (splitSegments rest).1, (splitSegments rest).2) := by
  induction chars with
  | nil => cases mark <;> rfl
  | cons head chars ih =>
    obtain ⟨c, code⟩ := head
    rw [List.cons_append, splitSegments_cons, ih fun d hd => hchars d (List.mem_cons_of_mem _ hd),
      List.map_cons]
    rintro rfl
    exact hchars c List.mem_cons_self

theorem splitSegments_unmarked {chars : List (Char × Bool)}
    (hchars : ∀ c, (c, true) ∈ chars → Mark.ofChar? c = none) :
    splitSegments chars = ([], chars.map Prod.fst) := by
  induction chars with
  | nil => rfl
  | cons head chars ih =>
    obtain ⟨c, code⟩ := head
    rw [splitSegments_cons, ih fun d hd => hchars d (List.mem_cons_of_mem _ hd), List.map_cons]
    rintro rfl
    exact hchars c List.mem_cons_self

namespace Code

theorem ofChar?_classified (code : Code) {c : Char}
    (hc : (c, true) ∈ lexemesClassified code.lexemes) : Mark.ofChar? c = none := by
  obtain ⟨lexeme, hlexeme, hc⟩ := List.mem_flatMap.mp hc
  exact (code.unmarked lexeme hlexeme).ofChar? hc

theorem segments_text (code : Code) : segments code.text = ([], code.text) := by
  have hclassify : classify code.text = lexemesClassified code.lexemes := by
    have := classify_lexemes code.joins (show ([] : List Char).head? ≠ some '*' by simp)
    simpa [classify, Place.classify, Code.text] using this
  rw [segments, hclassify, splitSegments_unmarked fun _ => code.ofChar?_classified,
    map_fst_lexemesClassified]
  rfl

theorem segments_mark (code : Code) (mark : Mark) (rest : List Char) :
    segments (code.text ++ mark.char :: rest)
      = (⟨code.text, mark⟩ :: (segments rest).1, (segments rest).2) := by
  have hmark : classify (mark.char :: rest) = (mark.char, true) :: classify rest := by
    refine classify_code_cons ?_ ?_
    · cases mark <;> decide
    · cases mark <;> simp [Mark.char]
  have hclassify : classify (code.text ++ mark.char :: rest)
      = lexemesClassified code.lexemes ++ (mark.char, true) :: classify rest := by
    rw [← hmark]
    exact classify_lexemes code.joins (by cases mark <;> simp [Mark.char])
  rw [segments, hclassify, splitSegments_mark fun _ => code.ofChar?_classified,
    map_fst_lexemesClassified]
  rfl

end Code

/-! ### Steps of the scan -/

/-- What becomes of a text that stands where the given blocks are open, innermost first. -/
def scopeFrom (marker : List Char) (blocks : List Block) (css : List Char) : List Char :=
  scopeSegments marker blocks (segments css).1 ++ (segments css).2

section Steps

variable (marker : List Char) (blocks : List Block) (code : Code) (rest : List Char)

theorem scopeFrom_code : scopeFrom marker blocks code.text = code.text := by
  rw [scopeFrom, code.segments_text, scopeSegments]
  rfl

theorem scopeFrom_semicolon :
    scopeFrom marker blocks (code.text ++ ';' :: rest)
      = code.text ++ ';' :: scopeFrom marker blocks rest := by
  have := code.segments_mark .semicolon rest
  rw [Mark.char] at this
  rw [scopeFrom, this]
  simp [scopeSegments, scopeFrom]

theorem scopeFrom_closing :
    scopeFrom marker blocks (code.text ++ '}' :: rest)
      = code.text ++ '}' :: scopeFrom marker blocks.tail rest := by
  have := code.segments_mark .closing rest
  rw [Mark.char] at this
  rw [scopeFrom, this]
  simp [scopeSegments, scopeFrom]

/-- The head of a block as it is written out: the selectors of a style rule are scoped where
`inside` says so. -/
def scopeHead (inside : Bool) (head : List Char) : List Char :=
  if Block.ofHead head = .rule ∧ inside then scopeList marker head else head

theorem scopeFrom_opening :
    scopeFrom marker blocks (code.text ++ '{' :: rest)
      = scopeHead marker (scopesInside blocks) code.text
        ++ '{' :: scopeFrom marker (Block.ofHead code.text :: blocks) rest := by
  have := code.segments_mark .opening rest
  rw [Mark.char] at this
  rw [scopeFrom, this]
  simp [scopeSegments, scopeFrom, scopeHead]

end Steps

/-- Behind any code, the scan turns `ending` into `answer`. -/
def Ends (marker : List Char) (blocks : List Block) (ending answer : List Char) : Prop :=
  ∀ code : Code, scopeFrom marker blocks (code.text ++ ending) = code.text ++ answer

theorem ends_nil (marker : List Char) (blocks : List Block) : Ends marker blocks [] [] := by
  intro code
  rw [List.append_nil, scopeFrom_code]

theorem ends_closing (marker : List Char) (blocks : List Block) (rest : List Char) :
    Ends marker blocks ('}' :: rest) ('}' :: scopeFrom marker blocks.tail rest) :=
  fun code => scopeFrom_closing marker blocks code rest

/-! ### Bodies -/

/-- What a pair of braces can hold: any text whose own braces are matched. -/
inductive Body where
  | last (code : Code)
  | semicolon (head : Code) (rest : Body)
  | block (head : Code) (body rest : Body)

namespace Body

def text : Body → List Char
  | last code => code.text
  | semicolon head rest => head.text ++ ';' :: rest.text
  | block head body rest => head.text ++ '{' :: (body.text ++ '}' :: rest.text)

/-- A body with the marker required of the selectors that stand directly in a group rule, and
of those that stand in no block of the body if `inside` says so. -/
def scopedIn (marker : List Char) : Bool → Body → List Char
  | _, last code => code.text
  | inside, semicolon head rest => head.text ++ ';' :: rest.scopedIn marker inside
  | inside, block head body rest =>
    scopeHead marker inside head.text
      ++ '{' :: (body.scopedIn marker (Block.ofHead head.text == .group)
      ++ '}' :: rest.scopedIn marker inside)

/-- Does a body hold a group rule at any depth? -/
def hasGroup : Body → Bool
  | last _ => false
  | semicolon _ rest => rest.hasGroup
  | block head body rest =>
    Block.ofHead head.text == .group || body.hasGroup || rest.hasGroup

/-- A body without group rules is copied. -/
theorem scopedIn_eq_text (marker : List Char) {body : Body} (h : body.hasGroup = false) :
    body.scopedIn marker false = body.text := by
  induction body with
  | last code => rfl
  | semicolon head rest ih => rw [scopedIn, text, ih h]
  | block head body rest ihBody ihRest =>
    simp only [hasGroup, Bool.or_eq_false_iff] at h
    obtain ⟨⟨hhead, hbody⟩, hrest⟩ := h
    rw [scopedIn, text, hhead, ihBody hbody, ihRest hrest, scopeHead, if_neg (by simp)]

/-- The scan of a body that stands where the given blocks are open. -/
theorem scopeFrom_text {marker : List Char} {blocks : List Block} {ending answer : List Char}
    (hends : Ends marker blocks ending answer) (body : Body) :
    scopeFrom marker blocks (body.text ++ ending)
      = body.scopedIn marker (scopesInside blocks) ++ answer := by
  induction body generalizing blocks ending answer with
  | last code => exact hends code
  | semicolon head rest ih =>
    rw [text, List.append_assoc, List.cons_append, scopeFrom_semicolon, ih hends, scopedIn,
      List.append_assoc, List.cons_append]
  | block head body rest ihBody ihRest =>
    -- The block of `head` is open in its body, and closed again behind the brace.
    have hbody := ihBody (ends_closing marker (Block.ofHead head.text :: blocks)
      (rest.text ++ ending))
    rw [List.tail_cons, ihRest hends] at hbody
    simp only [text, scopedIn, List.append_assoc, List.cons_append]
    rw [scopeFrom_opening, hbody]
    rfl

theorem scopeText_text (marker : List Char) (body : Body) :
    scopeText marker body.text = body.scopedIn marker true := by
  have := scopeFrom_text (ends_nil marker []) body
  rwa [List.append_nil, List.append_nil] at this

end Body

/-! ### Heads of blocks -/

theorem Nested.unmarked {outside : Lexeme → Prop} {depth : Nat} {lexemes : List Lexeme}
    (houtside : ∀ lexeme, outside lexeme → lexeme.Unmarked) (h : Nested outside depth lexemes) :
    ∀ lexeme ∈ lexemes, lexeme.Unmarked := by
  induction lexemes generalizing depth with
  | nil => simp
  | cons lexeme lexemes ih =>
    have hlexeme : lexeme.Unmarked := by
      cases depth with
      | zero => exact houtside lexeme h.1
      | succ depth =>
        cases lexeme with
        | plain c hquote => exact h.1.1
        | escaped c hordinary => trivial
        | string literal => trivial
        | comment remark => trivial
    have hrest : ∃ next, Nested outside next lexemes := by
      cases depth with
      | zero => exact ⟨_, h.2⟩
      | succ depth => exact ⟨_, h.2⟩
    obtain ⟨next, hnext⟩ := hrest
    rintro other (_ | ⟨_, hother⟩)
    · exact hlexeme
    · exact ih hnext other hother

theorem OfItem.unmarked {lexeme : Lexeme} (h : OfItem lexeme) : lexeme.Unmarked := by
  rcases h with hplain | ⟨remark, rfl⟩
  · cases lexeme with
    | plain c hquote => exact hplain.2
    | escaped c hordinary => trivial
    | string literal => trivial
    | comment remark => trivial
  · trivial

theorem Gap.unmarked (gap : Gap) : ∀ lexeme ∈ gap.lexemes, lexeme.Unmarked :=
  gap.nested_lexemes.unmarked fun _ => OfItem.unmarked

/-- A list of selectors as a stretch of code, with what stands in front of it. -/
def SelectorList.code (gap : Gap) (list : SelectorList) : Code where
  lexemes := gap.lexemes ++ list.lexemes
  joins := (gap.solid_lexemes.append list.solid_lexemes).joins
  unmarked := by
    have hitem (item : ListItem) : ∀ lexeme ∈ item.lexemes, lexeme.Unmarked :=
      item.nested_lexemes.unmarked fun _ => OfItem.unmarked
    intro lexeme hlexeme
    simp only [SelectorList.lexemes, List.mem_append, List.mem_flatMap, List.mem_cons] at hlexeme
    rcases hlexeme with hgap | hfirst | ⟨item, -, rfl | hlexeme⟩
    · exact gap.unmarked lexeme hgap
    · exact hitem list.first lexeme hfirst
    · rfl
    · exact hitem item lexeme hlexeme

theorem SelectorList.text_code (gap : Gap) (list : SelectorList) :
    (list.code gap).text = gap.text ++ list.text := by
  rw [Code.text, SelectorList.code, lexemesText_append, gap.lexemesText_lexemes,
    list.lexemesText_lexemes]

/-- A list of selectors is the head of a style rule. -/
theorem SelectorList.ofHead_text (gap : Gap) (list : SelectorList) :
    Block.ofHead (gap.text ++ list.text) = .rule := by
  obtain ⟨c, rest, hc, hfirm, hat⟩ := list.first.selector.firm_text.head
  have htext : list.text = list.first.before.gap.text ++ c :: (rest ++ list.first.after.text
      ++ list.others.flatMap fun item => ',' :: item.text) := by
    simp [SelectorList.text, ListItem.text, hc, Blanks.text_gap]
  have htrim : (trimStart (gap.text ++ list.text)).head? = some c := by
    rw [gap.trimStart_text, htext, Gap.trimStart_text, trimStart, dropLead_firm hfirm]
    rfl
  rw [Block.ofHead]
  simp [htrim, hat]

/-- What stands before the block of an at-rule: its name and, from a blank or an opening
parenthesis on, its condition. -/
structure AtHead where
  before : Gap
  name : List SelectorChar
  condition : Code
  separated : ∀ c ∈ condition.text.head?, Text.isBlank c = true ∨ c = '('

namespace AtHead

def text (head : AtHead) : List Char :=
  head.before.text ++ '@' :: (head.name.map Subtype.val ++ head.condition.text)

/-- Does the at-rule only group style rules? The case of the letters of its name is of no
account. -/
def isGroup (head : AtHead) : Bool :=
  groupRules.contains (('@' :: head.name.map Subtype.val).map Char.toLower)

def code (head : AtHead) : Code where
  lexemes := head.before.lexemes ++ [.plain '@' (by decide)] ++ head.name.map nameLexeme
    ++ head.condition.lexemes
  joins := by
    refine Solid.isChain_append (Solid.append (head.before.solid_lexemes.append ?_) ?_)
      head.condition.joins
    · exact Solid.singleton (by simp [Lexeme.text])
    · rw [List.map_eq_flatMap]
      exact Solid.flatMap fun c _ => solid_nameLexeme c
  unmarked := by
    intro lexeme hlexeme
    simp only [List.mem_append, List.mem_singleton, List.mem_map] at hlexeme
    rcases hlexeme with ((hgap | rfl) | ⟨c, -, rfl⟩) | hcondition
    · exact head.before.unmarked lexeme hgap
    · rfl
    · have hne := (notMem_of_isSelectorChar c.property).2
      simp only [List.mem_cons, not_or] at hne
      exact ofChar?_eq_none hne.2.1 hne.2.2.1 hne.2.2.2.1
    · exact head.condition.unmarked lexeme hcondition

theorem text_code (head : AtHead) : head.code.text = head.text := by
  simp [Code.text, AtHead.code, AtHead.text, head.before.lexemesText_lexemes,
    lexemesText_map_nameLexeme, Lexeme.text]

/-- The name of an at-rule is read to its end and no further. -/
theorem ofHead_text (head : AtHead) :
    Block.ofHead head.text = if head.isGroup then .group else .other := by
  have htrim : trimStart head.text
      = ('@' :: head.name.map Subtype.val) ++ head.condition.text := by
    rw [AtHead.text, head.before.trimStart_text]
    exact dropLead_firm ⟨by decide, by decide⟩ _
  have hname : (trimStart head.text).takeWhile (fun c => !Text.isBlank c && c != '(')
      = '@' :: head.name.map Subtype.val := by
    rw [htrim, List.takeWhile_append_of_pos]
    · cases hcondition : head.condition.text with
      | nil => simp
      | cons c rest =>
        have hc := head.separated c (by simp [hcondition])
        rw [List.takeWhile_cons_of_neg, List.append_nil]
        rcases hc with hc | rfl <;> simp [*]
    · intro c hc
      rcases List.mem_cons.mp hc with rfl | hc
      · decide
      · obtain ⟨d, -, rfl⟩ := List.mem_map.mp hc
        have hd := notMem_of_isSelectorChar d.property
        simp only [List.mem_cons, not_or] at hd
        simp [hd]
  rw [Block.ofHead]
  simp only [hname, AtHead.isGroup]
  rw [htrim, List.cons_append, List.head?_cons, if_pos rfl]
  rfl

end AtHead

/-! ### Stylesheets -/

/-- A stylesheet. -/
inductive Sheet where
  /-- the end: blanks, or any code that nothing ends -/
  | last (code : Code)
  /-- a statement, up to its semicolon -/
  | statement (code : Code) (rest : Sheet)
  | style (before : Gap) (list : SelectorList) (body : Body) (rest : Sheet)
  | group (head : AtHead) (isGroup : head.isGroup = true) (inner rest : Sheet)
  /-- an at-rule that does not group style rules -/
  | other (head : AtHead) (isOther : head.isGroup = false) (body : Body) (rest : Sheet)

namespace Sheet

def text : Sheet → List Char
  | last code => code.text
  | statement code rest => code.text ++ ';' :: rest.text
  | style before list body rest =>
    before.text ++ list.text ++ '{' :: (body.text ++ '}' :: rest.text)
  | group head _ inner rest => head.text ++ '{' :: (inner.text ++ '}' :: rest.text)
  | other head _ body rest => head.text ++ '{' :: (body.text ++ '}' :: rest.text)

/-- The stylesheet with the marker required of all selectors of its style rules. -/
def scopedWith (marker : List Char) : Sheet → List Char
  | last code => code.text
  | statement code rest => code.text ++ ';' :: rest.scopedWith marker
  | style before list body rest =>
    before.text ++ list.scopedWith marker
      ++ '{' :: (body.scopedIn marker false ++ '}' :: rest.scopedWith marker)
  | group head _ inner rest =>
    head.text ++ '{' :: (inner.scopedWith marker ++ '}' :: rest.scopedWith marker)
  | other head _ body rest =>
    head.text ++ '{' :: (body.scopedIn marker false ++ '}' :: rest.scopedWith marker)

/-- The scan of a stylesheet that stands at top level or in group rules. -/
theorem scopeFrom_text {marker : List Char} {blocks : List Block} {ending answer : List Char}
    (hinside : scopesInside blocks = true) (hends : Ends marker blocks ending answer)
    (sheet : Sheet) :
    scopeFrom marker blocks (sheet.text ++ ending) = sheet.scopedWith marker ++ answer := by
  induction sheet generalizing blocks ending answer with
  | last code => exact hends code
  | statement code rest ih =>
    rw [text, List.append_assoc, List.cons_append, scopeFrom_semicolon, ih hinside hends,
      scopedWith, List.append_assoc, List.cons_append]
  | style before list body rest ih =>
    have hhead : scopeHead marker true (before.text ++ list.text)
        = before.text ++ list.scopedWith marker := by
      rw [scopeHead, list.ofHead_text before, if_pos ⟨rfl, rfl⟩, list.scopeList_text]
    have hbody := body.scopeFrom_text (ends_closing marker (.rule :: blocks) (rest.text ++ ending))
    rw [List.tail_cons, ih hinside hends] at hbody
    simp only [text, scopedWith, List.append_assoc, List.cons_append]
    rw [← List.append_assoc before.text, ← list.text_code before, scopeFrom_opening,
      list.text_code before, hinside, hhead, list.ofHead_text before, hbody, List.append_assoc]
    rfl
  | group head isGroup inner rest ihInner ihRest =>
    have hinner := ihInner (by rfl) (ends_closing marker (.group :: blocks) (rest.text ++ ending))
    rw [List.tail_cons, ihRest hinside hends] at hinner
    simp only [text, scopedWith, List.append_assoc, List.cons_append]
    rw [← head.text_code, scopeFrom_opening, head.text_code, scopeHead, head.ofHead_text, isGroup,
      if_pos rfl, if_neg (by simp), hinner]
  | other head isOther body rest ih =>
    have hbody := body.scopeFrom_text (ends_closing marker (.other :: blocks) (rest.text ++ ending))
    rw [List.tail_cons, ih hinside hends] at hbody
    simp only [text, scopedWith, List.append_assoc, List.cons_append]
    rw [← head.text_code, scopeFrom_opening, head.text_code, scopeHead, head.ofHead_text, isOther,
      if_neg (by simp), if_neg (by simp), hbody]
    rfl

/-- Scoping a sheet requires the class of every selector of its style rules, those in group rules
among them, and changes nothing else. -/
theorem scope_text (sheet : Sheet) (cls : String) :
    scope (String.ofList sheet.text) cls
      = String.ofList (sheet.scopedWith ('.' :: cls.toList)) := by
  have := scopeFrom_text (show scopesInside [] = true from rfl)
    (ends_nil ('.' :: cls.toList) []) sheet
  rw [List.append_nil, List.append_nil] at this
  rw [scope, String.toList_ofList, ← this]
  rfl

example :
    scope "@Media (x) { a, b > c:hover { d { e } } }" "-q"
      = "@Media (x) { a.-q, b > c.-q:hover { d { e } } }" := by
  decide

end Sheet

end SiteTree.Stylesheet
