import SiteTree.Proofs.Stylesheet.Token
import SiteTree.Proofs.Stylesheet.Sheet

/-!
# Segments and open blocks

A stylesheet is scoped segment by segment, and all that one segment leaves behind for the next are
the blocks that are open. So a stylesheet can be scoped in parts, if it is cut where no block, no
selector, no comment and no string is open.

* `scopeSegments_append` — what segments leave behind are the blocks that are open.
* `segments_append` — behind the mark of a segment the scan begins anew, whatever follows.
* `scope_append` — scoping a stylesheet that is closed and one behind it is scoping both.
-/

namespace SiteTree.Stylesheet

/-! ### Blocks that are open -/

/-- The blocks that are open behind a segment, innermost first. -/
def Segment.openBlocks (blocks : List Block) (segment : Segment) : List Block :=
  match segment.mark with
  | .opening => Block.ofHead segment.text :: blocks
  | .closing => blocks.tail
  | .semicolon => blocks

/-- The blocks that are open behind a row of segments. -/
def openBlocks (blocks : List Block) (row : List Segment) : List Block :=
  row.foldl Segment.openBlocks blocks

/-- Is the segment the head of a style rule whose selectors are scoped? -/
def Segment.IsScoped (blocks : List Block) (segment : Segment) : Prop :=
  segment.mark = .opening ∧ Block.ofHead segment.text = .rule ∧ scopesInside blocks = true

instance (blocks : List Block) (segment : Segment) : Decidable (segment.IsScoped blocks) :=
  inferInstanceAs (Decidable (_ ∧ _ ∧ _))

/-- The text of a segment as it is written where the given blocks are open. -/
def Segment.scoped (marker : List Char) (blocks : List Block) (segment : Segment) : List Char :=
  if segment.IsScoped blocks then scopeList marker segment.text else segment.text

theorem scopeSegments_cons (marker : List Char) (blocks : List Block) (segment : Segment)
    (row : List Segment) :
    scopeSegments marker blocks (segment :: row)
      = segment.scoped marker blocks ++ segment.mark.char
        :: scopeSegments marker (segment.openBlocks blocks) row := by
  obtain ⟨text, mark⟩ := segment
  cases mark <;> simp [scopeSegments, Segment.scoped, Segment.IsScoped, Segment.openBlocks,
    Mark.char]

theorem scopeSegments_append (marker : List Char) (blocks : List Block)
    (first second : List Segment) :
    scopeSegments marker blocks (first ++ second)
      = scopeSegments marker blocks first
        ++ scopeSegments marker (openBlocks blocks first) second := by
  induction first generalizing blocks with
  | nil => rfl
  | cons segment first ih =>
    rw [List.cons_append, scopeSegments_cons, scopeSegments_cons, ih, List.append_assoc]
    rfl

/-! ### In front of a text -/

/-- Puts a text in front of the first segment, or in front of the tail when there is none. -/
def joinFirst (text : List Char) : List Segment × List Char → List Segment × List Char
  | ([], tail) => ([], text ++ tail)
  | (first :: row, tail) => (⟨text ++ first.text, first.mark⟩ :: row, tail)

theorem keeping_joinFirst : Keeping joinFirst := by
  refine ⟨?_, ?_⟩
  · rintro ⟨_ | ⟨first, row⟩, tail⟩ <;> rfl
  · rintro first second ⟨_ | ⟨segment, row⟩, tail⟩ <;> simp [joinFirst]

theorem splitSegments_joinFirst {c : Char} {code : Bool} (h : code = true → Mark.ofChar? c = none)
    (chars : List (Char × Bool)) :
    splitSegments ((c, code) :: chars) = joinFirst [c] (splitSegments chars) := by
  rw [splitSegments_cons h]
  obtain ⟨_ | ⟨first, row⟩, tail⟩ := splitSegments chars <;> rfl

theorem splitSegments_hidden (text : List Char) (chars : List (Char × Bool)) :
    splitSegments (text.map (·, false) ++ chars) = joinFirst text (splitSegments chars) := by
  induction text with
  | nil => exact (keeping_joinFirst.nil _).symm
  | cons c text ih =>
    rw [List.map_cons, List.cons_append, splitSegments_joinFirst (by simp), ih,
      ← keeping_joinFirst.append]
    rfl

theorem segments_mark (mark : Mark) (rest : List Char) :
    segments (mark.char :: rest) = (⟨[], mark⟩ :: (segments rest).1, (segments rest).2) := by
  have hquote : isQuote mark.char = false := by cases mark <;> rfl
  have hmark : Mark.ofChar? mark.char = some mark := by cases mark <;> rfl
  rw [segments, classify, classify_code_cons hquote (by cases mark <;> simp [Mark.char]),
    splitSegments, if_pos rfl, hmark]
  rfl

/-! ### Behind a mark -/

theorem splitSegments_concat (chars : List (Char × Bool)) (mark : Mark) :
    (splitSegments (chars ++ [(mark.char, true)])).2 = [] := by
  induction chars with
  | nil => cases mark <;> rfl
  | cons head chars ih =>
    rw [List.cons_append, splitSegments]
    cases hrest : splitSegments (chars ++ [(mark.char, true)]) with
    | mk closed tail =>
      obtain rfl : tail = [] := by simpa [hrest] using ih
      have hne : closed ≠ [] := by
        rintro rfl
        have hjoin := splitSegments_join (chars ++ [(mark.char, true)])
        simp [hrest] at hjoin
      obtain ⟨segment, more, rfl⟩ := List.exists_cons_of_ne_nil hne
      dsimp only
      split <;> rfl

theorem splitSegments_append {first : List (Char × Bool)} (h : (splitSegments first).2 = [])
    (second : List (Char × Bool)) :
    splitSegments (first ++ second)
      = ((splitSegments first).1 ++ (splitSegments second).1, (splitSegments second).2) := by
  induction first with
  | nil => rfl
  | cons head first ih =>
    obtain ⟨c, code⟩ := head
    rw [List.cons_append, splitSegments, splitSegments]
    rw [splitSegments] at h
    cases hmark : (if code then Mark.ofChar? c else none) with
    | some mark =>
      simp only [hmark] at h
      simp [ih h]
    | none =>
      simp only [hmark] at h
      cases hrest : splitSegments first with
      | mk closed tail =>
        rw [hrest] at h ih
        cases closed with
        | nil => simp at h
        | cons segment more => simp [ih h]

/-- Does a text end with a mark, if it has an end? -/
def EndsInMark (text : List Char) : Prop :=
  ∀ token ∈ (tokens text).getLast?, ∃ mark : Mark, token = .code mark.char

theorem EndsInMark.endsInCode {text : List Char} (h : EndsInMark text) :
    EndsInCode (tokens text) := by
  intro token htoken
  obtain ⟨mark, rfl⟩ := h token htoken
  exact ⟨mark.char, rfl, by cases mark <;> decide⟩

theorem EndsInMark.segments_snd {text : List Char} (h : EndsInMark text) :
    (segments text).2 = [] := by
  rw [segments, classify_eq]
  rcases List.eq_nil_or_concat (tokens text) with hnil | ⟨front, token, hconcat⟩
  · rw [hnil]
    rfl
  · obtain ⟨mark, rfl⟩ := h token (by simp [hconcat])
    rw [hconcat, List.concat_eq_append, List.flatMap_append]
    exact splitSegments_concat _ mark

/-- Behind a mark, segments are cut as if the text began there. -/
theorem segments_append {first : List Char} (h : EndsInMark first) (second : List Char) :
    segments (first ++ second)
      = ((segments first).1 ++ (segments second).1, (segments second).2) := by
  have hfirst := h.segments_snd
  rw [segments, classify_eq] at hfirst
  simp only [segments, classify_eq]
  rw [tokens_append h.endsInCode, List.flatMap_append, splitSegments_append hfirst]

/-! ### Scoping in parts -/

/-- A stylesheet behind which nothing is open: all blocks are closed, and unless it is empty it
ends with the brace that closes the last one or with the semicolon of a statement. -/
structure Closed (css : List Char) : Prop where
  blocks : openBlocks [] (segments css).1 = []
  ends : ∀ token ∈ (tokens css).getLast?, token = .code '}' ∨ token = .code ';'

theorem Closed.endsInMark {css : List Char} (h : Closed css) : EndsInMark css := by
  intro token htoken
  rcases h.ends token htoken with rfl | rfl
  · exact ⟨.closing, rfl⟩
  · exact ⟨.semicolon, rfl⟩

/-- A stylesheet that is closed and any text behind it are scoped each for itself. -/
theorem scope_append {first : String} (hclosed : Closed first.toList) (second cls : String) :
    scope (first ++ second) cls = scope first cls ++ scope second cls := by
  have hends := hclosed.endsInMark
  rw [← String.toList_inj, String.toList_append]
  simp only [scope, String.toList_ofList, String.toList_append, scopeText]
  rw [segments_append hends, scopeSegments_append, hclosed.blocks, hends.segments_snd,
    List.append_nil, List.append_assoc]

/-- A group rule with braces in a string and in a comment, a closing brace too many, and a list. -/
def crowdedSheet : String :=
  "@media (x) \x7b p \x7b y: '\x7b' \x7d \x7d /* \x7b */ \x7d q, r \x7b\x7d"

/-- What stands behind a closed stylesheet may look like the end of a comment. -/
theorem scope_append_crowdedSheet :
    Closed crowdedSheet.toList ∧
      scope (crowdedSheet ++ "*/ a /* ' \x7b") "-q"
        = scope crowdedSheet "-q" ++ scope "*/ a /* ' \x7b" "-q" := by
  have hclosed : Closed crowdedSheet.toList := ⟨by decide +kernel, by decide +kernel⟩
  exact ⟨hclosed, scope_append hclosed _ _⟩

end SiteTree.Stylesheet
