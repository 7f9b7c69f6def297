import SiteTree.Proofs.Stylesheet.Escape
import Mathlib.Data.List.Forall2

/-!
# Stylesheets with escaped characters

In the selectors of a stylesheet's rules, pairs of letters are replaced by escaped characters. The
stylesheet is cut into segments and lists are cut into items without regard to backslashes, so nothing
changes as long as no escaped character is one at which such a scan stops, and escaped brackets come in
pairs.

* `classify_escapes` — what is code stays code.
* `segments_escaped` — the stylesheet is cut into segments in the same places.
* `splitItems_escapes` — a list is cut into items in the same places.
* `scope_escapes` — the marker is put in at the same places.
* `escaped_comma_cuts` — a comma is one of the characters at which a scan stops.
-/

namespace SiteTree.Stylesheet

open String (utf8Len)

/-! ### What is code -/

/-- Two texts of which one escapes the other, each character with whether it is code. -/
inductive EscapesCode : List (Char × Bool) → List (Char × Bool) → Prop
  | nil : EscapesCode [] []
  | kept {c : Char} {code : Bool} {row escaped : List (Char × Bool)} : c ≠ '\\' →
      EscapesCode row escaped → EscapesCode ((c, code) :: row) ((c, code) :: escaped)
  | pair {c d hidden : Char} {code : Bool} {row escaped : List (Char × Bool)} :
      c.isAlpha = true → d.isAlpha = true → IsInert hidden (escaped.head?.map Prod.fst) →
      EscapesCode row escaped →
      EscapesCode ((c, code) :: (d, code) :: row) (('\\', code) :: (hidden, code) :: escaped)

theorem IsInert.isQuote {c : Char} {next : Option Char} (h : IsInert c next) : isQuote c = false := by
  have hplain := h.plain
  simp only [List.mem_cons, not_or] at hplain
  simp [Stylesheet.isQuote, hplain]

theorem classify_quote {quote : Char} (h : isQuote quote = true) (rest : List Char) :
    Place.code.classify (quote :: rest) = (quote, false) :: (Place.string quote).classify rest := by
  rw [Place.classify, if_pos h]
  rintro more rfl
  exact absurd h (by decide)

theorem classify_comment_char {c : Char} {rest : List Char} (h : c = '*' → rest.head? ≠ some '/') :
    Place.comment.classify (c :: rest) = (c, false) :: Place.comment.classify rest := by
  rw [Place.classify]
  rintro more rfl rfl
  exact h rfl rfl

theorem classify_string_char {quote c : Char} (h : c ≠ '\\') (rest : List Char) :
    (Place.string quote).classify (c :: rest)
      = (c, false) :: (if c = quote then Place.code else Place.string quote).classify rest := by
  rw [Place.classify]
  exact fun _ _ hback => absurd hback h

/-- A place that a scan can reach: a string is opened by a quote. -/
def Place.IsReached : Place → Prop
  | string quote => isQuote quote = true
  | _ => True

theorem Place.isReached_code : Place.code.IsReached := trivial

theorem Place.isReached_comment : Place.comment.IsReached := trivial

theorem classify_letter {place : Place} (hplace : place.IsReached) {c : Char} (h : c.isAlpha = true)
    (rest : List Char) :
    place.classify (c :: rest) = (c, decide (place = .code)) :: place.classify rest := by
  cases place with
  | code =>
    exact classify_code_cons (isQuote_of_isAlpha h) fun hc => absurd hc (ne_of_isAlpha h (by decide))
  | comment => exact classify_comment_char fun hc => absurd hc (ne_of_isAlpha h (by decide))
  | string quote =>
    have hne : c ≠ quote := (ne_of_isQuote hplace (isQuote_of_isAlpha h)).symm
    rw [classify_string_char (ne_of_isAlpha h (by decide)), if_neg hne]
    rfl

theorem classify_inert {place : Place} {hidden : Char} {rest : List Char}
    (h : IsInert hidden rest.head?) :
    place.classify ('\\' :: hidden :: rest)
      = ('\\', decide (place = .code)) :: (hidden, decide (place = .code)) :: place.classify rest := by
  cases place with
  | code =>
    rw [classify_code_cons (by decide) fun hc => absurd hc (by decide),
      classify_code_cons h.isQuote h.opens]
    rfl
  | comment =>
    rw [classify_comment_char fun hc => absurd hc (by decide), classify_comment_char h.closes]
    rfl
  | string quote =>
    rw [Place.classify]
    rfl

/-- An escaped character is code where the letters were that it replaces. -/
theorem classify_escapes {place : Place} (hplace : place.IsReached) {text escaped : List Char}
    (h : Escapes text escaped) : EscapesCode (place.classify text) (place.classify escaped) := by
  -- What opens or closes a comment is read at once, so the texts get shorter by one or by two.
  induction hn : text.length using Nat.strong_induction_on generalizing place text escaped with
  | _ n ih =>
    subst hn
    cases h with
    | nil => cases place <;> exact .nil
    | @kept c text escaped hc hrest =>
      have hlt : text.length < (c :: text).length := Nat.lt_succ_self _
      cases place with
      | code =>
        cases hquote : isQuote c with
        | true =>
          have hstring : (Place.string c).IsReached := hquote
          rw [classify_quote hquote, classify_quote hquote]
          exact .kept hc (ih _ hlt hstring hrest rfl)
        | false =>
          have hstar : '*'.isAlpha = false := by decide
          rcases hrest.follows hstar (by decide) (c = '/') with
            ⟨rfl, more, rest, rfl, rfl, hmore⟩ | ⟨hplain, hescaped⟩
          · have hshorter := (Nat.lt_succ_self more.length).trans hlt
            rw [Place.classify, Place.classify]
            exact .kept hc (.kept (by decide) (ih _ hshorter Place.isReached_comment hmore rfl))
          · rw [classify_code_cons hquote hplain, classify_code_cons hquote hescaped]
            exact .kept hc (ih _ hlt hplace hrest rfl)
      | comment =>
        have hslash : '/'.isAlpha = false := by decide
        rcases hrest.follows hslash (by decide) (c = '*') with
          ⟨rfl, more, rest, rfl, rfl, hmore⟩ | ⟨hplain, hescaped⟩
        · have hshorter := (Nat.lt_succ_self more.length).trans hlt
          rw [Place.classify, Place.classify]
          exact .kept hc (.kept (by decide) (ih _ hshorter Place.isReached_code hmore rfl))
        · rw [classify_comment_char hplain, classify_comment_char hescaped]
          exact .kept hc (ih _ hlt hplace hrest rfl)
      | string quote =>
        have hnext : (if c = quote then Place.code else Place.string quote).IsReached := by
          split
          · trivial
          · exact hplace
        rw [classify_string_char hc, classify_string_char hc]
        exact .kept hc (ih _ hlt hnext hrest rfl)
    | @pair c d hidden text escaped hc hd hinert hrest =>
      have hlt : text.length < (c :: d :: text).length := by
        simp only [List.length_cons]
        omega
      have hhead : (place.classify escaped).head?.map Prod.fst = escaped.head? := by
        rw [← List.head?_map, map_fst_classify]
      rw [classify_letter hplace hc, classify_letter hplace hd, classify_inert hinert]
      exact .pair hc hd (by rwa [hhead]) (ih _ hlt hplace hrest rfl)

/-! ### Segments -/

/-- Cuts into segments that end in the same marks, and behind the last one there is nothing in both or
something in both. -/
def SameMarks (first second : List Segment × List Char) : Prop :=
  first.1.map Segment.mark = second.1.map Segment.mark ∧ (first.2 = [] ↔ second.2 = [])

theorem SameMarks.join {first second : List Segment × List Char} (h : SameMarks first second)
    (c d : Char) : SameMarks (joinFirst [c] first) (joinFirst [d] second) := by
  obtain ⟨row, tail⟩ := first
  obtain ⟨otherRow, otherTail⟩ := second
  obtain ⟨hmarks, htail⟩ := h
  cases row with
  | nil =>
    obtain rfl : otherRow = [] := by simpa using hmarks.symm
    exact ⟨rfl, by simp [joinFirst]⟩
  | cons segment row =>
    cases otherRow with
    | nil => exact absurd hmarks (by simp)
    | cons otherSegment otherRow => exact ⟨by simpa [joinFirst] using hmarks, htail⟩

theorem splitSegments_escapes {row escaped : List (Char × Bool)} (h : EscapesCode row escaped) :
    SameMarks (splitSegments row) (splitSegments escaped) := by
  have hletter {c : Char} {code : Bool} (hc : c.isAlpha = true) :
      code = true → Mark.ofChar? c = none := fun _ => ofChar?_eq_none (ne_of_isAlpha hc (by decide))
    (ne_of_isAlpha hc (by decide)) (ne_of_isAlpha hc (by decide))
  induction h with
  | nil => exact ⟨rfl, Iff.rfl⟩
  | @kept c code row escaped hc hrow ih =>
    cases hmark : (if code then Mark.ofChar? c else none) with
    | some mark =>
      rw [splitSegments, splitSegments, hmark]
      exact ⟨congrArg (mark :: ·) ih.1, ih.2⟩
    | none =>
      have hnone : code = true → Mark.ofChar? c = none := by
        rintro rfl
        exact hmark
      rw [splitSegments_joinFirst hnone, splitSegments_joinFirst hnone]
      exact ih.join c c
  | @pair c d hidden code row escaped hc hd hinert hrow ih =>
    have hplain := hinert.plain
    simp only [List.mem_cons, not_or] at hplain
    rw [splitSegments_joinFirst (hletter hc), splitSegments_joinFirst (hletter hd),
      splitSegments_joinFirst fun _ => rfl,
      splitSegments_joinFirst fun _ => ofChar?_eq_none hplain.2.2.1 hplain.2.2.2.1 hplain.2.2.2.2.1]
    exact (ih.join d hidden).join c '\\'

/-- Is the segment the only one of its own text? -/
def Segment.IsWhole (segment : Segment) : Prop :=
  segments segment.join = ([segment], [])

theorem Segment.IsWhole.endsInMark {segment : Segment} (h : segment.IsWhole) :
    EndsInMark segment.join := by
  rw [IsWhole, segments, classify_eq] at h
  obtain ⟨front, back, hrow, -, hback⟩ := splitSegments_eq_cons h
  obtain ⟨first, second, htokens, -, rfl⟩ := classified_eq_append hrow
  have hsecond : second = [] := by
    have hjoin := splitSegments_join (second.flatMap Token.classified)
    rw [hback, map_fst_flatMap_classified] at hjoin
    have hbehind : tokens segment.join = first ++ [.code segment.mark.char] ++ second := by
      rw [htokens, List.append_assoc, List.singleton_append]
    rw [← (tokens_of_append hbehind).2, ← hjoin]
    rfl
  intro token htoken
  rw [htokens, hsecond, List.getLast?_append, List.getLast?_singleton] at htoken
  exact ⟨segment.mark, (Option.mem_some_iff.mp htoken).symm⟩

/-- Segments that are whole are cut where they are joined. -/
theorem segments_of_isWhole {row : List Segment} (h : ∀ segment ∈ row, segment.IsWhole)
    {tail : List Char} (htail : segments tail = ([], tail)) :
    segments (row.flatMap Segment.join ++ tail) = (row, tail) := by
  induction row with
  | nil => exact htail
  | cons segment row ih =>
    have hsegment := h segment List.mem_cons_self
    rw [List.flatMap_cons, List.append_assoc, segments_append hsegment.endsInMark, hsegment,
      ih fun other hother => h other (List.mem_cons_of_mem _ hother)]
    rfl

theorem isWhole_of_mem {css : List Char} {segment : Segment} (h : segment ∈ (segments css).1) :
    segment.IsWhole := by
  obtain ⟨front, back, hrow⟩ := List.append_of_mem h
  have hcss : splitSegments ((tokens css).flatMap Token.classified)
      = (front ++ segment :: back, (segments css).2) := by
    rw [← classify_eq]
    exact Prod.ext hrow rfl
  obtain ⟨first, second, htokens, -, hsecond⟩ := exists_tokens_of_segments hcss
  obtain ⟨inside, behind, hchars, hinside, hbehind⟩ := splitSegments_eq_cons hsecond
  obtain ⟨text, rest, rfl, rfl, rfl⟩ := classified_eq_append hchars
  have htext : segment.join = tokensText (text ++ [.code segment.mark.char]) := by
    rw [tokensText_append, ← map_fst_flatMap_classified, hinside]
    rfl
  have hown : tokens segment.join = text ++ [.code segment.mark.char] := by
    have hcut : tokens css = first ++ ((text ++ [.code segment.mark.char]) ++ rest) := by
      rw [htokens, List.append_assoc text, List.singleton_append]
    rw [htext]
    exact (tokens_of_append (tokens_of_append hcut).2).1
  have hends := splitSegments_concat (text.flatMap Token.classified) segment.mark
  have hchars := splitSegments_append hends (rest.flatMap Token.classified)
  rw [List.append_assoc, List.singleton_append, hbehind] at hchars
  rw [List.flatMap_append, List.flatMap_cons] at hsecond
  have hrows := congrArg Prod.fst (hchars.symm.trans hsecond)
  have hone := List.append_cancel_right (hrows.trans List.singleton_append.symm)
  rw [Segment.IsWhole, segments, classify_eq, hown, List.flatMap_append]
  exact Prod.ext hone hends

theorem segments_tail (css : List Char) : segments (segments css).2 = ([], (segments css).2) := by
  have hcss : splitSegments ((tokens css).flatMap Token.classified)
      = ((segments css).1 ++ [], (segments css).2) := by
    rw [← classify_eq, List.append_nil]
    rfl
  obtain ⟨first, second, htokens, -, hsecond⟩ := exists_tokens_of_segments hcss
  have htail := splitSegments_join (second.flatMap Token.classified)
  rw [hsecond, map_fst_flatMap_classified] at htail
  rw [← hsecond, segments, classify_eq]
  congr 2
  rw [← (tokens_of_append htokens).2]
  exact congrArg tokens htail

theorem isWhole_of_escapes {segment escaped : Segment} (hwhole : segment.IsWhole)
    (hmark : segment.mark = escaped.mark) (h : Escapes segment.join escaped.join) :
    escaped.IsWhole := by
  have hcode : EscapesCode (classify segment.join) (classify escaped.join) :=
    classify_escapes Place.isReached_code h
  have hsame : SameMarks (segments segment.join) (segments escaped.join) := splitSegments_escapes hcode
  have hjoin := segments_join escaped.join
  rw [Segment.IsWhole] at hwhole ⊢
  rw [hwhole] at hsame
  obtain ⟨hmarks, htail⟩ := hsame
  obtain ⟨found, hfound, hkind⟩ := List.map_eq_singleton_iff.mp hmarks.symm
  have hnil := htail.mp rfl
  rw [hfound, hnil, List.append_nil, List.flatMap_singleton, Segment.join, Segment.join, hkind,
    hmark] at hjoin
  obtain ⟨text, mark⟩ := found
  obtain ⟨escapedText, escapedMark⟩ := escaped
  obtain rfl := hkind.trans hmark
  obtain rfl := List.append_cancel_right hjoin
  exact Prod.ext hfound hnil

/-! ### Items -/

/-- Are the brackets that stand behind a backslash closed by one another, with no comma and no closing
bracket of the list itself between them? The number counts those that are open already. -/
def bracketsPair : Nat → List (Char × Bool) → Bool
  | _, [] => true
  | opened, ('\\', true) :: (hidden, true) :: rest =>
    (opened != 0 || !(hidden == ')' || hidden == ']')) && bracketsPair (nest opened hidden) rest
  | opened, (c, code) :: rest =>
    (opened == 0 || !(code && (c == ',' || c == ')' || c == ']'))) && bracketsPair opened rest

theorem bracketsPair_cons {c : Char} {code : Bool} (h : c = '\\' → code = false) (opened : Nat)
    (rest : List (Char × Bool)) :
    bracketsPair opened ((c, code) :: rest)
      = ((opened == 0 || !(code && (c == ',' || c == ')' || c == ']')))
        && bracketsPair opened rest) := by
  rw [bracketsPair]
  rintro hidden more _ hback hcode
  exact absurd (h hback) (by simp [hcode])

theorem nest_add {opened : Nat} {c : Char} (h : opened = 0 ∨ ¬ (c = ')' ∨ c = ']')) (depth : Nat) :
    nest (depth + opened) c = nest depth c + opened := by
  simp only [nest]
  split
  · omega
  · split
    · next hcloses =>
      obtain rfl := h.resolve_right (not_not_intro hcloses)
      rfl
    · rfl

theorem add_nest {opened : Nat} {c : Char} (h : opened ≠ 0 ∨ ¬ (c = ')' ∨ c = ']')) (depth : Nat) :
    nest (depth + opened) c = depth + nest opened c := by
  simp only [nest]
  split
  · omega
  · split
    · next hcloses =>
      have := h.resolve_right (not_not_intro hcloses)
      omega
    · rfl

/-- The first item begins with what its list begins with, unless that is the comma behind it. -/
theorem head?_splitItems (depth : Nat) (row : List (Char × Bool)) :
    (splitItems depth row).1.head? = row.head?.map Prod.fst ∨
      (splitItems depth row).1.head? = none ∧ row.head?.map Prod.fst = some ',' := by
  cases row with
  | nil => exact .inl rfl
  | cons head row =>
    obtain ⟨c, code⟩ := head
    by_cases hcomma : code = true ∧ c = ',' ∧ depth = 0
    · rw [splitItems, if_pos hcomma]
      exact .inr ⟨rfl, congrArg some hcomma.2.1⟩
    · rw [splitItems_cons hcomma]
      exact .inl rfl

theorem IsInert.head?_splitItems {hidden : Char} {row : List (Char × Bool)}
    (h : IsInert hidden (row.head?.map Prod.fst)) (depth : Nat) :
    IsInert hidden (splitItems depth row).1.head? := by
  rcases Stylesheet.head?_splitItems depth row with hhead | ⟨hnone, hcomma⟩
  · rwa [hhead]
  · rw [hcomma] at h
    rw [hnone]
    exact ⟨h.ascii, h.plain, by simp, by simp, fun hblank => absurd (h.inside hblank) (by decide)⟩

/-- A list and the same list with escaped characters are cut into items at the same commas. -/
theorem splitItems_escapes {row escaped : List (Char × Bool)} (h : EscapesCode row escaped)
    {depth opened : Nat} (hpair : bracketsPair opened escaped = true) :
    Escapes (splitItems depth row).1 (splitItems (depth + opened) escaped).1 ∧
      List.Forall₂ Escapes (splitItems depth row).2 (splitItems (depth + opened) escaped).2 := by
  induction h generalizing depth opened with
  | nil => exact ⟨.nil, .nil⟩
  | @kept c code row escaped hc hrow ih =>
    rw [bracketsPair_cons fun hback => absurd hback hc, Bool.and_eq_true] at hpair
    obtain ⟨hfree, hrest⟩ := hpair
    by_cases hcomma : code = true ∧ c = ',' ∧ depth = 0
    · obtain ⟨rfl, rfl, rfl⟩ := hcomma
      obtain rfl : opened = 0 := by simpa using hfree
      rw [splitItems, if_pos ⟨rfl, rfl, rfl⟩, splitItems, if_pos ⟨rfl, rfl, rfl⟩]
      obtain ⟨hitem, hitems⟩ := ih hrest
      exact ⟨.nil, .cons hitem hitems⟩
    · have hescaped : ¬ (code = true ∧ c = ',' ∧ depth + opened = 0) :=
        fun h => hcomma ⟨h.1, h.2.1, Nat.eq_zero_of_add_eq_zero_right h.2.2⟩
      have hdepth : (if code then nest (depth + opened) c else depth + opened)
          = (if code then nest depth c else depth) + opened := by
        cases code with
        | false => rfl
        | true => exact nest_add (by simp at hfree; tauto) depth
      obtain ⟨hitem, hitems⟩ := ih hrest
      rw [splitItems_cons hcomma, splitItems_cons hescaped, hdepth]
      exact ⟨.kept hc hitem, hitems⟩
  | @pair c d hidden code row escaped hc hd hinert hrow ih =>
    have hplain := hinert.plain
    simp only [List.mem_cons, not_or] at hplain
    have hback (depth : Nat) : nest depth '\\' = depth := by simp [nest]
    obtain ⟨behind, hrest, hdepth⟩ : ∃ behind, bracketsPair behind escaped = true ∧
        (if code then nest (depth + opened) hidden else depth + opened) = depth + behind := by
      cases code with
      | false =>
        rw [bracketsPair_cons (by simp), bracketsPair_cons (by simp)] at hpair
        exact ⟨opened, by simpa using hpair, rfl⟩
      | true =>
        rw [bracketsPair, Bool.and_eq_true] at hpair
        exact ⟨nest opened hidden, hpair.2, add_nest (by simpa using hpair.1) depth⟩
    obtain ⟨hitem, hitems⟩ := ih hrest
    rw [splitItems_cons fun h => ne_of_isAlpha hc (by decide) h.2.1, nest_of_isAlpha hc, ite_self,
      splitItems_cons fun h => ne_of_isAlpha hd (by decide) h.2.1, nest_of_isAlpha hd, ite_self,
      splitItems_cons (by simp), hback, ite_self,
      splitItems_cons fun h => hplain.2.2.2.2.2.1 h.2.1, hdepth]
    exact ⟨.pair hc hd (hinert.head?_splitItems _) hitem, hitems⟩

/-! ### Plans with the same slots -/

/-- Plans of texts of one length that have their slots at the same places. -/
structure Plan.Alike (first second : Plan) : Prop where
  length : utf8Len (text first) = utf8Len (text second)
  points : ∀ offset, pointsFrom offset first = pointsFrom offset second

namespace Plan.Alike

variable {first second : Plan}

theorem refl (plan : Plan) : Alike plan plan :=
  ⟨rfl, fun _ => rfl⟩

theorem copied {text escaped : List Char} (h : utf8Len text = utf8Len escaped) :
    Alike (Plan.copied text) (Plan.copied escaped) :=
  ⟨by rwa [text_copied, text_copied], fun _ => by rw [pointsFrom_copied, pointsFrom_copied]⟩

theorem append {firstRest secondRest : Plan} (h : Alike first second)
    (hrest : Alike firstRest secondRest) : Alike (first ++ firstRest) (second ++ secondRest) := by
  refine ⟨?_, fun offset => ?_⟩
  · rw [text_append, text_append, String.utf8Len_append, String.utf8Len_append, h.length, hrest.length]
  · rw [pointsFrom_append, pointsFrom_append, h.points, h.length, hrest.points]

theorem intercalate {row escapedRow : List Plan} (h : List.Forall₂ Alike row escapedRow)
    (separator : Plan) : Alike (separator.intercalate row) (separator.intercalate escapedRow) := by
  induction h with
  | nil => exact refl _
  | @cons plan escapedPlan row escapedRow hplan hrow ih =>
    cases hrow with
    | nil => simpa using hplan
    | cons hnext hrow =>
      rw [List.intercalate_cons_cons, List.intercalate_cons_cons]
      exact (hplan.append (refl separator)).append ih

end Plan.Alike

theorem isInfix_of_mem_splitList {list item : List Char} (h : item ∈ splitList list) :
    item <:+: list := by
  obtain ⟨earlier, later, hitems⟩ := List.append_of_mem h
  have hlist := splitList_join list
  rw [hitems, intercalate_around] at hlist
  exact ⟨_, _, hlist⟩

theorem itemPlans_escapes {marker : List Char} {items escapedItems : List (List Char)}
    (h : List.Forall₂ Escapes items escapedItems) (hmarker : ∀ item ∈ items, ¬ marker <:+: item)
    (hescaped : ∀ item ∈ escapedItems, ¬ marker <:+: item) :
    List.Forall₂ Plan.Alike (items.map (itemPlan marker)) (escapedItems.map (itemPlan marker)) := by
  induction h with
  | nil => exact .nil
  | cons hitem _ ih =>
    rw [List.forall_mem_cons] at hmarker hescaped
    refine .cons ⟨?_, itemPlan_escapes hitem hmarker.1 hescaped.1⟩ (ih hmarker.2 hescaped.2)
    rw [text_itemPlan, text_itemPlan, hitem.utf8Len_eq]

/-- A list and the same list with escaped characters have their slots at the same places. -/
theorem listPlan_escapes {marker list escaped : List Char} (h : Escapes list escaped)
    (hpair : bracketsPair 0 (classify escaped) = true) (hmarker : ¬ marker <:+: list)
    (hescaped : ¬ marker <:+: escaped) :
    Plan.Alike (listPlan marker list) (listPlan marker escaped) := by
  have hcode : EscapesCode (classify list) (classify escaped) :=
    classify_escapes Place.isReached_code h
  have hitems : List.Forall₂ Escapes (splitList list) (splitList escaped) :=
    have ⟨hitem, hitems⟩ := splitItems_escapes hcode hpair
    .cons hitem hitems
  have hplans := itemPlans_escapes hitems
    (fun item hitem hfound => hmarker (hfound.trans (isInfix_of_mem_splitList hitem)))
    (fun item hitem hfound => hescaped (hfound.trans (isInfix_of_mem_splitList hitem)))
  exact Plan.Alike.intercalate hplans _

/-! ### The whole stylesheet -/

/-- The second segment is the first one, or both are the heads of a style rule and the second one's
selectors escape those of the first. -/
inductive Segment.Escaped : Segment → Segment → Prop
  | copied (segment : Segment) : Escaped segment segment
  | head {list escaped : List Char} : Block.ofHead list = .rule → Escapes list escaped →
      bracketsPair 0 (classify escaped) = true → Escaped ⟨list, .opening⟩ ⟨escaped, .opening⟩

theorem Block.ofHead_escapes {list escaped : List Char} (h : Escapes list escaped)
    (hrule : Block.ofHead list = .rule) : Block.ofHead escaped = .rule := by
  rw [Block.ofHead_eq_rule_iff] at hrule ⊢
  exact fun hat => hrule (((trimStart_escapes h).head?_eq_iff (by decide) (by decide)).mpr hat)

namespace Segment.Escaped

variable {segment escaped : Segment} (h : segment.Escaped escaped)

include h

theorem isWhole (hwhole : segment.IsWhole) : escaped.IsWhole := by
  cases h with
  | copied => exact hwhole
  | @head list escaped _ hlist _ =>
    have hjoin : Escapes (list ++ ['\x7b']) (escaped ++ ['\x7b']) :=
      hlist.concat (by decide) (by decide) (by decide)
    exact isWhole_of_escapes hwhole rfl hjoin

theorem mark_eq : segment.mark = escaped.mark := by
  cases h <;> rfl

theorem openBlocks_eq (blocks : List Block) :
    segment.openBlocks blocks = escaped.openBlocks blocks := by
  cases h with
  | copied => rfl
  | head hrule hlist _ => simp only [Segment.openBlocks, hrule, Block.ofHead_escapes hlist hrule]

theorem plan_alike {marker : List Char} (hmarker : ¬ marker <:+: segment.text)
    (hescaped : ¬ marker <:+: escaped.text) (blocks : List Block) :
    Plan.Alike (segment.plan marker blocks) (escaped.plan marker blocks) := by
  cases h with
  | copied => exact Plan.Alike.refl _
  | head hrule hlist hpair =>
    have hescapedRule := Block.ofHead_escapes hlist hrule
    rw [Segment.plan, Segment.plan]
    by_cases hinside : scopesInside blocks = true
    · rw [if_pos ⟨rfl, hrule, hinside⟩, if_pos ⟨rfl, hescapedRule, hinside⟩]
      exact listPlan_escapes hlist hpair hmarker hescaped
    · rw [if_neg fun hscoped => hinside hscoped.2.2, if_neg fun hscoped => hinside hscoped.2.2]
      exact Plan.Alike.copied hlist.utf8Len_eq

end Segment.Escaped

theorem segmentsPlan_escapes {marker : List Char} {row escapedRow : List Segment}
    (h : List.Forall₂ Segment.Escaped row escapedRow)
    (hmarker : ∀ segment ∈ row, ¬ marker <:+: segment.text)
    (hescaped : ∀ segment ∈ escapedRow, ¬ marker <:+: segment.text) (blocks : List Block) :
    Plan.Alike (segmentsPlan marker blocks row) (segmentsPlan marker blocks escapedRow) := by
  induction h generalizing blocks with
  | nil => exact Plan.Alike.refl _
  | @cons segment escaped row escapedRow hsegment _ ih =>
    rw [List.forall_mem_cons] at hmarker hescaped
    have hplan := hsegment.plan_alike hmarker.1 hescaped.1 blocks
    have hrow := ih hmarker.2 hescaped.2 (segment.openBlocks blocks)
    rw [segmentsPlan, segmentsPlan, ← hsegment.mark_eq, ← hsegment.openBlocks_eq blocks]
    exact hplan.append ((Plan.Alike.refl [some segment.mark.char]).append hrow)

/-- A stylesheet, and the same stylesheet with escaped characters in the selectors of its rules. -/
def SheetEscapes (css escaped : List Char) : Prop :=
  ∃ row, List.Forall₂ Segment.Escaped (segments css).1 row ∧
    escaped = row.flatMap Segment.join ++ (segments css).2

theorem isWhole_of_forall₂ {row escapedRow : List Segment}
    (h : List.Forall₂ Segment.Escaped row escapedRow) (hwhole : ∀ segment ∈ row, segment.IsWhole) :
    ∀ segment ∈ escapedRow, segment.IsWhole := by
  induction h with
  | nil => exact hwhole
  | cons hsegment _ ih =>
    rw [List.forall_mem_cons] at hwhole ⊢
    exact ⟨hsegment.isWhole hwhole.1, ih hwhole.2⟩

theorem segments_escaped {css : List Char} {row : List Segment}
    (h : List.Forall₂ Segment.Escaped (segments css).1 row) :
    segments (row.flatMap Segment.join ++ (segments css).2) = (row, (segments css).2) :=
  segments_of_isWhole (isWhole_of_forall₂ h fun _ => isWhole_of_mem) (segments_tail css)

theorem isInfix_of_mem_segments {css : List Char} {segment : Segment} (h : segment ∈ (segments css).1) :
    segment.text <:+: css := by
  obtain ⟨front, back, hrow⟩ := List.append_of_mem h
  have hcss := segments_join css
  rw [hrow, List.flatMap_append, List.flatMap_cons, Segment.join] at hcss
  exact ⟨front.flatMap Segment.join,
    segment.mark.char :: (back.flatMap Segment.join ++ (segments css).2), by simpa using hcss⟩

/-- Scoping does not tell an escaped character from the letters that it replaces: as long as the class
is not there already, the marker is put in at the same places. -/
theorem scope_escapes {css escaped cls : String} (h : SheetEscapes css.toList escaped.toList)
    (hmarker : ¬ '.' :: cls.toList <:+: css.toList)
    (hescaped : ¬ '.' :: cls.toList <:+: escaped.toList) :
    let marker := '.' :: cls.toList
    let plan := sheetPlan marker css.toList
    let escapedPlan := sheetPlan marker escaped.toList
    (scope css cls).toList = Plan.fill marker plan ∧ css.toList = Plan.text plan ∧
      (scope escaped cls).toList = Plan.fill marker escapedPlan ∧
      escaped.toList = Plan.text escapedPlan ∧
      Plan.points escapedPlan = Plan.points plan := by
  intro marker plan escapedPlan
  have hscope (sheet : String) :
      (scope sheet cls).toList = Plan.fill marker (sheetPlan marker sheet.toList) := by
    rw [scope, String.toList_ofList, fill_sheetPlan]
  refine ⟨hscope css, (text_sheetPlan _ _).symm, hscope escaped, (text_sheetPlan _ _).symm, ?_⟩
  obtain ⟨row, hrow, hjoin⟩ := h
  have hsegments : segments escaped.toList = (row, (segments css.toList).2) := by
    rw [hjoin, segments_escaped hrow]
  have hfree {sheet : List Char} (hsheet : ¬ marker <:+: sheet) :
      ∀ segment ∈ (segments sheet).1, ¬ marker <:+: segment.text :=
    fun segment hmem hfound => hsheet (hfound.trans (isInfix_of_mem_segments hmem))
  have hescapedFree := hfree hescaped
  rw [hsegments] at hescapedFree
  have hplan := segmentsPlan_escapes hrow (hfree hmarker) hescapedFree []
  have hsheet : Plan.Alike plan escapedPlan := by
    simp only [plan, escapedPlan, sheetPlan, hsegments]
    exact hplan.append (Plan.Alike.refl _)
  exact (hsheet.points 0).symm

/-- The lists of a stylesheet with names in which a colon, a slash, brackets and a blank are escaped. -/
def plainSheet : String :=
  ".mdabon, .wab2 > .wabxab:hover \x7b\x7d @media print \x7b .aabb:is(p) \x7b\x7d \x7d"

def escapedSheet : String :=
  ".md\\:on, .w\\/2 > .w\\[x\\]:hover \x7b\x7d @media print \x7b .a\\ b:is(p) \x7b\x7d \x7d"

theorem scope_escapes_escapedSheet :
    SheetEscapes plainSheet.toList escapedSheet.toList ∧
      Plan.points (sheetPlan ".-q".toList escapedSheet.toList) = [7, 24, 54] := by
  have hcut : (segments plainSheet.toList).1
      = [⟨".mdabon, .wab2 > .wabxab:hover ".toList, .opening⟩, ⟨[], .closing⟩,
        ⟨" @media print ".toList, .opening⟩, ⟨" .aabb:is(p) ".toList, .opening⟩, ⟨[], .closing⟩,
        ⟨" ".toList, .closing⟩] := by decide +kernel
  have hsheet : SheetEscapes plainSheet.toList escapedSheet.toList := by
    refine ⟨[⟨".md\\:on, .w\\/2 > .w\\[x\\]:hover ".toList, .opening⟩, ⟨[], .closing⟩,
      ⟨" @media print ".toList, .opening⟩, ⟨" .a\\ b:is(p) ".toList, .opening⟩, ⟨[], .closing⟩,
      ⟨" ".toList, .closing⟩], ?_, by decide +kernel⟩
    rw [hcut]
    exact .cons (.head (by decide +kernel) (by decide +kernel) (by decide +kernel))
      (.cons (.copied _) (.cons (.copied _)
        (.cons (.head (by decide +kernel) (by decide +kernel) (by decide +kernel))
          (.cons (.copied _) (.cons (.copied _) .nil)))))
  have hplain : ¬ '.' :: "-q".toList <:+: plainSheet.toList := by decide +kernel
  have hescaped : ¬ '.' :: "-q".toList <:+: escapedSheet.toList := by decide +kernel
  have hpoints := (scope_escapes hsheet hplain hescaped).2.2.2.2
  exact ⟨hsheet, hpoints.trans (by decide +kernel)⟩

/-- Behind a backslash a comma ends the item all the same. -/
theorem escaped_comma_cuts :
    Plan.points (sheetPlan ".-q1".toList ".w-1ab5\x7b\x7d".toList) = [7] ∧
      Plan.points (sheetPlan ".-q1".toList ".w-1\\,5\x7b\x7d".toList) = [5, 7] := by
  decide +kernel

end SiteTree.Stylesheet
