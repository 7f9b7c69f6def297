import SiteTree.Proofs.Stylesheet.Plan

/-!
# Items of selector lists and the tokens of a stylesheet

Segments end at code, and so do the items of a list. No comment and no string reaches into an item or
out of it, so the item is read by itself as it is read within the stylesheet.

* `classified_eq_append` — a row of characters that is cut at code is cut between tokens.
* `ScopedItem.exists_tokens` — the tokens of an item are a part of those of its stylesheet, and code
  follows them.
-/

namespace SiteTree.Stylesheet

/-! ### Cuts at code -/

/-- A row that is cut in front of a character of code and behind it is cut between tokens. -/
theorem classified_eq_append {row : List Token} {front back : List (Char × Bool)} {c : Char}
    (h : row.flatMap Token.classified = front ++ (c, true) :: back) :
    ∃ first second, row = first ++ .code c :: second ∧
      first.flatMap Token.classified = front ∧ second.flatMap Token.classified = back := by
  induction row generalizing front with
  | nil => exact absurd h (by simp)
  | cons token row ih =>
    rw [List.flatMap_cons] at h
    rcases List.append_eq_append_iff.mp h with ⟨between, hfront, hrow⟩ | ⟨between, htoken, hback⟩
    · obtain ⟨first, second, rfl, rfl, hsecond⟩ := ih hrow
      exact ⟨token :: first, second, rfl, by rw [List.flatMap_cons, hfront], hsecond⟩
    · -- The character belongs to the token, or begins what follows it.
      cases between with
      | nil =>
        rw [List.append_nil] at htoken
        have hrow : row.flatMap Token.classified = [] ++ (c, true) :: back := hback.symm
        obtain ⟨first, second, rfl, hfirst, hsecond⟩ := ih hrow
        refine ⟨token :: first, second, rfl, ?_, hsecond⟩
        rw [List.flatMap_cons, hfirst, htoken, List.append_nil]
      | cons head between =>
        obtain ⟨rfl, rfl⟩ := List.cons.inj hback
        cases token with
        | code d =>
          rcases List.singleton_eq_append_iff.mp htoken with ⟨rfl, hcode⟩ | ⟨rfl, hcode⟩
          · obtain ⟨hd, rfl⟩ := List.cons.inj hcode
            cases hd
            exact ⟨[], row, rfl, rfl, rfl⟩
          · exact absurd hcode (by simp)
        | comment text =>
          have hmem : (c, true) ∈ (Token.comment text).classified := by simp [htoken]
          exact absurd hmem (by simp [Token.classified])
        | string text =>
          have hmem : (c, true) ∈ (Token.string text).classified := by simp [htoken]
          exact absurd hmem (by simp [Token.classified])

/-! ### Segments -/

theorem splitSegments_eq_cons {chars : List (Char × Bool)} {segment : Segment} {row : List Segment}
    {tail : List Char} (h : splitSegments chars = (segment :: row, tail)) :
    ∃ front back, chars = front ++ (segment.mark.char, true) :: back ∧
      front.map Prod.fst = segment.text ∧ splitSegments back = (row, tail) := by
  induction chars generalizing segment with
  | nil => exact absurd h (by simp [splitSegments])
  | cons head chars ih =>
    obtain ⟨c, code⟩ := head
    rw [splitSegments] at h
    cases hmark : (if code then Mark.ofChar? c else none) with
    | some mark =>
      simp only [hmark, Prod.mk.injEq, List.cons.injEq] at h
      obtain ⟨⟨rfl, rfl⟩, rfl⟩ := h
      obtain ⟨rfl, hchar⟩ : code = true ∧ Mark.ofChar? c = some mark := by simpa using hmark
      exact ⟨[], chars, by rw [Mark.char_of_ofChar? hchar]; rfl, rfl, rfl⟩
    | none =>
      simp only [hmark] at h
      cases hrest : splitSegments chars with
      | mk closed last =>
        rw [hrest] at h ih
        cases closed with
        | nil => exact absurd h (by simp)
        | cons first more =>
          simp only [Prod.mk.injEq, List.cons.injEq] at h
          obtain ⟨⟨rfl, rfl⟩, rfl⟩ := h
          obtain ⟨front, back, rfl, hfront, hback⟩ := ih rfl
          exact ⟨(c, code) :: front, back, rfl, by rw [List.map_cons, hfront], hback⟩

/-- Behind a row of segments there are whole tokens. -/
theorem exists_tokens_of_segments {row : List Token} {front back : List Segment} {tail : List Char}
    (h : splitSegments (row.flatMap Token.classified) = (front ++ back, tail)) :
    ∃ first second, row = first ++ second ∧ tokensText first = front.flatMap Segment.join ∧
      splitSegments (second.flatMap Token.classified) = (back, tail) := by
  induction front generalizing row with
  | nil => exact ⟨[], row, rfl, rfl, h⟩
  | cons segment front ih =>
    obtain ⟨inside, behind, hrow, hinside, hbehind⟩ := splitSegments_eq_cons h
    obtain ⟨text, rest, rfl, rfl, rfl⟩ := classified_eq_append hrow
    obtain ⟨first, second, rfl, hfirst, hsecond⟩ := ih hbehind
    refine ⟨text ++ .code segment.mark.char :: first, second, by simp, ?_, hsecond⟩
    rw [tokensText_append, tokensText_cons, hfirst, List.flatMap_cons, Segment.join, ← hinside,
      map_fst_flatMap_classified]
    simp [Token.text]

/-! ### Items -/

theorem splitItems_eq_cons {chars : List (Char × Bool)} {depth : Nat} {item next : List Char}
    {items : List (List Char)} (h : splitItems depth chars = (item, next :: items)) :
    ∃ front back, chars = front ++ (',', true) :: back ∧ front.map Prod.fst = item ∧
      splitItems 0 back = (next, items) := by
  induction chars generalizing depth item with
  | nil => exact absurd h (by simp [splitItems])
  | cons head chars ih =>
    obtain ⟨c, code⟩ := head
    by_cases hcomma : code = true ∧ c = ',' ∧ depth = 0
    · rw [splitItems, if_pos hcomma] at h
      obtain ⟨rfl, rfl, rfl⟩ := hcomma
      simp only [Prod.mk.injEq, List.cons.injEq] at h
      obtain ⟨rfl, rfl, rfl⟩ := h
      exact ⟨[], chars, rfl, rfl, rfl⟩
    · rw [splitItems_cons hcomma] at h
      obtain ⟨hitem, hitems⟩ := Prod.mk.inj h
      obtain ⟨front, back, rfl, hfront, hback⟩ := ih (Prod.ext rfl hitems)
      exact ⟨(c, code) :: front, back, rfl, by rw [List.map_cons, hfront]; exact hitem, hback⟩

/-- An item of a list is a row of whole tokens, with a comma behind it unless it is the last. -/
theorem exists_tokens_of_items {row : List Token} {depth : Nat} {earlier : List (List Char)}
    {text : List Char} {later : List (List Char)}
    (h : (splitItems depth (row.flatMap Token.classified)).1
        :: (splitItems depth (row.flatMap Token.classified)).2 = earlier ++ text :: later) :
    ∃ first item last, row = first ++ item ++ last ∧
      tokensText first = earlier.flatMap (· ++ [',']) ∧ tokensText item = text ∧
      ∀ token ∈ last.head?, token = .code ',' := by
  induction earlier generalizing row depth with
  | nil =>
    obtain ⟨htext, hlater⟩ := List.cons.inj h
    cases later with
    | nil =>
      have hjoin := splitItems_join depth (row.flatMap Token.classified)
      rw [hlater, htext, map_fst_flatMap_classified] at hjoin
      exact ⟨[], row, [], by simp, rfl, by simpa using hjoin.symm, by simp⟩
    | cons next later =>
      obtain ⟨front, back, hrow, hfront, -⟩ := splitItems_eq_cons (Prod.ext htext hlater)
      obtain ⟨item, rest, rfl, rfl, rfl⟩ := classified_eq_append hrow
      refine ⟨[], item, .code ',' :: rest, by simp, rfl, ?_, by simp⟩
      rw [← map_fst_flatMap_classified, hfront]
  | cons first earlier ih =>
    obtain ⟨hfirst, hrest⟩ := List.cons.inj h
    obtain ⟨next, items, hnext⟩ : ∃ next items, earlier ++ text :: later = next :: items := by
      cases earlier with
      | nil => exact ⟨text, later, rfl⟩
      | cons next earlier => exact ⟨next, earlier ++ text :: later, rfl⟩
    obtain ⟨front, back, hrow, hfront, hback⟩ := splitItems_eq_cons (Prod.ext hfirst (hrest.trans hnext))
    obtain ⟨inside, rest, rfl, rfl, rfl⟩ := classified_eq_append hrow
    have hitems : (splitItems 0 (rest.flatMap Token.classified)).1
        :: (splitItems 0 (rest.flatMap Token.classified)).2 = earlier ++ text :: later := by
      rw [hback, hnext]
    obtain ⟨before, item, last, rfl, hbefore, hitem, hlast⟩ := ih hitems
    refine ⟨inside ++ .code ',' :: before, item, last, by simp, ?_, hitem, hlast⟩
    rw [tokensText_append, tokensText_cons, hbefore, List.flatMap_cons, ← hfront,
      map_fst_flatMap_classified]
    simp [Token.text]

/-! ### Items of scoped lists -/

/-- The tokens of an item are a part of those of its stylesheet, and code follows them. -/
theorem ScopedItem.exists_tokens {css : List Char} (item : ScopedItem css) :
    ∃ first c last, tokens css = first ++ tokens item.text ++ .code c :: last ∧
      tokensText first = item.before := by
  have hsegments : splitSegments ((tokens css).flatMap Token.classified)
      = (item.front ++ ⟨item.list, .opening⟩ :: item.back, (segments css).2) := by
    rw [← classify_eq]
    exact Prod.ext item.segments_eq rfl
  obtain ⟨front, rest, hcss, hfront, hrest⟩ := exists_tokens_of_segments hsegments
  obtain ⟨inside, behind, hinside, hlist, -⟩ := splitSegments_eq_cons hrest
  obtain ⟨list, back, rfl, rfl, rfl⟩ := classified_eq_append hinside
  rw [map_fst_flatMap_classified] at hlist
  change tokensText list = item.list at hlist
  have htokens : tokens item.list = list := by
    rw [← hlist]
    exact (tokens_of_append (tokens_of_append hcss).2).1
  have hitems := item.items_eq
  rw [splitList, classify_eq, htokens] at hitems
  obtain ⟨before, text, after, rfl, hbefore, htext, hafter⟩ := exists_tokens_of_items hitems
  have hitem : tokens item.text = text := by
    have hcut : tokens item.list = before ++ (text ++ after) := by
      rw [htokens, List.append_assoc]
    rw [← htext]
    exact (tokens_of_append (tokens_of_append hcut).2).1
  have hfirst : tokensText (front ++ before) = item.before := by
    rw [tokensText_append, hfront, hbefore]
    rfl
  rw [hcss, hitem]
  cases after with
  | nil => exact ⟨front ++ before, '\x7b', back, by simp [Mark.char], hfirst⟩
  | cons token after =>
    obtain rfl := hafter token rfl
    exact ⟨front ++ before, ',', after ++ .code '\x7b' :: back, by simp [Mark.char], hfirst⟩

end SiteTree.Stylesheet
