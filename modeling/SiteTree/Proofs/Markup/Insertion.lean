import SiteTree.Proofs.Markup.Place

/-!
# What adding a class leaves as it is

A class is put into a value, or a bare value is put in quotes with it, or it comes in an attribute
of its own. All of this begins and ends at the same place of a tag, be it in quotes or outside of
them, and there is no `>` in it.

* `attrValue?_eq_some_iff` — the values that are read, as they are written.
* `Alike.addClass` — a piece with a class leads from every place to the same place, and no comment
  ends in it that did not end there before.
* `openTag?_join_addClass` — a tag with a class is read as one tag.
-/

namespace SiteTree.Markup

/-! ### A class in a value -/

/-- A value as it is read: in quotes of a kind that it does not have, or without quotes and with no
character that would need them. -/
structure AttrValue.IsRead (value : AttrValue) : Prop where
  equals : ∃ first second, value.equals = first ++ '=' :: second ∧
    (∀ c ∈ first, Text.isBlank c = true) ∧ ∀ c ∈ second, Text.isBlank c = true
  quoted : ∀ quote ∈ value.quote, (quote = '"' ∨ quote = '\'') ∧ quote ∉ value.text
  bare : value.quote = none → value.text ≠ [] ∧ ∀ c ∈ value.text, isBareChar c = true

theorem valueText?_eq_some_iff {equals text after : List Char} {value : AttrValue} :
    valueText? equals text = some (value, after) ↔ value.equals = equals ∧
      (∀ quote ∈ value.quote, (quote = '"' ∨ quote = '\'') ∧ quote ∉ value.text) ∧
      (value.quote = none → (value.text ≠ [] ∧ ∀ c ∈ value.text, isBareChar c = true) ∧
        ∀ c ∈ after.head?, isBareChar c = false) ∧
      text = value.quote.toList ++ value.text ++ value.quote.toList ++ after := by
  constructor
  · intro h
    unfold valueText? at h
    split at h
    · cases h
    · next c rest =>
      split at h
      · next hquote =>
        split at h
        · cases h
        · next d after' hdrop =>
          cases h
          obtain rfl := head_dropWhile_bne hdrop
          refine ⟨rfl, ?_, by simp, ?_⟩
          · intro quote hmem
            obtain rfl : d = quote := Option.some.inj hmem
            exact ⟨hquote, fun hin => by simpa using List.mem_takeWhile_imp hin⟩
          · have hrest := List.takeWhile_append_dropWhile (p := (· != d)) (l := rest)
            rw [hdrop] at hrest
            simp [hrest]
      · split at h
        · next hbare =>
          cases h
          refine ⟨rfl, by simp, fun _ => ⟨⟨List.cons_ne_nil _ _, ?_⟩, ?_⟩, by simp⟩
          · intro d hd
            rcases List.mem_cons.mp hd with rfl | hd
            · exact hbare
            · exact List.mem_takeWhile_imp hd
          · exact Text.head?_dropWhile rest
        · cases h
  · obtain ⟨first, quote, inner⟩ := value
    rintro ⟨rfl, hquoted, hbare, rfl⟩
    cases quote with
    | some quote =>
      obtain ⟨hquote, hfits⟩ := hquoted quote rfl
      have hrun : (inner ++ quote :: after).takeWhile (· != quote) = inner
          ∧ (inner ++ quote :: after).dropWhile (· != quote) = quote :: after :=
        takeWhile_append_of_head? (fun c hc => bne_iff_ne.mpr fun h => hfits (h ▸ hc)) (by simp)
      simp only [Option.toList_some, List.cons_append, List.append_assoc,
        List.nil_append]
      rw [valueText?, if_pos hquote, hrun.1, hrun.2]
    | none =>
      obtain ⟨⟨hne, hchars⟩, hafter⟩ := hbare rfl
      cases inner with
      | nil => exact absurd rfl hne
      | cons c inner =>
        have hrun := takeWhile_append_of_head? (p := isBareChar)
          (fun d hd => hchars d (List.mem_cons_of_mem _ hd)) hafter
        have hc := (notMem_of_isBareChar (hchars c List.mem_cons_self)).2
        simp only [List.mem_cons, not_or] at hc
        simp only [Option.toList_none, List.nil_append, List.append_nil, List.cons_append]
        rw [valueText?, if_neg (by simp [hc]), if_pos (hchars c List.mem_cons_self), hrun.1,
          hrun.2]

/-- A value is read where a text begins, and one without quotes goes as far as it can. -/
theorem attrValue?_eq_some_iff {text after : List Char} {value : AttrValue} :
    attrValue? text = some (value, after) ↔ value.IsRead ∧ text = value.join ++ after ∧
      (value.quote = none → ∀ c ∈ after.head?, isBareChar c = false) := by
  constructor
  · intro h
    have hjoin := (join_of_attrValue? h).symm
    unfold attrValue? at h
    split at h
    · obtain ⟨hequals, hquoted, hbare, -⟩ := valueText?_eq_some_iff.mp h
      refine ⟨⟨⟨_, _, hequals, ?_, ?_⟩, hquoted, fun hnone => (hbare hnone).1⟩, hjoin,
        fun hnone => (hbare hnone).2⟩
      · exact fun c hc => List.mem_takeWhile_imp hc
      · exact fun c hc => List.mem_takeWhile_imp hc
    · cases h
  · obtain ⟨equals, quote, inner⟩ := value
    rintro ⟨⟨⟨first, second, hequals, hfirst, hsecond⟩, hquoted, hbare⟩, rfl, hafter⟩
    obtain rfl : equals = first ++ '=' :: second := hequals
    have hhead : ∀ c ∈ (quote.toList ++ inner ++ quote.toList ++ after).head?,
        Text.isBlank c = false := by
      intro c hc
      cases quote with
      | some quote =>
        obtain rfl : quote = c := by simpa using hc
        rcases (hquoted quote rfl).1 with rfl | rfl
        · decide
        · decide
      | none =>
        obtain ⟨hne, hchars⟩ := hbare rfl
        cases inner with
        | nil => exact absurd rfl hne
        | cons d inner =>
          obtain rfl : d = c := by simpa using hc
          exact (notMem_of_isBareChar (hchars d List.mem_cons_self)).1
    have hequals : ∀ c ∈ ('=' :: (second ++ (quote.toList ++ inner ++ quote.toList ++ after))).head?,
        Text.isBlank c = false := by
      rintro c (_ | _)
      decide
    have hfirst := takeWhile_append_of_head? hfirst hequals
    have hsecond := takeWhile_append_of_head? hsecond hhead
    have htext : AttrValue.join ⟨first ++ '=' :: second, quote, inner⟩ ++ after
        = first ++ '=' :: (second ++ (quote.toList ++ inner ++ quote.toList ++ after)) := by
      simp [AttrValue.join]
    rw [attrValue?, htext, hfirst.1, hfirst.2]
    change valueText? (first ++ '=' :: (second ++ _).takeWhile Text.isBlank)
      ((second ++ _).dropWhile Text.isBlank) = _
    rw [hsecond.1, hsecond.2]
    exact valueText?_eq_some_iff.mpr
      ⟨rfl, hquoted, fun hnone => ⟨hbare hnone, hafter hnone⟩, rfl⟩

theorem isRead_of_mem_attrItems {attrs name : List Char} {value : AttrValue}
    (h : .attr name (some value) ∈ attrItems attrs) : value.IsRead := by
  fun_induction attrItems attrs with
  | case1 => cases h
  | case2 c rest _ _ found after hvalue _ ih =>
    rcases List.mem_cons.mp h with heq | h
    · cases heq
      exact (attrValue?_eq_some_iff.mp hvalue).1
    · exact ih h
  | case3 c rest _ _ _ ih =>
    rcases List.mem_cons.mp h with heq | h
    · cases heq
    · exact ih h
  | case4 c rest _ ih =>
    rcases List.mem_cons.mp h with heq | h
    · cases heq
    · exact ih h

/-- Is it the name of the attribute `class`? -/
def isClassName (name : List Char) : Bool :=
  Text.eqIgnoringCase name "class".toList

/-- A class is added to the value of the first attribute named `class`. -/
theorem exists_of_addToValue? {cls : List Char} {items added : List AttrItem}
    (h : addToValue? cls items = some added) :
    ∃ front name value back, items = front ++ .attr name (some value) :: back ∧
      added = front ++ .attr name (some (value.addClass cls)) :: back ∧
      isClassName name = true ∧ ∀ other value, .attr other value ∈ front →
        isClassName other = false := by
  induction items generalizing added with
  | nil => cases h
  | cons item items ih =>
    cases item with
    | other c =>
      obtain ⟨rest, hrest, rfl⟩ := Option.map_eq_some_iff.mp h
      obtain ⟨front, name, value, back, rfl, rfl, hname, hfront⟩ := ih hrest
      refine ⟨.other c :: front, name, value, back, rfl, rfl, hname, ?_⟩
      intro other found hmem
      rcases List.mem_cons.mp hmem with heq | hmem
      · cases heq
      · exact hfront other found hmem
    | attr first value =>
      rw [addToValue?] at h
      split at h
      · next hclass =>
        obtain ⟨found, rfl, rfl⟩ := Option.map_eq_some_iff.mp h
        exact ⟨[], first, found, items, rfl, rfl, hclass, by simp⟩
      · next hclass =>
        obtain ⟨rest, hrest, rfl⟩ := Option.map_eq_some_iff.mp h
        obtain ⟨front, name, found, back, rfl, rfl, hname, hfront⟩ := ih hrest
        refine ⟨.attr first value :: front, name, found, back, rfl, rfl, hname, ?_⟩
        intro other found hmem
        rcases List.mem_cons.mp hmem with heq | hmem
        · cases heq
          exact Bool.eq_false_iff.mpr hclass
        · exact hfront other found hmem

section AddClass

variable {cls : List Char} (hcls : ∀ c ∈ cls, c ∉ ['>', '"', '\''])

theorem notMem_of_isBareChars {text : List Char} (h : ∀ c ∈ text, isBareChar c = true) :
    ∀ c ∈ text, c ∉ ['>', '"', '\''] := by
  intro c hc
  have hne := (notMem_of_isBareChar (h c hc)).2
  simp only [List.mem_cons, not_or] at hne
  simp [hne]

include hcls

/-- What a class adds to a value has no quotes. -/
theorem notMem_of_inserted (text : List Char) :
    ∀ c ∈ (if Text.allBlank text then [] else [' ']) ++ cls, c ∉ ['>', '"', '\''] := by
  intro c hc
  rcases List.mem_append.mp hc with hc | hc
  · split at hc
    · cases hc
    · rw [List.mem_singleton.mp hc]
      decide
  · exact hcls c hc

theorem alike_addClass_value {value : AttrValue} (h : value.IsRead) :
    Alike value.join (value.addClass cls).join := by
  unfold AttrValue.addClass
  split
  · exact Alike.refl value.join
  · obtain ⟨equals, quote, text⟩ := value
    have hinserted := notMem_of_inserted hcls text
    cases quote with
    | none =>
      obtain ⟨-, hbare⟩ := h.bare rfl
      have halike := (Alike.refl equals).append
        (Alike.bare hinserted (notMem_of_isBareChars hbare))
      simpa [AttrValue.join] using halike
    | some quote =>
      obtain ⟨hquote, -⟩ := h.quoted quote rfl
      have hend : quote ∉ commentEnd := by
        rcases hquote with rfl | rfl
        · decide
        · decide
      have halike : Alike (equals ++ [quote] ++ (text ++ [quote])) _ :=
        (Alike.refl (equals ++ [quote])).append (Alike.quoted hinserted hend)
      simpa [AttrValue.join] using halike

/-- A list of attributes whose first one named `class` has a value, and the list with a class. -/
theorem alike_of_split {front back : List AttrItem} {name : List Char} {value : AttrValue}
    (h : value.IsRead) :
    Alike ((front ++ .attr name (some value) :: back).flatMap AttrItem.join)
      ((front ++ .attr name (some (value.addClass cls)) :: back).flatMap AttrItem.join) := by
  rw [List.flatMap_append, List.flatMap_append, List.flatMap_cons, List.flatMap_cons]
  exact (Alike.refl _).append
    (((Alike.refl name).append (alike_addClass_value hcls h)).append (Alike.refl _))

end AddClass

/-! ### An attribute of its own -/

/-- What stands in front of a new attribute. -/
def attrsFront (attrs : List Char) : List Char :=
  let trimmed := Text.trimEnd attrs
  if trimmed.getLast? = some '/' then Text.trimEnd trimmed.dropLast else trimmed

/-- What stands behind a new attribute: blanks, and the slash of a tag that closes itself. -/
def attrsBack (attrs : List Char) : List Char :=
  attrs.drop (attrsFront attrs).length

theorem attrsFront_cases (attrs : List Char) :
    (∃ gap blanks, attrs = attrsFront attrs ++ gap ++ '/' :: blanks ∧
      Text.trimEnd attrs = attrsFront attrs ++ gap ++ ['/'] ∧
      (∀ c ∈ gap, Text.isBlank c = true) ∧ ∀ c ∈ blanks, Text.isBlank c = true) ∨
    ∃ blanks, attrs = attrsFront attrs ++ blanks ∧ Text.trimEnd attrs = attrsFront attrs ∧
      (attrsFront attrs).getLast? ≠ some '/' ∧ ∀ c ∈ blanks, Text.isBlank c = true := by
  obtain ⟨blanks, htrim, hblanks⟩ := Text.exists_trimEnd_append attrs
  unfold attrsFront
  by_cases hslash : (Text.trimEnd attrs).getLast? = some '/'
  · left
    obtain ⟨gap, hbody, hgap⟩ := Text.exists_trimEnd_append (Text.trimEnd attrs).dropLast
    have hlast : (Text.trimEnd attrs).dropLast ++ ['/'] = Text.trimEnd attrs :=
      List.dropLast_append_getLast? '/' hslash
    refine ⟨gap, blanks, ?_, ?_, hgap, hblanks⟩
    · rw [if_pos hslash, hbody, ← List.singleton_append, ← List.append_assoc, hlast, htrim]
    · rw [if_pos hslash, hbody, hlast]
  · right
    rw [if_neg hslash]
    exact ⟨blanks, htrim.symm, rfl, hslash, hblanks⟩

theorem attrsFront_append_attrsBack (attrs : List Char) :
    attrsFront attrs ++ attrsBack attrs = attrs := by
  have hprefix : attrsFront attrs <+: attrs := by
    rcases attrsFront_cases attrs with ⟨gap, blanks, hattrs, -⟩ | ⟨blanks, hattrs, -⟩
    · exact ⟨gap ++ '/' :: blanks, by rw [← List.append_assoc]; exact hattrs.symm⟩
    · exact ⟨blanks, hattrs.symm⟩
  exact (List.prefix_iff_eq_append.mp hprefix)

theorem attrsBack_eq {attrs rest : List Char} (h : attrs = attrsFront attrs ++ rest) :
    attrsBack attrs = rest :=
  List.append_cancel_left ((attrsFront_append_attrsBack attrs).trans h)

theorem isBlank_of_mem_attrsBack (attrs : List Char) :
    ∀ c ∈ attrsBack attrs, Text.isBlank c = true ∨ c = '/' := by
  intro c hc
  rcases attrsFront_cases attrs with ⟨gap, blanks, hattrs, -, hgap, hblanks⟩ | ⟨blanks, hattrs, -, -, hblanks⟩
  · rw [List.append_assoc] at hattrs
    rw [attrsBack_eq hattrs] at hc
    rcases List.mem_append.mp hc with hc | hc
    · exact .inl (hgap c hc)
    · rcases List.mem_cons.mp hc with rfl | hc
      · exact .inr rfl
      · exact .inl (hblanks c hc)
  · rw [attrsBack_eq hattrs] at hc
    exact .inl (hblanks c hc)

theorem appendAttribute_eq (cls attrs : List Char) :
    appendAttribute cls attrs = attrsFront attrs ++ classAttribute cls ++ attrsBack attrs := by
  have htrim : Text.trimEnd attrs ++ attrs.drop (Text.trimEnd attrs).length = attrs := by
    obtain ⟨blanks, htrim, -⟩ := Text.exists_trimEnd_append attrs
    exact List.prefix_iff_eq_append.mp ⟨blanks, htrim⟩
  unfold appendAttribute
  by_cases hslash : (Text.trimEnd attrs).getLast? = some '/'
  · have hfront : attrsFront attrs = Text.trimEnd (Text.trimEnd attrs).dropLast := if_pos hslash
    have hlast : (Text.trimEnd attrs).dropLast ++ ['/'] = Text.trimEnd attrs :=
      List.dropLast_append_getLast? '/' hslash
    obtain ⟨gap, hbody, -⟩ := Text.exists_trimEnd_append (Text.trimEnd attrs).dropLast
    have hdrop := List.prefix_iff_eq_append.mp ⟨gap, hbody⟩
    have hback : attrs = attrsFront attrs
        ++ ((Text.trimEnd attrs).dropLast.drop (attrsFront attrs).length
          ++ '/' :: attrs.drop (Text.trimEnd attrs).length) := by
      rw [hfront, ← List.append_assoc, hdrop, ← List.singleton_append, ← List.append_assoc, hlast,
        htrim]
    dsimp only
    rw [if_pos hslash, attrsBack_eq hback, hfront]
    simp only [List.append_assoc]
  · have hfront : attrsFront attrs = Text.trimEnd attrs := if_neg hslash
    have hback : attrs = attrsFront attrs ++ attrs.drop (Text.trimEnd attrs).length := by
      rw [hfront, htrim]
    dsimp only
    rw [if_neg hslash, attrsBack_eq hback, hfront]

theorem classAttribute_start :
    " class=\"".toList = [' ', 'c', 'l', 'a', 's', 's', '=', '"'] :=
  rfl

theorem classAttribute_eq (cls : List Char) :
    classAttribute cls = [' ', 'c', 'l', 'a', 's', 's', '='] ++ '"' :: (cls ++ ['"']) := by
  have htext : classAttribute cls
      = [' ', 'c', 'l', 'a', 's', 's', '=', '"'] ++ cls ++ ['"'] :=
    congrArg (fun start => start ++ cls ++ ['"']) classAttribute_start
  rw [htext]
  simp

section AddClass

variable {cls : List Char} (hcls : ∀ c ∈ cls, c ∉ ['>', '"', '\''])

include hcls

theorem alike_classAttribute : Alike [] (classAttribute cls) := by
  have hname : ∀ c ∈ [' ', 'c', 'l', 'a', 's', 's', '='], c ∉ ['>', '"', '\''] := by simp
  have htext := classAttribute_eq cls
  constructor
  · intro place
    rw [htext, Place.run_append, Place.neutral_of_chars hname place]
    exact Place.Neutral.quoted hcls place
  · intro before after h
    have hquote : '"' ∉ commentEnd := by decide
    have hblank : ' ' ∉ commentEnd := by decide
    have hsplit : commentEnd <:+: before ++ ' ' :: (['c', 'l', 'a', 's', 's', '=']
        ++ '"' :: (cls ++ '"' :: after)) := by
      simpa [htext] using h
    rw [List.append_nil]
    rcases (infix_append_cons_iff hblank).mp hsplit with hfirst | hsplit
    · exact hfirst.trans (List.prefix_append _ _).isInfix
    · rcases (infix_append_cons_iff hquote).mp hsplit with hmiddle | hsplit
      · exact absurd hmiddle (not_commentEnd_infix_of_notMem (by decide))
      · rcases (infix_append_cons_iff hquote).mp hsplit with hmiddle | hlast
        · exact absurd hmiddle (not_commentEnd_infix_of_notMem
            (Alike.notMem_inserted hcls))
        · exact hlast.trans (List.suffix_append _ _).isInfix

theorem alike_addClassToAttrs (attrs : List Char) :
    Alike attrs (addClassToAttrs cls attrs) := by
  unfold addClassToAttrs
  cases hadded : addToValue? cls (attrItems attrs) with
  | some added =>
    obtain ⟨front, name, value, back, hitems, rfl, -⟩ := exists_of_addToValue? hadded
    have hmem : AttrItem.attr name (some value) ∈ attrItems attrs := by
      rw [hitems]
      exact List.mem_append_right _ List.mem_cons_self
    have halike : Alike ((front ++ .attr name (some value) :: back).flatMap AttrItem.join) _ :=
      alike_of_split hcls (isRead_of_mem_attrItems hmem)
    rwa [← hitems, flatMap_attrItems] at halike
  | none =>
    dsimp only
    rw [appendAttribute_eq]
    have halike := ((Alike.refl (attrsFront attrs)).append (alike_classAttribute hcls)).append
      (Alike.refl (attrsBack attrs))
    rwa [List.append_nil, attrsFront_append_attrsBack] at halike

/-- A piece with a class can stand for the piece. -/
theorem Alike.addClass (piece : Piece) : Alike piece.join (piece.addClass cls).join := by
  cases piece with
  | char c => exact Alike.refl _
  | raw text => exact Alike.refl _
  | opening tag =>
    have halike := ((Alike.refl ('<' :: tag.name)).append
      (alike_addClassToAttrs hcls tag.attrs)).append (Alike.refl ['>'])
    exact halike

/-- A document with a class on every tag can stand for the document. -/
theorem alike_injectText (html : List Char) : Alike html (injectText cls html) := by
  have halike : Alike ((pieces html).flatMap Piece.join) (injectText cls html) :=
    Alike.flatMap fun piece _ => Alike.addClass hcls piece
  rwa [flatMap_pieces] at halike

end AddClass

/-! ### Tags with a class -/

/-- What an opening tag is read from. -/
structure OpenTag.IsRead (tag : OpenTag) : Prop where
  name : ∃ initial letters, tag.name = initial :: letters ∧ initial.isAlpha = true ∧
    ∀ c ∈ letters, isNameChar c = true
  head : ∀ c ∈ tag.attrs.head?, isNameChar c = false
  closed : Place.outside.run tag.attrs = some .outside

/-- A tag is read where its text begins. -/
theorem openTag?_eq_some_iff {text after : List Char} {tag : OpenTag} :
    openTag? text = some (tag, after) ↔ tag.IsRead ∧ text = tag.join ++ after := by
  constructor
  · intro h
    refine ⟨?_, (join_of_openTag? h).symm⟩
    unfold openTag? at h
    split at h
    · next c rest =>
      split at h
      · next halpha =>
        obtain ⟨⟨attrs, _⟩, hbody, heq⟩ := Option.map_eq_some_iff.mp h
        cases heq
        have hbody : tagBody? Place.outside.quote? (rest.dropWhile isNameChar)
            = some (attrs, after) := hbody
        obtain ⟨htext, hclosed⟩ := Place.tagBody?_eq_some_iff.mp hbody
        refine ⟨⟨c, _, rfl, halpha, fun d hd => List.mem_takeWhile_imp hd⟩, ?_, hclosed⟩
        have hhead := Text.head?_dropWhile (p := isNameChar) rest
        rw [htext] at hhead
        cases attrs with
        | nil => exact nofun
        | cons d attrs => exact hhead
      · cases h
    · cases h
  · rintro ⟨⟨⟨initial, letters, hname, halpha, hletters⟩, hhead, hclosed⟩, rfl⟩
    obtain ⟨_, attrs⟩ := tag
    cases hname
    have hrest : ∀ c ∈ (attrs ++ '>' :: after).head?, isNameChar c = false := by
      intro c hc
      cases attrs with
      | nil =>
        obtain rfl : '>' = c := Option.some.inj hc
        decide
      | cons d attrs => exact hhead c hc
    have hrun := takeWhile_append_of_head? hletters hrest
    have hbody : tagBody? none (attrs ++ '>' :: after) = some (attrs, after) :=
      Place.tagBody?_eq_some_iff.mpr ⟨rfl, hclosed⟩
    have htext : OpenTag.join ⟨initial :: letters, attrs⟩ ++ after
        = '<' :: initial :: (letters ++ (attrs ++ '>' :: after)) := by
      simp [OpenTag.join]
    rw [htext, openTag?, if_pos halpha, hrun.1, hrun.2, hbody]
    rfl

/-- The tags of a document that are given a class. -/
def openTags (html : List Char) : List OpenTag :=
  (pieces html).filterMap fun
    | .opening tag => some tag
    | _ => none

theorem mem_openTags {html : List Char} {tag : OpenTag} :
    tag ∈ openTags html ↔ .opening tag ∈ pieces html := by
  rw [openTags, List.mem_filterMap]
  constructor
  · rintro ⟨piece, hpiece, htag⟩
    cases piece with
    | char c => cases htag
    | raw text => cases htag
    | opening found =>
      cases htag
      exact hpiece
  · exact fun h => ⟨_, h, rfl⟩

theorem OpenTag.isRead_of_mem_openTags {html : List Char} {tag : OpenTag}
    (h : tag ∈ openTags html) : tag.IsRead := by
  rw [mem_openTags] at h
  fun_induction pieces html with
  | case1 => cases h
  | case2 c rest _ ih =>
    rcases List.mem_cons.mp h with heq | h
    · cases heq
    · exact ih h
  | case3 c rest found after hfound _ _ _ ih =>
    rcases List.mem_cons.mp h with heq | h
    · cases heq
      exact (openTag?_eq_some_iff.mp hfound).1
    · rcases List.mem_cons.mp h with heq | h
      · cases heq
      · exact ih h
  | case4 c rest found after hfound _ _ ih =>
    rcases List.mem_cons.mp h with heq | h
    · cases heq
      exact (openTag?_eq_some_iff.mp hfound).1
    · exact ih h

/-- No tag is read behind `<` and a letter when the text behind them leads to no end of one. -/
theorem openTag?_eq_none_iff {c : Char} {rest : List Char} (h : c.isAlpha = true) :
    openTag? ('<' :: c :: rest) = none ↔ (Place.outside.run rest).isSome = true := by
  have hletters : Place.Neutral (rest.takeWhile isNameChar) :=
    Place.neutral_of_chars fun d hd => notMem_of_isNameChar (List.mem_takeWhile_imp hd)
  have hrun : Place.outside.run rest = Place.outside.run (rest.dropWhile isNameChar) := by
    rw [← List.takeWhile_append_dropWhile (p := isNameChar) (l := rest), Place.run_append,
      hletters .outside, Option.bind_some, List.takeWhile_append_dropWhile]
  have hbody : tagBody? none (rest.dropWhile isNameChar) = none
      ↔ (Place.outside.run (rest.dropWhile isNameChar)).isSome = true :=
    @Place.tagBody?_eq_none_iff .outside _
  rw [openTag?, if_pos h, Option.map_eq_none_iff, hrun, hbody]

section AddClass

variable {cls : List Char} (hcls : ∀ c ∈ cls, c ∉ ['>', '"', '\''])

theorem ne_nil_of_isClassName {name : List Char} (h : isClassName name = true) : name ≠ [] := by
  rintro rfl
  exact absurd h (by decide)

/-- What follows the name of a tag goes on to begin with another character than those of names. -/
theorem head?_addClassToAttrs {attrs : List Char} (h : ∀ c ∈ attrs.head?, isNameChar c = false) :
    ∀ c ∈ (addClassToAttrs cls attrs).head?, isNameChar c = false := by
  unfold addClassToAttrs
  cases hadded : addToValue? cls (attrItems attrs) with
  | some added =>
    obtain ⟨front, name, value, back, hitems, rfl, hname, -⟩ := exists_of_addToValue? hadded
    have hattrs := flatMap_attrItems attrs
    rw [hitems] at hattrs
    obtain ⟨c, rest, hstart⟩ := List.exists_cons_of_ne_nil
      (List.append_ne_nil_of_right_ne_nil (front.flatMap AttrItem.join)
        (ne_nil_of_isClassName hname))
    have hsame (value : Option AttrValue) :
        (front ++ .attr name value :: back).flatMap AttrItem.join
          = c :: (rest ++ ((value.map AttrValue.join).getD [] ++ back.flatMap AttrItem.join)) := by
      rw [List.flatMap_append, List.flatMap_cons, AttrItem.join, ← List.cons_append, ← hstart]
      simp only [List.append_assoc]
    rw [hsame] at hattrs
    dsimp only
    rw [hsame]
    rw [← hattrs] at h
    exact h
  | none =>
    dsimp only
    rw [appendAttribute_eq, classAttribute_eq]
    rw [← attrsFront_append_attrsBack attrs] at h
    intro c hc
    cases hfront : attrsFront attrs with
    | nil =>
      rw [hfront] at hc
      obtain rfl : ' ' = c := Option.some.inj hc
      decide
    | cons d front =>
      rw [hfront] at h hc
      exact h c hc

include hcls

/-- A tag with a class is read as one tag. -/
theorem OpenTag.IsRead.addClass {tag : OpenTag} (h : tag.IsRead) : (tag.addClass cls).IsRead where
  name := h.name
  head := head?_addClassToAttrs h.head
  closed := by
    rw [OpenTag.addClass, (alike_addClassToAttrs hcls tag.attrs).run]
    exact h.closed

theorem openTag?_join_addClass {text after : List Char} {tag : OpenTag}
    (h : openTag? text = some (tag, after)) (rest : List Char) :
    openTag? ((tag.addClass cls).join ++ rest) = some (tag.addClass cls, rest) := by
  obtain ⟨hread, -⟩ := openTag?_eq_some_iff.mp h
  exact openTag?_eq_some_iff.mpr ⟨hread.addClass hcls, rfl⟩

end AddClass

end SiteTree.Markup
