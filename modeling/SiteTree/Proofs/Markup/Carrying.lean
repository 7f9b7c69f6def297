import SiteTree.ScopeId
import SiteTree.Proofs.Markup.Precedence
import SiteTree.Proofs.Markup.Reading

/-!
# Tags that carry a class

A tag carries a class when its first attribute named `class` has the class among the words of its
value. Whoever reads a document finds the class on every tag, but for four things that are misread
on the way: an attribute `class` without a value in front of the new one, an attribute with an
equals sign and no value, which takes in the new attribute, a comment with the beginning of a tag or
of raw text, and the slash of a value that seems to close a script.

* `OpenTag.carries_addClass_iff` — which tags carry a class that they are given.
* `OpenTag.keepsRaw_of` — only a script or style that closes itself can change in what follows it.
* `tags_carry_iff` — when all tags of a document that is given a class carry it.
-/

namespace SiteTree.Markup

/-! ### The first class of a tag -/

/-- The value of an attribute named `class`. -/
def AttrItem.class? : AttrItem → Option (Option AttrValue)
  | attr name value => if isClassName name then some value else none
  | other _ => none

/-- The value of the first attribute named `class`. -/
def firstClass? (items : List AttrItem) : Option (Option AttrValue) :=
  items.findSome? AttrItem.class?

theorem firstClass?_cons (item : AttrItem) (items : List AttrItem) :
    firstClass? (item :: items) = item.class?.or (firstClass? items) := by
  rw [firstClass?, List.findSome?_cons]
  cases item.class? with
  | none => rfl
  | some value => rfl

theorem firstClass?_append (front items : List AttrItem) :
    firstClass? (front ++ items) = (firstClass? front).or (firstClass? items) :=
  List.findSome?_append

theorem firstClass?_eq_none {items : List AttrItem}
    (h : ∀ name value, .attr name value ∈ items → isClassName name = false) :
    firstClass? items = none := by
  refine List.findSome?_eq_none_iff.mpr fun item hitem => ?_
  cases item with
  | other c => rfl
  | attr name value => rw [AttrItem.class?, h name value hitem, if_neg (by simp)]

theorem firstClass?_of_split {front back : List AttrItem} {name : List Char}
    {value : Option AttrValue} (hname : isClassName name = true)
    (hfront : ∀ other value, .attr other value ∈ front → isClassName other = false) :
    firstClass? (front ++ .attr name value :: back) = some value := by
  rw [firstClass?_append, firstClass?_eq_none hfront, firstClass?_cons, AttrItem.class?,
    if_pos hname]
  rfl

theorem addToValue?_eq_none_iff {cls : List Char} {items : List AttrItem} :
    addToValue? cls items = none ↔ ∀ value, firstClass? items ≠ some (some value) := by
  induction items with
  | nil => simp [addToValue?, firstClass?]
  | cons item items ih =>
    rw [firstClass?_cons]
    cases item with
    | other c =>
      rw [addToValue?, Option.map_eq_none_iff, ih]
      rfl
    | attr name value =>
      have hattr : addToValue? cls (.attr name value :: items)
          = if isClassName name then
              value.map fun value => .attr name (some (value.addClass cls)) :: items
            else (addToValue? cls items).map (.attr name value :: ·) := rfl
      rw [hattr, AttrItem.class?]
      by_cases hclass : isClassName name = true
      · rw [if_pos hclass, if_pos hclass]
        simp [Option.eq_none_iff_forall_ne_some]
      · rw [if_neg hclass, if_neg hclass, Option.map_eq_none_iff, ih]
        rfl

namespace OpenTag

/-- The value of the first attribute of a tag that is named `class`. -/
def class? (tag : OpenTag) : Option (Option AttrValue) :=
  firstClass? (attrItems tag.attrs)

theorem class?_join_eq_none {tag : OpenTag} (h : ∀ value, tag.class? ≠ some (some value)) :
    tag.class?.join = none := by
  rw [Option.eq_none_iff_forall_ne_some]
  exact fun value hvalue => h value (Option.join_eq_some_iff.mp hvalue)

/-- Does the first attribute named `class` have the class among the words of its value? -/
def Carries (cls : List Char) (tag : OpenTag) : Prop :=
  ∃ value, tag.class? = some (some value) ∧ cls ∈ Text.words value.text

/-- A class is put into the value of the first attribute named `class`, or, when there is no such
value, into an attribute of its own. -/
theorem addClass_cases (cls : List Char) (tag : OpenTag) :
    (∃ front name value back, attrItems tag.attrs = front ++ .attr name (some value) :: back ∧
        isClassName name = true ∧
        (∀ other value, .attr other value ∈ front → isClassName other = false) ∧
        tag.class? = some (some value) ∧ (tag.addClass cls).attrs
          = (front ++ .attr name (some (value.addClass cls)) :: back).flatMap AttrItem.join) ∨
      (∀ value, tag.class? ≠ some (some value)) ∧
        (tag.addClass cls).attrs = appendAttribute cls tag.attrs := by
  have hattrs : (tag.addClass cls).attrs = addClassToAttrs cls tag.attrs := rfl
  rw [hattrs, addClassToAttrs]
  cases hadded : addToValue? cls (attrItems tag.attrs) with
  | some added =>
    obtain ⟨front, name, value, back, hitems, rfl, hname, hfront⟩ := exists_of_addToValue? hadded
    have hclass : tag.class? = some (some value) := by
      rw [class?, hitems, firstClass?_of_split hname hfront]
    exact .inl ⟨front, name, value, back, hitems, hname, hfront, hclass, rfl⟩
  | none => exact .inr ⟨addToValue?_eq_none_iff.mp hadded, rfl⟩

instance (cls : List Char) (tag : OpenTag) : Decidable (tag.Carries cls) :=
  decidable_of_iff ((tag.class?.join.any fun value => (Text.words value.text).contains cls) = true)
    (by
      rw [Option.any_eq_true]
      simp only [Option.join_eq_some_iff, List.contains_iff_mem, Carries])

/-- What stands in front of the place where a tag is given a class: in front of its first attribute
named `class` if that one has a value, and otherwise all but what closes the tag. -/
def itemsBefore (tag : OpenTag) : List AttrItem :=
  match tag.class? with
  | some (some _) => (attrItems tag.attrs).takeWhile (·.class?.isNone)
  | _ => attrItems (attrsFront tag.attrs)

theorem itemsBefore_of_split {tag : OpenTag} {front back : List AttrItem} {name : List Char}
    {value : AttrValue} (hitems : attrItems tag.attrs = front ++ .attr name (some value) :: back)
    (hname : isClassName name = true)
    (hfront : ∀ other value, .attr other value ∈ front → isClassName other = false) :
    tag.itemsBefore = front := by
  have hnone : ∀ item ∈ front, item.class?.isNone = true := fun item hitem =>
    Option.isNone_iff_eq_none.mpr
      (List.findSome?_eq_none_iff.mp (firstClass?_eq_none hfront) item hitem)
  have hstop : ¬ (AttrItem.attr name (some value)).class?.isNone = true := by
    rw [AttrItem.class?, if_pos hname]
    exact Bool.false_ne_true
  rw [itemsBefore, class?, hitems, firstClass?_of_split hname hfront]
  change (front ++ _).takeWhile _ = front
  rw [List.takeWhile_append_of_pos hnone,
    List.takeWhile_cons_of_neg (p := fun item : AttrItem => item.class?.isNone) hstop,
    List.append_nil]

/-- A new attribute `class` is put behind all but what closes the tag. -/
theorem itemsBefore_of_ne {tag : OpenTag} (h : ∀ value, tag.class? ≠ some (some value)) :
    tag.itemsBefore = attrItems (attrsFront tag.attrs) := by
  unfold itemsBefore
  split
  · next value heq => exact absurd heq (h value)
  · rfl

end OpenTag

/-! #### A class in a value -/

section AddClass

variable {cls : List Char} (hcls : ∀ c ∈ cls, c ∉ ['>', '"', '\''])

theorem quote_addClass {value : AttrValue} (h : (value.addClass cls).quote = none) :
    value.addClass cls = value := by
  unfold AttrValue.addClass at h ⊢
  split
  · rfl
  · next hnot =>
    rw [if_neg hnot] at h
    cases hquote : value.quote with
    | none => simp [hquote] at h
    | some quote => simp [hquote] at h

include hcls

theorem AttrValue.IsRead.addClass {value : AttrValue} (h : value.IsRead) :
    (value.addClass cls).IsRead := by
  obtain ⟨hequals, hquoted, hbare⟩ := h
  unfold AttrValue.addClass
  split
  · exact ⟨hequals, hquoted, hbare⟩
  · obtain ⟨equals, quote, text⟩ := value
    refine ⟨hequals, ?_, fun hnone => ?_⟩
    · intro added hadded
      have hinserted : added = '"' ∨ added = '\'' →
          added ∉ (if Text.allBlank text then [] else [' ']) ++ cls := by
        intro hquote hmem
        have hnot := notMem_of_inserted hcls text added hmem
        rcases hquote with rfl | rfl
        · exact hnot (by decide)
        · exact hnot (by decide)
      have htext : (added = '"' ∨ added = '\'') ∧ added ∉ text := by
        cases quote with
        | some quote =>
          obtain rfl : quote = added := Option.some.inj hadded
          exact hquoted quote rfl
        | none =>
          obtain rfl : '"' = added := Option.some.inj hadded
          refine ⟨.inl rfl, fun hmem => ?_⟩
          exact notMem_of_isBareChars (hbare rfl).2 '"' hmem (by decide)
      refine ⟨htext.1, ?_⟩
      dsimp only
      rw [List.append_assoc, List.mem_append, not_or]
      exact ⟨htext.2, hinserted htext.1⟩
    · cases quote with
      | some quote => cases hnone
      | none => cases hnone

omit hcls in
theorem words_of_isBareChars (hbare : ∀ c ∈ cls, isBareChar c = true) (hne : cls ≠ []) :
    Text.words cls = [cls] :=
  Text.words_eq_singleton hne fun c hc => (notMem_of_isBareChar (hbare c hc)).1

omit hcls in
theorem mem_words_addClass (hword : Text.words cls = [cls]) (value : AttrValue) :
    cls ∈ Text.words (value.addClass cls).text := by
  unfold AttrValue.addClass
  split
  · next hmem => exact List.contains_iff_mem.mp hmem
  · dsimp only
    have hlast : ∀ c ∈ (value.text ++ if Text.allBlank value.text then [] else [' ']).getLast?,
        Text.isBlank c = true := by
      intro c hc
      split at hc
      · next hblank =>
        rw [List.append_nil] at hc
        exact List.all_eq_true.mp hblank c (List.mem_of_getLast? hc)
      · rw [List.getLast?_concat] at hc
        obtain rfl : ' ' = c := Option.some.inj hc
        decide
    rw [Text.words_append hlast, hword]
    exact List.mem_append_right _ (List.mem_singleton_self cls)

/-- A class brings no quotes but those that a value without quotes is put in. -/
theorem mem_join_of_addClass {c : Char} {value : AttrValue}
    (hc : c = '\'' ∨ c = '"' ∧ value.quote.isSome = true) (h : c ∈ (value.addClass cls).join) :
    c ∈ value.join := by
  unfold AttrValue.addClass at h
  split at h
  · exact h
  · have hinserted : c ∉ (if Text.allBlank value.text then [] else [' ']) ++ cls := by
      intro hmem
      have hnot := notMem_of_inserted hcls value.text c hmem
      rcases hc with rfl | ⟨rfl, -⟩
      · exact hnot (by decide)
      · exact hnot (by decide)
    have hquote (hmem : c ∈ (value.quote.or (some '"')).toList) : c ∈ value.quote.toList := by
      cases hquote : value.quote with
      | none =>
        rw [hquote] at hmem hc
        obtain rfl : c = '"' := by simpa using hmem
        simp at hc
      | some quote => simpa [hquote] using hmem
    simp only [AttrValue.join, List.append_assoc, List.mem_append, not_or] at h hinserted ⊢
    tauto

/-- What stood in front of an attribute stands in front of it with another value, too. -/
theorem follows_addClass {name behind : List Char} {value : AttrValue} (hne : name ≠ [])
    (hname : ∀ c ∈ name, isAttrNameChar c = true) :
    Follows (name ++ (value.join ++ behind)) (name ++ ((value.addClass cls).join ++ behind)) := by
  cases name with
  | nil => exact absurd rfl hne
  | cons d name =>
    obtain ⟨hblank, hnot⟩ := notMem_of_isAttrNameChar (hname d List.mem_cons_self)
    refine ⟨fun c hc _ => hc, ?_, ?_⟩
    · rw [List.cons_append, List.dropWhile_cons_of_neg (by simp [hblank]), List.head?_cons]
      rintro (_ | _)
      exact hnot (by decide)
    · intro hmem
      rcases List.mem_append.mp hmem with hmem | hmem
      · exact List.mem_append_left _ hmem
      · refine List.mem_append_right _ (List.mem_append.mpr ?_)
        exact (List.mem_append.mp hmem).imp_left (mem_join_of_addClass hcls (.inl rfl))

/-- What dangles in front of an attribute in quotes keeps its value. -/
theorem keeps_addClass {name behind : List Char} {value : AttrValue} (hne : name ≠ [])
    (hname : ∀ c ∈ name, isAttrNameChar c = true) (hquoted : value.quote.isSome = true) :
    Keeps (name ++ (value.join ++ behind)) (name ++ ((value.addClass cls).join ++ behind)) := by
  constructor
  · cases name with
    | nil => exact absurd rfl hne
    | cons d name => exact ⟨d, rfl, isBareChar_of_isAttrNameChar (hname d List.mem_cons_self)⟩
  · intro hmem
    rcases List.mem_append.mp hmem with hmem | hmem
    · exact List.mem_append_left _ hmem
    · refine List.mem_append_right _ (List.mem_append.mpr ?_)
      exact (List.mem_append.mp hmem).imp_left (mem_join_of_addClass hcls (.inr ⟨rfl, hquoted⟩))

theorem attrItems_addClass {attrs name : List Char} {front back : List AttrItem}
    {value : AttrValue} (h : attrItems attrs = front ++ .attr name (some value) :: back)
    (hdangles : dangles front = false ∨ value.quote.isSome = true) :
    attrItems ((front ++ .attr name (some (value.addClass cls)) :: back).flatMap AttrItem.join)
      = front ++ .attr name (some (value.addClass cls)) :: back := by
  have hold := attrItems_flatMap_of_append h
  obtain ⟨rest, htext, ⟨hne, hname, hread, hafter⟩, hback⟩ := attrItems_eq_cons_iff.mp hold
  rw [List.flatMap_cons] at htext
  obtain rfl := List.append_cancel_left htext
  have hattr (value : AttrValue) : (AttrItem.attr name (some value) :: back).flatMap AttrItem.join
      = name ++ (value.join ++ back.flatMap AttrItem.join) := by
    simp [AttrItem.join]
  have hnew : attrItems (name ++ ((value.addClass cls).join ++ back.flatMap AttrItem.join))
      = .attr name (some (value.addClass cls)) :: back := by
    rw [← hattr]
    refine attrItems_eq_cons_iff.mpr
      ⟨back.flatMap AttrItem.join, List.flatMap_cons .., ⟨hne, hname, hread.addClass hcls, ?_⟩, hback⟩
    intro hnone
    rw [quote_addClass hnone] at hnone
    exact hafter hnone
  have hfront := flatMap_attrItems attrs
  rw [h, List.flatMap_append, hattr] at hfront
  rw [hattr] at hold
  have hhead : ∀ c ∈ (name ++ ((value.addClass cls).join ++ back.flatMap AttrItem.join)).head?,
      isBareChar c = true → c ∈ (name ++ (value.join ++ back.flatMap AttrItem.join)).head? := by
    cases name with
    | nil => exact absurd rfl hne
    | cons d name => exact fun c hc _ => hc
  rw [List.flatMap_append, hattr,
    (follows_addClass hcls hne hname).attrItems_append
      (hdangles.imp_right (keeps_addClass hcls hne hname)) hhead, hnew]
  rw [hfront, h, hold]

end AddClass

/-! #### A class in an attribute of its own -/

theorem isAttrNameChar_of_closing {c : Char} (h : Text.isBlank c = true ∨ c = '/') :
    isAttrNameChar c = false := by
  rcases h with hblank | rfl
  · exact isAttrNameChar_of_isBlank hblank
  · decide

/-- What closes a tag has no attributes. -/
theorem attrItems_closing {chars : List Char} (h : ∀ c ∈ chars, Text.isBlank c = true ∨ c = '/') :
    attrItems chars = chars.map .other := by
  have hitems := attrItems_others (fun c hc => isAttrNameChar_of_closing (h c hc)) []
  rwa [List.append_nil, attrItems, List.append_nil] at hitems

theorem firstClass?_others (chars : List Char) : firstClass? (chars.map .other) = none :=
  firstClass?_eq_none fun name value hmem => by simp at hmem

theorem attrItems_append_nil (text : List Char) :
    attrItems ((attrItems text).flatMap AttrItem.join ++ []) = attrItems text ++ attrItems [] := by
  rw [flatMap_attrItems, List.append_nil, attrItems, List.append_nil]

/-- The value of an attribute that holds a class alone. -/
def classValue (cls : List Char) : AttrValue :=
  ⟨['='], some '"', cls⟩

theorem className_eq : "class".toList = ['c', 'l', 'a', 's', 's'] :=
  rfl

theorem classAttribute_eq_append (cls : List Char) :
    classAttribute cls = ' ' :: ("class".toList ++ (classValue cls).join) := by
  rw [classAttribute_eq, className_eq]
  rfl

section ClassAttribute

variable {cls attrs : List Char} (hcls : ∀ c ∈ cls, c ∉ ['>', '"', '\''])

include hcls

theorem isRead_classValue : (classValue cls).IsRead := by
  refine ⟨⟨[], [], rfl, nofun, nofun⟩, ?_, nofun⟩
  intro quote hquote
  obtain rfl : '"' = quote := Option.some.inj hquote
  exact ⟨.inl rfl, fun hmem => hcls '"' hmem (by decide)⟩

theorem attrItems_classAttribute (rest : List Char) :
    attrItems (classAttribute cls ++ rest)
      = .other ' ' :: .attr "class".toList (some (classValue cls)) :: attrItems rest := by
  rw [classAttribute_eq_append, List.cons_append, List.append_assoc, attrItems_other (by decide)]
  congr 1
  refine attrItems_eq_cons_iff.mpr ⟨rest, (List.append_assoc ..).symm, ?_, rfl⟩
  have hname : ∀ c ∈ "class".toList, isAttrNameChar c = true := List.all_eq_true.mp (by decide)
  exact ⟨by decide, hname, isRead_classValue hcls, nofun⟩

theorem follows_classAttribute : Follows [] (classAttribute cls ++ attrsBack attrs) := by
  rw [classAttribute_eq]
  refine ⟨?_, ?_, ?_⟩
  · rintro c (_ | _) hbare
    exact absurd hbare (by decide)
  · change (List.dropWhile Text.isBlank (' ' :: 'c' :: _)).head? ≠ some '='
    rw [List.dropWhile_cons_of_pos (by decide), List.dropWhile_cons_of_neg (by decide),
      List.head?_cons]
    decide
  · have hcls : '\'' ∉ cls := fun hmem =>
      hcls '\'' hmem (by decide)
    have hback : '\'' ∉ attrsBack attrs := by
      intro hmem
      rcases isBlank_of_mem_attrsBack attrs _ hmem with hblank | hslash
      · exact absurd hblank (by decide)
      · exact absurd hslash (by decide)
    simp [hcls, hback]

theorem attrItems_appendAttribute (hdangles : dangles (attrItems (attrsFront attrs)) = false) :
    attrItems (appendAttribute cls attrs) = attrItems (attrsFront attrs)
      ++ .other ' ' :: .attr "class".toList (some (classValue cls))
        :: (attrsBack attrs).map .other := by
  have hfollows : Follows [] (classAttribute cls ++ attrsBack attrs) := follows_classAttribute hcls
  have hhead : ∀ c ∈ (classAttribute cls ++ attrsBack attrs).head?, isBareChar c = true →
      c ∈ ([] : List Char).head? := by
    rw [classAttribute_eq]
    rintro c (_ | _) hbare
    exact absurd hbare (by decide)
  have hitems := hfollows.attrItems_append (.inl hdangles) hhead (attrItems_append_nil _)
  rw [flatMap_attrItems, attrItems_classAttribute hcls, attrItems_closing (isBlank_of_mem_attrsBack attrs)]
    at hitems
  rw [appendAttribute_eq, List.append_assoc, hitems]

end ClassAttribute

/-- A value without quotes takes in the slash behind it. -/
theorem attrItems_bare_append {name back : List Char} {value : AttrValue}
    (hback : ∀ c ∈ back, Text.isBlank c = true ∨ c = '/') (hnone : value.quote = none)
    (h : (AttrItem.attr name (some value)).Precedes []) :
    ∃ longer, attrItems ((AttrItem.attr name (some value)).join ++ back)
      = .attr name (some longer) :: (back.dropWhile isBareChar).map .other := by
  obtain ⟨hne, hname, ⟨hequals, -, hbare⟩, -⟩ := h
  obtain ⟨equals, quote, text⟩ := value
  obtain rfl : quote = none := hnone
  obtain ⟨htext, hchars⟩ := hbare rfl
  refine ⟨⟨equals, none, text ++ back.takeWhile isBareChar⟩, ?_⟩
  refine attrItems_eq_cons_iff.mpr ⟨back.dropWhile isBareChar, ?_, ⟨hne, hname, ⟨hequals, nofun, ?_⟩,
    fun _ => Text.head?_dropWhile back⟩,
    attrItems_closing fun c hc => hback c ((List.dropWhile_suffix _).subset hc)⟩
  · simp [AttrItem.join, AttrValue.join]
  · refine fun _ => ⟨List.append_ne_nil_of_left_ne_nil htext _, fun c hc => ?_⟩
    rcases List.mem_append.mp hc with hc | hc
    · exact hchars c hc
    · exact List.mem_takeWhile_imp hc

/-- What closes a tag can stand behind attributes. -/
theorem follows_closing {back : List Char} (hback : ∀ c ∈ back, Text.isBlank c = true ∨ c = '/') :
    Follows [] back := by
  refine ⟨fun c hc hchar => ?_, ?_, fun hmem => ?_⟩
  · have hnot := isAttrNameChar_of_closing (hback c (List.mem_of_mem_head? hc))
    exact absurd hchar (by simp [hnot])
  · intro hequals
    have hmem := (List.dropWhile_suffix _).subset (List.mem_of_mem_head? hequals)
    exact absurd (hback '=' hmem) (by decide)
  · exact absurd (hback '\'' hmem) (by decide)

/-- What closes a tag is no part of its attributes, unless the last value goes on with its slash. -/
theorem attrItems_append_back {front : List AttrItem} {back : List Char}
    (hback : ∀ c ∈ back, Text.isBlank c = true ∨ c = '/')
    (hitems : attrItems (front.flatMap AttrItem.join) = front) (hdangles : dangles front = false) :
    attrItems (front.flatMap AttrItem.join ++ back) = front ++ back.map .other ∨
      ∃ before name value longer, front = before ++ [.attr name (some value)] ∧
        value.quote = none ∧ back.head? = some '/' ∧
        attrItems (front.flatMap AttrItem.join ++ back)
          = before ++ .attr name (some longer) :: (back.dropWhile isBareChar).map .other := by
  have hfollows := follows_closing hback
  induction front with
  | nil =>
    rw [List.flatMap_nil, List.nil_append, attrItems_closing hback]
    exact .inl rfl
  | cons item front ih =>
    obtain ⟨rest, htext, hprecedes, hrest⟩ := attrItems_eq_cons_iff.mp hitems
    obtain rfl := List.append_cancel_left ((List.flatMap_cons ..).symm.trans htext)
    obtain ⟨hopen, hdangles⟩ := dangles_cons hdangles
    rw [List.flatMap_cons, List.append_assoc]
    by_cases hbare : ∀ name value, item = .attr name (some value) → value.quote = none →
        ∀ c ∈ (front.flatMap AttrItem.join ++ back).head?, isBareChar c = false
    · rw [← List.append_nil (front.flatMap AttrItem.join)] at hprecedes
      have hitem := attrItems_eq_cons_iff.mpr
        ⟨_, rfl, hfollows.precedes hprecedes (fun name hname => .inl (hopen name hname)) hbare, rfl⟩
      rw [hitem]
      rcases ih hrest hdangles with hsame | ⟨before, name, value, longer, rfl, hnone, hslash, hlonger⟩
      · rw [hsame]
        exact .inl rfl
      · rw [hlonger]
        exact .inr ⟨item :: before, name, value, longer, rfl, hnone, hslash, rfl⟩
    · push Not at hbare
      obtain ⟨name, value, rfl, hnone, c, hc, hchar⟩ := hbare
      have hafter := hprecedes.2.2.2 hnone
      cases hfront : front.flatMap AttrItem.join with
      | cons d text =>
        rw [hfront] at hafter hc
        exact absurd (hafter c hc) (by simpa using hchar)
      | nil =>
        rw [hfront] at hprecedes hrest hc
        obtain rfl : [] = front := by rwa [attrItems] at hrest
        obtain ⟨longer, hitems⟩ := attrItems_bare_append hback hnone hprecedes
        refine .inr ⟨[], name, value, longer, rfl, hnone, ?_, hitems⟩
        rcases hback c (List.mem_of_mem_head? hc) with hblank | rfl
        · exact absurd (isBareChar_of_isBlank hblank) (by simpa using hchar)
        · exact hc

/-- What closes a tag has no class, but for the one whose value goes on with its slash. -/
theorem firstClass?_append_back {front : List AttrItem} {back : List Char}
    (hback : ∀ c ∈ back, Text.isBlank c = true ∨ c = '/')
    (hitems : attrItems (front.flatMap AttrItem.join) = front) (hdangles : dangles front = false)
    (hvalue : ∀ value, firstClass? (attrItems (front.flatMap AttrItem.join ++ back))
      ≠ some (some value)) :
    firstClass? (attrItems (front.flatMap AttrItem.join ++ back)) = firstClass? front := by
  rcases attrItems_append_back hback hitems hdangles with
    hsame | ⟨before, name, value, longer, rfl, -, -, hlonger⟩
  · rw [hsame, firstClass?_append, firstClass?_others, Option.or_none]
  · rw [hlonger] at hvalue ⊢
    rw [firstClass?_append, firstClass?_cons, firstClass?_others, Option.or_none] at hvalue ⊢
    rw [firstClass?_append, firstClass?_cons]
    by_cases hclass : isClassName name = true
    · rw [AttrItem.class?, if_pos hclass] at hvalue ⊢
      rw [AttrItem.class?, if_pos hclass]
      cases hbefore : firstClass? before with
      | some found => rfl
      | none =>
        rw [hbefore] at hvalue
        exact absurd rfl (hvalue longer)
    · rw [AttrItem.class?, AttrItem.class?, if_neg hclass, if_neg hclass]
      rfl

namespace OpenTag

section AddClass

variable {cls : List Char} {tag : OpenTag} (hcls : ∀ c ∈ cls, c ∉ ['>', '"', '\''])
  (hdangles : dangles tag.itemsBefore = false)

include hcls hdangles

/-- The first attribute `class` with a value keeps its place and has the class added to its value. -/
theorem class?_addClass_of_some {value : AttrValue} (h : tag.class? = some (some value)) :
    (tag.addClass cls).class? = some (some (value.addClass cls)) := by
  rcases tag.addClass_cases cls with
    ⟨front, name, found, back, hitems, hname, hfront, hfound, hattrs⟩ | ⟨hnot, -⟩
  · cases h.symm.trans hfound
    rw [itemsBefore_of_split hitems hname hfront] at hdangles
    rw [class?, hattrs, attrItems_addClass hcls hitems (.inl hdangles),
      firstClass?_of_split hname hfront]
  · exact absurd h (hnot value)

/-- A new attribute `class` is the first one unless there is one in front of it. -/
theorem class?_addClass_of_ne (h : ∀ value, tag.class? ≠ some (some value)) :
    (tag.addClass cls).class? = tag.class?.or (some (some (classValue cls))) := by
  rw [itemsBefore_of_ne h] at hdangles
  have hitems := flatMap_attrItems (attrsFront tag.attrs)
  have hclass : tag.class? = firstClass? (attrItems (attrsFront tag.attrs)) := by
    have hback := firstClass?_append_back (isBlank_of_mem_attrsBack tag.attrs)
      (congrArg attrItems hitems) hdangles
    rw [hitems, attrsFront_append_attrsBack] at hback
    exact hback h
  have hvalue : (AttrItem.attr "class".toList (some (classValue cls))).class?
      = some (some (classValue cls)) := by
    have hname : isClassName "class".toList = true := beq_self_eq_true _
    rw [AttrItem.class?, if_pos hname]
  change firstClass? (attrItems (addClassToAttrs cls tag.attrs)) = _
  rw [addClassToAttrs, addToValue?_eq_none_iff.mpr h]
  dsimp only
  rw [attrItems_appendAttribute hcls hdangles, firstClass?_append, ← hclass, firstClass?_cons,
    firstClass?_cons, hvalue]
  rfl

/-- A tag that is given a class carries it, unless its first attribute `class` has no value. -/
theorem carries_addClass_iff (hword : Text.words cls = [cls]) :
    (tag.addClass cls).Carries cls ↔ tag.class? ≠ some none := by
  unfold Carries
  match htag : tag.class? with
  | some (some value) =>
    rw [class?_addClass_of_some hcls hdangles htag]
    exact iff_of_true ⟨_, rfl, mem_words_addClass hword value⟩ nofun
  | some none =>
    rw [class?_addClass_of_ne hcls hdangles (by simp [htag]), htag]
    simp
  | none =>
    rw [class?_addClass_of_ne hcls hdangles (by simp [htag]), htag]
    refine iff_of_true ⟨classValue cls, rfl, ?_⟩ nofun
    change cls ∈ Text.words cls
    rw [hword]
    exact List.mem_singleton_self cls

end AddClass

end OpenTag

/-! ### Tags that close themselves -/

/-- A value that has changed ends in a quote. -/
theorem addClass_eq_or_exists {value : AttrValue} (cls : List Char) (h : value.IsRead) :
    value.addClass cls = value ∨
      ∃ front quote, (value.addClass cls).join = front ++ [quote] ∧ quote ∈ ['"', '\''] := by
  unfold AttrValue.addClass
  split
  · exact .inl rfl
  · right
    cases hquote : value.quote with
    | none => exact ⟨_, '"', rfl, by decide⟩
    | some quote =>
      refine ⟨_, quote, rfl, ?_⟩
      rcases (h.quoted quote hquote).1 with rfl | rfl
      · decide
      · decide

/-- A tag that is given a class does not close itself if it did not before. -/
theorem OpenTag.isSelfClosing_addClass {tag : OpenTag} (cls : List Char)
    (h : tag.isSelfClosing = false) : (tag.addClass cls).isSelfClosing = false := by
  have hlast : (Text.trimEnd tag.attrs).getLast? ≠ some '/' := by
    simpa [isSelfClosing] using h
  suffices hgoal : (Text.trimEnd (addClassToAttrs cls tag.attrs)).getLast? ≠ some '/' by
    simpa [isSelfClosing, addClass] using hgoal
  unfold addClassToAttrs
  cases hadded : addToValue? cls (attrItems tag.attrs) with
  | some added =>
    obtain ⟨front, name, value, back, hitems, rfl, -⟩ := exists_of_addToValue? hadded
    have hmem : .attr name (some value) ∈ attrItems tag.attrs :=
      hitems ▸ List.mem_append_right _ List.mem_cons_self
    have hread := isRead_of_mem_attrItems hmem
    have hattrs := flatMap_attrItems tag.attrs
    rcases addClass_eq_or_exists cls hread with hsame | ⟨start, quote, hjoin, hquote⟩
    · dsimp only
      rwa [hsame, ← hitems, hattrs]
    · have hclosed : Text.isBlank quote = false ∧ some quote ≠ some '/' := by
        simp only [List.mem_cons, List.not_mem_nil, or_false] at hquote
        rcases hquote with rfl | rfl
        · decide
        · decide
      have htext (value : AttrValue) :
          (front ++ .attr name (some value) :: back).flatMap AttrItem.join
            = front.flatMap AttrItem.join ++ name ++ value.join ++ back.flatMap AttrItem.join := by
        simp [AttrItem.join]
      rw [← hattrs, hitems, htext, Text.getLast?_trimEnd_append] at hlast
      dsimp only
      rw [htext, Text.getLast?_trimEnd_append, hjoin, ← List.append_assoc,
        Text.trimEnd_concat _ hclosed.1, List.getLast?_concat]
      cases hback : (Text.trimEnd (back.flatMap AttrItem.join)).getLast? with
      | none => exact hclosed.2
      | some c =>
        rw [hback] at hlast
        exact hlast
  | none =>
    dsimp only
    rw [appendAttribute_eq]
    rcases attrsFront_cases tag.attrs with ⟨gap, blanks, -, htrim, -⟩ | ⟨blanks, hattrs, -, -, hblanks⟩
    · rw [htrim, List.getLast?_concat] at hlast
      exact absurd rfl hlast
    · obtain ⟨front, hclass⟩ : ∃ front, classAttribute cls = front ++ ['"'] := ⟨_, rfl⟩
      have hquote : Text.isBlank '"' = false := by decide
      rw [attrsBack_eq hattrs, Text.trimEnd_append_blanks _ hblanks, hclass, ← List.append_assoc,
        Text.trimEnd_concat _ hquote, List.getLast?_concat]
      decide

/-- Only a script or style that closes itself can change in what follows it. -/
theorem OpenTag.keepsRaw_of {tag : OpenTag} (cls : List Char)
    (h : tag.isSelfClosing = true → rawElements.contains (tag.name.map Char.toLower) = false) :
    tag.KeepsRaw cls := by
  rw [KeepsRaw, opensRaw, opensRaw, addClass]
  cases hself : tag.isSelfClosing with
  | true => rw [h hself, Bool.false_and, Bool.false_and]
  | false =>
    rw [← addClass, isSelfClosing_addClass cls hself]
    rfl

/-! ### Documents -/

theorem isBareChar_of_isNameChar {c : Char} (h : isNameChar c = true) : isBareChar c = true := by
  rw [isBareChar, Bool.not_eq_true', Bool.or_eq_false_iff]
  constructor
  · by_contra hblank
    exact absurd h (by simp [isNameChar_of_isBlank (by simpa using hblank)])
  · rw [Bool.eq_false_iff, Ne, List.contains_iff_mem]
    intro hmem
    simp only [List.mem_cons, List.not_mem_nil, or_false] at hmem
    rcases hmem with rfl | rfl | rfl | rfl | rfl | rfl
    all_goals exact absurd h (by decide)

/-- The class of a scope can stand in a tag without quotes. -/
theorem isBareChar_of_mem_className {id : ScopeId} (h : ∀ c ∈ id.text.toList, c.isAlphanum = true) :
    ∀ c ∈ id.className.toList, isBareChar c = true := by
  intro c hc
  refine isBareChar_of_isNameChar ?_
  rw [ScopeId.className, String.toList_append] at hc
  rcases List.mem_append.mp hc with hc | hc
  · have hletters : ∀ c ∈ "-q".toList, isNameChar c = true := List.all_eq_true.mp (by decide)
    exact hletters c hc
  · simp [isNameChar, h c hc]

/-- A tag that a class is put into as it should be: nothing in it takes in what comes behind, and
whether raw text follows stays as it is. -/
structure OpenTag.Takes (cls : List Char) (tag : OpenTag) : Prop where
  closed : dangles tag.itemsBefore = false
  keepsRaw : tag.KeepsRaw cls

instance (cls : List Char) (tag : OpenTag) : Decidable (tag.Takes cls) :=
  decidable_of_iff (dangles tag.itemsBefore = false ∧ (tag.addClass cls).opensRaw = tag.opensRaw)
    ⟨fun ⟨closed, keepsRaw⟩ => ⟨closed, keepsRaw⟩, fun ⟨closed, keepsRaw⟩ => ⟨closed, keepsRaw⟩⟩

/-- Where no tag goes on behind a comment, takes in what it is given or changes in what follows it,
the tags of a document with the class of a scope are those of the document, and all of them carry the
class exactly when no first attribute `class` is without a value. -/
theorem tags_carry_iff {html : String} {id : ScopeId}
    (hid : ∀ c ∈ id.text.toList, c.isAlphanum = true) (haligned : Aligned html.toList)
    (htakes : ∀ tag ∈ tags html.toList, tag.Takes id.className.toList) :
    tags (injectClass html id.className).toList
        = (tags html.toList).map (OpenTag.addClass id.className.toList) ∧
      ((∀ tag ∈ tags (injectClass html id.className).toList, tag.Carries id.className.toList)
        ↔ ∀ tag ∈ tags html.toList, tag.class? ≠ some none) := by
  have hbare := isBareChar_of_mem_className hid
  have hcls := notMem_of_isBareChars hbare
  have hne : id.className.toList ≠ [] := by
    rw [ScopeId.className, String.toList_append]
    exact List.append_ne_nil_of_left_ne_nil (by decide) _
  have htags := tags_injectText hcls haligned fun tag htag => (htakes tag htag).keepsRaw
  have htext : (injectClass html id.className).toList
      = injectText id.className.toList html.toList := by
    rw [injectClass, String.toList_ofList]
  rw [htext, htags, List.forall_mem_map]
  refine ⟨rfl, ?_⟩
  have hcarries {tag : OpenTag} (htag : tag ∈ tags html.toList) :=
    OpenTag.carries_addClass_iff hcls (htakes tag htag).closed (words_of_isBareChars hbare hne)
  constructor
  · intro hcarry tag htag
    exact (hcarries htag).mp (hcarry tag htag)
  · intro hvalued tag htag
    exact (hcarries htag).mpr (hvalued tag htag)

/-- A paragraph with a line break and a style in it, behind a comment that mentions a tag. -/
def remark : String :=
  "<!-- <b> --><p title=\"a\">x<br class=b /><style>/* <i> */</style></p>"

theorem remark_tags_carry :
    Aligned remark.toList ∧ (∀ tag ∈ tags remark.toList, tag.Takes "-q1".toList) ∧
      ∀ tag ∈ tags (injectClass remark "-q1").toList, tag.Carries "-q1".toList := by
  have hid : ∀ c ∈ (ScopeId.mk "1").text.toList, c.isAlphanum = true :=
    List.all_eq_true.mp (by decide)
  have haligned : Aligned remark.toList := by decide +kernel
  have htakes : ∀ tag ∈ tags remark.toList, tag.Takes (ScopeId.mk "1").className.toList := by
    decide +kernel
  have hvalued : ∀ tag ∈ tags remark.toList, tag.class? ≠ some none := by decide +kernel
  exact ⟨haligned, htakes, (tags_carry_iff hid haligned htakes).2.mpr hvalued⟩

/-- An attribute `class` without a value stays the first one. -/
theorem exists_tag_not_carrying :
    ¬ ∀ (html : String) (id : ScopeId), (∀ c ∈ id.text.toList, c.isAlphanum = true) →
      ∀ tag ∈ tags (injectClass html id.className).toList, tag.Carries id.className.toList := by
  intro h
  have hcarry := h "<p class>x</p>" ⟨"1"⟩ (List.all_eq_true.mp (by decide))
  have hnot : ¬ ∀ tag ∈ tags (injectClass "<p class>x</p>" (ScopeId.mk "1").className).toList,
      tag.Carries (ScopeId.mk "1").className.toList := by
    decide +kernel
  exact hnot hcarry

/-! Nor does a tag carry the class behind a comment that begins a script, with an equals sign in
front of its slash, or behind a script whose slash belongs to a value. -/

example : tags (injectClass "<!-- <script> --><p>x</p>" "-q1").toList = [⟨"p".toList, []⟩] := by
  decide +kernel

example : (tags (injectClass "<a href=/>x</a>" "-q1").toList).map OpenTag.class? = [none] := by
  decide +kernel

example : ∃ tag ∈ tags (injectClass "<script class=a/><p x=\"</script><b>\">" "-q1").toList,
    ¬ tag.Carries "-q1".toList := by
  decide +kernel

end SiteTree.Markup
