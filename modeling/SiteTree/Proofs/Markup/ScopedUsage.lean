import SiteTree.Proofs.Markup.Carrying
import SiteTree.Proofs.Markup.UsageCount

/-!
# Usages in a template with a class

A template is given the class of its scope before its imports are put in. Nothing that a class brings
begins a usage, but a class is put behind other text: behind the text of a value, which can end in the
name of a usage, and between the name of a tag and its slash.

* `begins_append_spaced`, `begins_append_closing` — when a usage begins at the end of a text.
* `OpenTag.countsAlike_addClass` — a tag that is spared can be put for the tag without a class.
* `inserts_injectClass` — a template with a class takes in as many copies as the template.
-/

namespace SiteTree.Markup

/-! ### Names at the end of a text -/

/-- Does a text end in `<`, blanks and the name? -/
def EndsInName (selector text : List Char) : Prop :=
  ∃ last ∈ text.tails, last.head? = some '<' ∧ last.tail.dropWhile Text.isBlank = selector

instance (selector text : List Char) : Decidable (EndsInName selector text) :=
  inferInstanceAs (Decidable
    (∃ last ∈ text.tails, last.head? = some '<' ∧ last.tail.dropWhile Text.isBlank = selector))

theorem endsInName_of_suffix {selector last text : List Char} (h : '<' :: last <:+ text)
    (hname : last.dropWhile Text.isBlank = selector) : EndsInName selector text :=
  ⟨_, (List.mem_tails _ _).mpr h, rfl, hname⟩

/-- Is there something behind the slash that a text begins with? -/
def splitsName : List Char → Bool
  | '/' :: _ :: _ => true
  | _ => false

theorem suffix_of_suffix_append_cons {mark : Char} {needle first second : List Char}
    (h : mark ∉ needle) (hsuffix : needle <:+ first ++ mark :: second) : needle <:+ second := by
  rw [← List.reverse_prefix] at hsuffix ⊢
  have hreverse : (first ++ mark :: second).reverse = second.reverse ++ mark :: first.reverse := by
    simp
  rw [hreverse] at hsuffix
  exact prefix_of_prefix_append (fun hmem => h (List.mem_reverse.mp hmem)) hsuffix

/-- The stretch behind the last `<` of a text that has one in front of a character. -/
theorem exists_append_cons_of_suffix {mark : Char} {last first second : List Char}
    (hmark : mark ≠ '<') (hsecond : '<' ∉ second)
    (h : '<' :: last <:+ first ++ mark :: second) : ∃ more, last = more ++ mark :: second := by
  obtain ⟨before, htext⟩ := h
  rcases List.append_eq_append_iff.mp htext with ⟨more, -, hmore⟩ | ⟨more, -, hmore⟩
  · cases more with
    | nil =>
      obtain ⟨rfl, -⟩ := List.cons.inj hmore
      exact absurd rfl hmark
    | cons c more =>
      obtain ⟨-, rfl⟩ := List.cons.inj hmore
      exact ⟨more, rfl⟩
  · cases more with
    | nil =>
      obtain ⟨rfl, -⟩ := List.cons.inj hmore
      exact absurd rfl hmark
    | cons c more =>
      obtain ⟨-, rfl⟩ := List.cons.inj hmore
      exact absurd (List.mem_append_right more List.mem_cons_self) hsecond

section Begins

variable {selector : List Char} (hselector : IsTagName selector)

theorem Begins.append {text : List Char} (h : Begins selector text) (more : List Char) :
    Begins selector (text ++ more) := by
  obtain ⟨start, hstart, hbegin⟩ := h
  exact ⟨start, hstart, hbegin.trans (List.prefix_append _ _)⟩

/-- What shows that a name goes no further ends in a `>` or a blank. -/
theorem Stop.exists_concat {stop : List Char} (h : Stop stop) :
    ∃ front c, stop = front ++ [c] ∧ (c = '>' ∨ Text.isBlank c = true) := by
  cases h with
  | plain => exact ⟨[], '>', rfl, .inl rfl⟩
  | slash => exact ⟨['/'], '>', rfl, .inl rfl⟩
  | @blank c hblank => exact ⟨[], c, rfl, .inr hblank⟩

/-- Only a slash and the end of a tag are two characters. -/
theorem Stop.eq_of_append {d e : Char} {inner other : List Char} (h : Stop (d :: inner ++ e :: other)) :
    d = '/' ∧ inner = [] ∧ e = '>' := by
  generalize hstop : d :: inner ++ e :: other = stop at h
  cases h with
  | plain => simp at hstop
  | slash =>
    obtain ⟨hd, htail⟩ := List.cons.inj hstop
    cases inner with
    | nil => exact ⟨hd, rfl, (List.cons.inj htail).1⟩
    | cons f inner => simp at htail
  | blank hblank => simp at hstop

/-- No usage begins with other characters than those that it can begin with. -/
theorem begins_append_of_closed {text more : List Char}
    (hmore : ∀ c ∈ more, c ≠ '>' ∧ Text.isBlank c = false) :
    Begins selector (text ++ more) ↔ Begins selector text := by
  refine ⟨?_, fun h => h.append more⟩
  rintro ⟨_, ⟨hblanks, hstop⟩, rest, htext⟩
  rcases List.append_eq_append_iff.mp htext with ⟨other, rfl, -⟩ | ⟨other, hother, rfl⟩
  · exact ⟨_, .mk hblanks hstop, List.prefix_append _ _⟩
  · obtain ⟨front, c, rfl, hc⟩ := hstop.exists_concat
    rcases List.eq_nil_or_concat other with rfl | ⟨inner, d, rfl⟩
    · rw [List.append_nil] at hother
      exact ⟨_, .mk hblanks hstop, hother ▸ List.prefix_refl _⟩
    · rw [← List.append_assoc, List.concat_eq_append, ← List.append_assoc] at hother
      obtain rfl : c = d := by simpa using (List.append_inj' hother rfl).2
      have hd := hmore c (by simp)
      rcases hc with hc | hc
      · exact absurd hc hd.1
      · exact absurd hc (by simp [hd.2])

theorem exists_blanks_append {text : List Char} (h : text.dropWhile Text.isBlank = selector) :
    ∃ blanks, (∀ c ∈ blanks, Text.isBlank c = true) ∧ text = blanks ++ selector := by
  refine ⟨text.takeWhile Text.isBlank, fun c hc => List.mem_takeWhile_imp hc, ?_⟩
  rw [← h, List.takeWhile_append_dropWhile]

include hselector

/-- Behind a blank a usage begins in a text if it does so without, or if the text is the name. -/
theorem begins_append_spaced {c : Char} {text more : List Char} (hc : Text.isBlank c = true)
    (hmore : ∀ c ∈ more, c ≠ '>' ∧ Text.isBlank c = false) :
    Begins selector (text ++ c :: more)
      ↔ Begins selector text ∨ text.dropWhile Text.isBlank = selector := by
  rw [← List.singleton_append, ← List.append_assoc, begins_append_of_closed hmore]
  constructor
  · rintro ⟨_, ⟨hblanks, hstop⟩, hbegin⟩
    rcases List.prefix_concat_iff.mp hbegin with hall | hbegin
    · right
      cases hstop with
      | plain =>
        obtain rfl : '>' = c := by simpa using (List.append_inj' hall rfl).2
        exact absurd hc (by decide)
      | slash =>
        have hlast : '>' = c := by simpa using congrArg List.getLast? hall
        exact absurd hc (by rw [← hlast]; decide)
      | blank hblank =>
        rw [← (List.append_inj' hall rfl).1]
        simpa using hselector.dropWhile_append hblanks []
    · exact .inl ⟨_, .mk hblanks hstop, hbegin⟩
  · rintro (h | h)
    · exact h.append [c]
    · obtain ⟨blanks, hblanks, rfl⟩ := exists_blanks_append h
      exact ⟨_, .mk hblanks (.blank hc), List.prefix_refl _⟩

/-- A name does not go on in what closes a tag. -/
theorem eq_nil_of_closing {blanks text inner back after : List Char}
    (hblanks : ∀ c ∈ blanks, Text.isBlank c = true)
    (hname : blanks ++ selector = text ++ inner)
    (hback : ∀ c ∈ back, Text.isBlank c = true ∨ c = '/')
    (hinner : inner <+: back ++ '>' :: after) : inner = [] := by
  rcases List.eq_nil_or_concat inner with rfl | ⟨front, c, rfl⟩
  · rfl
  · have hmem : ∀ d ∈ front.concat c, Text.isBlank d = true ∨ isNameChar d = true := by
      intro d hd
      have hd : d ∈ blanks ++ selector := hname ▸ List.mem_append_right text hd
      exact (List.mem_append.mp hd).imp (hblanks d) (hselector.isNameChar d)
    have hend : '>' ∉ front.concat c := fun hmem' => absurd (hmem '>' hmem') (by decide)
    have hbegin := prefix_of_prefix_append hend hinner
    have hc : isNameChar c = true := by
      have hlast := congrArg List.getLast? hname
      rw [List.getLast?_append_of_ne_nil _ hselector.ne_nil] at hlast
      refine hselector.isNameChar c (List.mem_of_getLast? ?_)
      simpa using hlast
    rcases hback c (hbegin.subset (by simp)) with hblank | rfl
    · exact absurd hc (by simp [isNameChar_of_isBlank hblank])
    · exact absurd hc (by decide)

/-- In front of what closes a tag a usage begins in a text if it does so without, or if the text is the
name: a slash ends the name when the tag ends there. -/
theorem begins_append_closing {text back after : List Char}
    (hback : ∀ c ∈ back, Text.isBlank c = true ∨ c = '/')
    (hslash : text.getLast? = some '/' → back ≠ [])
    (hends : text.dropWhile Text.isBlank = selector → splitsName back = false) :
    Begins selector (text ++ (back ++ '>' :: after))
      ↔ Begins selector text ∨ text.dropWhile Text.isBlank = selector := by
  constructor
  · rintro ⟨_, @⟨blanks, stop, hblanks, hstop⟩, rest, htext⟩
    have hname : (blanks ++ selector).dropWhile Text.isBlank = selector := by
      simpa using hselector.dropWhile_append hblanks []
    rcases List.append_eq_append_iff.mp htext with ⟨other, rfl, -⟩ | ⟨other, hother, hrest⟩
    · exact .inl ⟨_, .mk hblanks hstop, List.prefix_append _ _⟩
    rcases List.append_eq_append_iff.mp hother with ⟨inner, rfl, hinner⟩ | ⟨inner, hinner, rfl⟩
    · cases inner with
      | nil => exact .inr (by rw [List.append_nil, hname])
      | cons d inner =>
        cases other with
        | nil =>
          rw [List.append_nil] at hinner
          exact .inl ⟨_, .mk hblanks hstop, hinner ▸ List.prefix_refl _⟩
        | cons e other =>
          obtain ⟨rfl, rfl, rfl⟩ := Stop.eq_of_append (hinner ▸ hstop)
          obtain ⟨c, back, rfl⟩ := List.exists_cons_of_ne_nil (hslash List.getLast?_concat)
          obtain ⟨rfl, -⟩ := List.cons.inj hrest
          exact absurd (hback '>' List.mem_cons_self) (by decide)
    · obtain rfl := eq_nil_of_closing hselector hblanks hinner hback
        ⟨stop ++ rest, by rw [hrest, List.append_assoc]⟩
      rw [List.append_nil] at hinner
      exact .inr (hinner ▸ hname)
  · rintro (h | h)
    · exact h.append _
    · obtain ⟨blanks, hblanks, rfl⟩ := exists_blanks_append h
      cases back with
      | nil => exact ⟨_, .mk hblanks .plain, by simp⟩
      | cons c back =>
        rcases hback c List.mem_cons_self with hblank | rfl
        · exact ⟨_, .mk hblanks (.blank hblank), by simp⟩
        · cases back with
          | nil => exact ⟨_, .mk hblanks .slash, by simp⟩
          | cons d back => cases hends h

end Begins

/-! ### Tags with a class -/

/-- A tag in which a class is put behind no name of a usage: neither at the end of a value, nor in front
of a slash that does not close the tag at once. -/
structure OpenTag.Spares (cls selector : List Char) (tag : OpenTag) : Prop where
  value : ∀ value ∈ tag.class?.join, cls ∉ Text.words value.text → ¬ EndsInName selector value.text
  slash : tag.class?.join = none → splitsName (attrsBack tag.attrs) = true →
    ¬ EndsInName selector ('<' :: (tag.name ++ attrsFront tag.attrs))

section AddClass

variable {selector cls : List Char} (hselector : IsTagName selector)
  (hcls : ∀ c ∈ cls, isBareChar c = true)

include hcls

theorem closed_of_isBareChars : ∀ c ∈ cls, c ≠ '>' ∧ Text.isBlank c = false := by
  intro c hc
  obtain ⟨hblank, hnot⟩ := notMem_of_isBareChar (hcls c hc)
  refine ⟨?_, hblank⟩
  rintro rfl
  exact hnot (by decide)

theorem lt_notMem_of_isBareChars : '<' ∉ cls := fun hmem =>
  (notMem_of_isBareChar (hcls '<' hmem)).2 (by decide)

include hselector

/-- Behind the text of a value, a class begins no usage that its quote would not begin. -/
theorem countsAlike_quoted {quote : Char} (hquote : quote = '"' ∨ quote = '\'') {text : List Char}
    (hends : ¬ EndsInName selector text) (front back : List Char) :
    CountsAlike selector ('<' :: (front ++ quote :: text) ++ [] ++ quote :: back)
      ('<' :: (front ++ quote :: text)
        ++ ((if Text.allBlank text then [] else [' ']) ++ cls) ++ quote :: back) := by
  have hclosed := closed_of_isBareChars hcls
  have hplain := lt_notMem_of_isBareChars hcls
  have hforeign : IsForeign quote := by
    rcases hquote with rfl | rfl
    · decide
    · decide
  refine CountsAlike.edit hselector (fun _ => rfl)
    (Place.neutral_of_chars (notMem_of_inserted (notMem_of_isBareChars hcls) text))
    List.not_mem_nil ?_ fun last after hlast hmem => ?_
  · split
    · simpa using hplain
    · simpa using hplain
  · rw [List.nil_append, List.cons_append, ← List.append_assoc,
      begins_append_cons hselector hforeign, begins_append_cons hselector hforeign]
    split
    · rw [List.nil_append, begins_append_of_closed hclosed]
    · rw [List.singleton_append, begins_append_spaced hselector (by decide) hclosed,
        or_iff_left_iff_imp]
      intro hname
      have hnot : quote ∉ '<' :: last := by
        obtain ⟨blanks, hblanks, rfl⟩ := exists_blanks_append hname
        intro hin
        rcases List.mem_cons.mp hin with rfl | hin
        · exact absurd hquote (by decide)
        · rcases List.mem_append.mp hin with hin | hin
          · exact absurd (hblanks quote hin) (by simp [hforeign.1])
          · exact absurd (hselector.isNameChar quote hin) (by simp [hforeign.2.1])
      rw [← List.cons_append] at hlast
      exact absurd (endsInName_of_suffix (suffix_of_suffix_append_cons hnot hlast) hname) hends

/-- A value without quotes has the equals sign in front of it, where no usage goes on. -/
theorem countsAlike_bare (first : List Char) {second text : List Char} (hsecond : '<' ∉ second)
    (hbare : ∀ c ∈ text, isBareChar c = true) (front back : List Char) :
    CountsAlike selector ('<' :: (front ++ (first ++ '=' :: second)) ++ text ++ back)
      ('<' :: (front ++ (first ++ '=' :: second))
        ++ ('"' :: (text ++ ((if Text.allBlank text then [] else [' ']) ++ cls) ++ ['"']))
        ++ back) := by
  have hplain := lt_notMem_of_isBareChars hcls
  have htext := lt_notMem_of_isBareChars hbare
  have hquoted : ∀ c ∈ text ++ ((if Text.allBlank text then [] else [' ']) ++ cls),
      c ∉ ['>', '"', '\''] := by
    intro c hc
    rcases List.mem_append.mp hc with hc | hc
    · exact notMem_of_isBareChars hbare c hc
    · exact notMem_of_inserted (notMem_of_isBareChars hcls) text c hc
  refine CountsAlike.edit hselector (Place.neutral_of_chars (notMem_of_isBareChars hbare))
    (Place.Neutral.quoted hquoted) htext ?_ fun last after hlast hmem => ?_
  · split
    · simp [hplain, htext]
    · simp [hplain, htext]
  · have hforeign : IsForeign '=' := by decide
    rw [← List.append_assoc, ← List.cons_append] at hlast
    obtain ⟨more, rfl⟩ := exists_append_cons_of_suffix (by decide) hsecond hlast
    have hsame (rest : List Char) :
        Begins selector (more ++ '=' :: second ++ rest) ↔ Begins selector more := by
      rw [List.append_assoc, List.cons_append, begins_append_cons hselector hforeign]
    rw [hsame, hsame]

theorem countsAlike_value {value : AttrValue} (hread : value.IsRead)
    (hends : cls ∉ Text.words value.text → ¬ EndsInName selector value.text)
    (front back : List Char) :
    CountsAlike selector ('<' :: (front ++ value.join ++ back))
      ('<' :: (front ++ (value.addClass cls).join ++ back)) := by
  unfold AttrValue.addClass
  split
  · exact CountsAlike.refl _
  · next hnew =>
    obtain ⟨equals, quote, text⟩ := value
    have hends := hends (by simpa using hnew)
    cases quote with
    | some quote =>
      have halike := countsAlike_quoted hselector hcls (hread.quoted quote rfl).1 hends
        (front ++ equals) back
      simpa [AttrValue.join] using halike
    | none =>
      obtain ⟨first, second, hequals, -, hblanks⟩ := hread.equals
      obtain rfl : equals = first ++ '=' :: second := hequals
      have hsecond : '<' ∉ second := fun hmem => absurd (hblanks '<' hmem) (by decide)
      have halike := countsAlike_bare hselector hcls first hsecond (hread.bare rfl).2 front back
      simpa [AttrValue.join] using halike

omit hselector hcls in
/-- A text that a new attribute stands behind ends in a slash only where the tag closes in another. -/
theorem attrsBack_ne_nil {name attrs last : List Char} (hname : '/' ∉ name)
    (hsuffix : '<' :: last <:+ '<' :: (name ++ attrsFront attrs)) (hlast : last.getLast? = some '/') :
    attrsBack attrs ≠ [] := by
  rcases attrsFront_cases attrs with ⟨gap, blanks, hattrs, -⟩ | ⟨-, -, -, hslash, -⟩
  · rw [List.append_assoc] at hattrs
    rw [attrsBack_eq hattrs]
    exact List.append_ne_nil_of_right_ne_nil gap (List.cons_ne_nil _ _)
  · obtain ⟨before, htext⟩ := hsuffix
    have hend := congrArg List.getLast? htext
    have hne : last ≠ [] := List.ne_nil_of_mem (List.mem_of_getLast? hlast)
    rw [List.getLast?_append_of_ne_nil _ (List.cons_ne_nil _ _), List.getLast?_cons_of_ne_nil hne,
      hlast] at hend
    rcases List.eq_nil_or_concat (attrsFront attrs) with hnil | ⟨front, c, hconcat⟩
    · rw [hnil, List.append_nil] at hend
      rcases List.mem_cons.mp (List.mem_of_getLast? hend.symm) with hmem | hmem
      · exact absurd hmem (by decide)
      · exact absurd hmem hname
    · rw [hconcat, List.concat_eq_append, ← List.append_assoc, ← List.cons_append,
        List.getLast?_concat] at hend
      rw [hconcat, List.concat_eq_append, List.getLast?_concat] at hslash
      exact absurd hend.symm hslash

/-- A new attribute begins a usage where what closes the tag begins one. -/
theorem countsAlike_appendAttribute {name attrs : List Char} (hname : '/' ∉ name)
    (hends : splitsName (attrsBack attrs) = true →
      ¬ EndsInName selector ('<' :: (name ++ attrsFront attrs))) :
    CountsAlike selector ('<' :: (name ++ attrs ++ ['>']))
      ('<' :: (name ++ appendAttribute cls attrs ++ ['>'])) := by
  have halike : CountsAlike selector
      ('<' :: (name ++ attrsFront attrs) ++ [] ++ (attrsBack attrs ++ ['>']))
      ('<' :: (name ++ attrsFront attrs) ++ classAttribute cls ++ (attrsBack attrs ++ ['>'])) := by
    refine CountsAlike.edit hselector (fun _ => rfl)
      (fun place => (alike_classAttribute (notMem_of_isBareChars hcls)).run place)
      List.not_mem_nil ?_ fun last after hlast hmem => ?_
    · rw [classAttribute_eq]
      simp [lt_notMem_of_isBareChars hcls]
    · have hforeign : IsForeign '=' := by decide
      have hletters : ∀ c ∈ ['c', 'l', 'a', 's', 's'], c ≠ '>' ∧ Text.isBlank c = false := by
        simp [Text.isBlank, Text.blankRanges]
      have hnew (rest : List Char) : last ++ (classAttribute cls ++ rest)
          = last ++ ' ' :: ['c', 'l', 'a', 's', 's'] ++ '=' :: ('"' :: (cls ++ ['"']) ++ rest) := by
        rw [classAttribute_eq]
        simp
      rw [hnew, begins_append_cons hselector hforeign,
        begins_append_spaced hselector (by decide) hletters, List.nil_append,
        List.append_assoc, List.singleton_append,
        begins_append_closing hselector (isBlank_of_mem_attrsBack attrs)
          (attrsBack_ne_nil hname hlast)]
      intro hlastName
      exact Bool.eq_false_iff.mpr fun hslash =>
        hends hslash (endsInName_of_suffix hlast hlastName)
  have hattrs := attrsFront_append_attrsBack attrs
  rw [appendAttribute_eq]
  nth_rewrite 1 [← hattrs]
  simpa using halike

/-- A tag with a class can be put for the tag. -/
theorem OpenTag.countsAlike_addClass {tag : OpenTag} (hread : tag.IsRead)
    (hspares : tag.Spares cls selector) :
    CountsAlike selector tag.join (tag.addClass cls).join := by
  have hname : (tag.addClass cls).name = tag.name := rfl
  rw [OpenTag.join, OpenTag.join, hname]
  rcases tag.addClass_cases cls with
    ⟨front, name, value, back, hitems, -, -, hclass, hattrs⟩ | ⟨hclass, hattrs⟩
  · have hmem : .attr name (some value) ∈ attrItems tag.attrs :=
      hitems ▸ List.mem_append_right _ List.mem_cons_self
    have halike := countsAlike_value hselector hcls (isRead_of_mem_attrItems hmem)
      (hspares.value value (by rw [hclass]; rfl)) (tag.name ++ front.flatMap AttrItem.join ++ name)
      (back.flatMap AttrItem.join ++ ['>'])
    rw [hattrs, ← flatMap_attrItems tag.attrs, hitems]
    simpa [AttrItem.join] using halike
  · have hslash : '/' ∉ tag.name := by
      have hletters : IsTagName tag.name := hread.name
      exact fun hmem => absurd (hletters.isNameChar '/' hmem) (by decide)
    rw [hattrs]
    exact countsAlike_appendAttribute hselector hcls hslash
      (hspares.slash (class?_join_eq_none hclass))

end AddClass

/-! ### Documents -/

instance (cls selector : List Char) (tag : OpenTag) : Decidable (tag.Spares cls selector) :=
  decidable_of_iff
    ((∀ value ∈ tag.class?.join, (Text.words value.text).contains cls = false →
        ¬ EndsInName selector value.text) ∧
      (tag.class?.join = none → splitsName (attrsBack tag.attrs) = true →
        ¬ EndsInName selector ('<' :: (tag.name ++ attrsFront tag.attrs))))
    (by
      simp only [← Bool.not_eq_true, List.contains_iff_mem]
      exact ⟨fun ⟨value, slash⟩ => ⟨value, slash⟩, fun ⟨value, slash⟩ => ⟨value, slash⟩⟩)

/-- A document with a class on its tags has as many usages as the document, if all tags are spared. -/
theorem usageCount_injectText {selector cls html : List Char} (hselector : IsTagName selector)
    (hcls : ∀ c ∈ cls, isBareChar c = true)
    (hspares : ∀ tag ∈ openTags html, tag.Spares cls selector) :
    usageCount selector (injectText cls html) = usageCount selector html := by
  have halike : CountsAlike selector ((pieces html).flatMap Piece.join) (injectText cls html) := by
    refine CountsAlike.flatMap fun piece hpiece => ?_
    cases piece with
    | char c => exact CountsAlike.refl _
    | raw text => exact CountsAlike.refl _
    | opening tag =>
      have htag := mem_openTags.mpr hpiece
      exact tag.countsAlike_addClass hselector hcls (OpenTag.isRead_of_mem_openTags htag)
        (hspares tag htag)
  simpa [flatMap_pieces] using halike [] []

/-- A template with the class of a scope takes in as many copies of whatever is put for the usages of
a name as the template, unless the class is put behind the name of a usage. -/
theorem inserts_injectClass {html selector : String} {id : ScopeId}
    (hid : ∀ c ∈ id.text.toList, c.isAlphanum = true) (hselector : IsTagName selector.toList)
    (hspares : ∀ tag ∈ openTags html.toList, tag.Spares id.className.toList selector.toList) :
    ∃ count, Inserts selector html count ∧
      Inserts selector (injectClass html id.className) count := by
  have hplain : '<' ∉ selector.toList := fun hmem =>
    absurd (hselector.isNameChar '<' hmem) (by decide)
  have hscoped := inserts_usageCount hplain (injectClass html id.className)
  rw [injectClass, String.toList_ofList, usageCount_injectText hselector
    (isBareChar_of_mem_className hid) hspares] at hscoped
  exact ⟨_, inserts_usageCount hplain html, hscoped⟩

/-- A menu with two usages of `x-nav`, and a value that mentions one more. -/
def menu : String :=
  "<ul class=nav><x-nav class='a' title=\"<x-nav\"/><li><x-nav\n>x</x-nav></ul>"

theorem menu_inserts :
    IsTagName "x-nav".toList ∧
      (∀ tag ∈ openTags menu.toList, tag.Spares "-q1".toList "x-nav".toList) ∧
      ∃ count, Inserts "x-nav" menu count ∧ Inserts "x-nav" (injectClass menu "-q1") count := by
  have hid : ∀ c ∈ (ScopeId.mk "1").text.toList, c.isAlphanum = true :=
    List.all_eq_true.mp (by decide)
  have hselector : IsTagName "x-nav".toList :=
    ⟨'x', "-nav".toList, rfl, by decide, List.all_eq_true.mp (by decide)⟩
  have hspares : ∀ tag ∈ openTags menu.toList,
      tag.Spares (ScopeId.mk "1").className.toList "x-nav".toList := by
    decide +kernel
  have hinserts := inserts_injectClass hid hselector hspares
  exact ⟨hselector, hspares, hinserts⟩

/-- A class in front of a slash, which a blank keeps from closing the tag, makes a usage of the tag. -/
theorem exists_inserts_more :
    ¬ ∀ (html selector : String) (id : ScopeId), (∀ c ∈ id.text.toList, c.isAlphanum = true) →
      IsTagName selector.toList → ∃ count, Inserts selector html count ∧
        Inserts selector (injectClass html id.className) count := by
  intro h
  have hselector : IsTagName "x-nav".toList :=
    ⟨'x', "-nav".toList, rfl, by decide, List.all_eq_true.mp (by decide)⟩
  obtain ⟨count, hbefore, hafter⟩ :=
    h "<x-nav/ >" "x-nav" ⟨"1"⟩ (List.all_eq_true.mp (by decide)) hselector
  have hplain : '<' ∉ "x-nav".toList := by decide
  have hcounts := (hbefore.unique (inserts_usageCount hplain _)).symm.trans
    (hafter.unique (inserts_usageCount hplain _))
  exact absurd hcounts (by decide +kernel)

/-! So does a class behind a name in a value. -/

example : usageCount "x-nav".toList "<a class=\"<x-nav\">\"</a>".toList = 0 ∧
    usageCount "x-nav".toList (injectText "-q1".toList "<a class=\"<x-nav\">\"</a>".toList) = 1 := by
  decide +kernel

end SiteTree.Markup
