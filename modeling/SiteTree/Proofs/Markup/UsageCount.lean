import SiteTree.Proofs.Markup.Usage

/-!
# Counting usages

How many usages of a tag name a document has depends on little of it: on the tags that begin with the
name, and on where these end. A text in a tag that has no `<`, and no `>` outside quotes, can be put
for another one if the tag that it stands in begins as before.

* `inserts_usageCount`, `Inserts.unique` — a copy of the replacement for every usage that is counted.
* `usageCount_of_begins`, `usageCount_of_not_begins` — what a `<` counts for depends on what the tag
  begins with and where it ends.
* `CountsAlike.edit` — texts that can be put for each other in every document.
-/

namespace SiteTree.Markup

/-! ### Usages and copies -/

theorem length_lt_of_opening {selector text read after : List Char}
    (h : opening selector text = some (read, after)) : after.length < text.length := by
  obtain ⟨husage, rfl⟩ := (opening_takes selector).mp h
  have hpos := List.length_pos_iff.mpr husage.ne_nil
  rw [List.length_append]
  omega

/-- How many usages of a selector a document has. -/
def usageCount (selector html : List Char) : Nat :=
  match html with
  | [] => 0
  | c :: rest =>
    match h : opening selector (c :: rest) with
    | some (_, after) => usageCount selector after + 1
    | none => usageCount selector rest
termination_by html.length
decreasing_by
  · exact length_lt_of_opening h
  · exact Nat.lt_succ_self rest.length

section Count

variable {selector : List Char}

theorem usageCount_opening {text read after : List Char}
    (h : opening selector text = some (read, after)) :
    usageCount selector text = usageCount selector after + 1 := by
  cases text with
  | nil => cases h
  | cons c rest =>
    rw [usageCount]
    split
    · next heq =>
      cases h.symm.trans heq
      rfl
    · next heq => cases h.symm.trans heq

theorem usageCount_char {c : Char} {rest : List Char} (h : opening selector (c :: rest) = none) :
    usageCount selector (c :: rest) = usageCount selector rest := by
  rw [usageCount]
  split
  · next heq => cases h.symm.trans heq
  · rfl

theorem usageCount_append {text following : List Char}
    (h : NoneBegins (IsUsage selector) text following) :
    usageCount selector (text ++ following) = usageCount selector following := by
  induction text with
  | nil => rfl
  | cons c text ih =>
    obtain ⟨hhere, hlater⟩ := noneBegins_cons_iff.mp h
    have hnone : opening selector (c :: (text ++ following)) = none :=
      (Reader.Takes.eq_none_iff (opening_takes selector)).mpr hhere
    rw [List.cons_append, usageCount_char hnone, ih hlater]

/-- The usages of a division are those that are counted. -/
theorem Divides.length_uses {html front : List Char} {uses : List Use}
    (h : Divides selector html front uses) : uses.length = usageCount selector html := by
  induction uses generalizing html front with
  | nil =>
    obtain ⟨rfl, hnone⟩ := divides_nil_iff.mp h
    have hcount := usageCount_append hnone
    rw [List.append_nil] at hcount
    rw [hcount, usageCount]
    rfl
  | cons use uses ih =>
    obtain ⟨⟨rfl, husage, hnone⟩, -, hbehind⟩ := divides_cons_iff.mp h
    have hread : opening selector (use.usage ++ (use.gap ++ uses.flatMap Use.text))
        = some (use.usage, use.gap ++ uses.flatMap Use.text) :=
      (opening_takes selector).mpr ⟨husage, rfl⟩
    rw [List.append_assoc, usageCount_append hnone, usageCount_opening hread, ← ih hbehind]
    rfl

end Count

/-- So many copies of the replacement come into the document, whatever the replacement is. -/
def Inserts (selector html : String) (count : Nat) : Prop :=
  ∃ (front : List Char) (kept : List (List Char)), kept.length = count ∧
    ∀ replacement : String, (substitute html selector replacement).toList
      = front ++ kept.flatMap (replacement.toList ++ ·)

theorem inserts_usageCount {selector : String} (h : '<' ∉ selector.toList) (html : String) :
    Inserts selector html (usageCount selector.toList html.toList) := by
  obtain ⟨front, uses, hdivides⟩ := exists_divides h html.toList
  refine ⟨front, uses.map Use.kept, ?_, fun replacement => ?_⟩
  · rw [List.length_map, hdivides.length_uses]
  · rw [substitute, String.toList_ofList, substituteText_of_divides hdivides, List.flatMap_map]
    rfl

theorem length_copies (replacement : List Char) (kept : List (List Char)) :
    (kept.flatMap (replacement ++ ·)).length
      = kept.length * replacement.length + kept.flatten.length := by
  induction kept with
  | nil => simp
  | cons text kept ih =>
    rw [List.flatMap_cons, List.length_append, List.length_append, ih, List.flatten_cons,
      List.length_append, List.length_cons, Nat.succ_mul]
    omega

/-- Longer replacements tell how many copies there are. -/
theorem Inserts.unique {selector html : String} {count count' : Nat}
    (h : Inserts selector html count) (h' : Inserts selector html count') : count = count' := by
  have hlength {count : Nat} (h : Inserts selector html count) :
      (substitute html selector "x").toList.length
        = (substitute html selector "").toList.length + count := by
    obtain ⟨front, kept, rfl, htext⟩ := h
    rw [htext, htext, List.length_append, List.length_append, length_copies, length_copies]
    change front.length + (kept.length * 1 + _) = front.length + (kept.length * 0 + _) + _
    omega
  have hfirst := hlength h
  have hsecond := hlength h'
  omega

/-! ### Tags of a name -/

/-- A name of a tag: a letter and characters of names. -/
def IsTagName (name : List Char) : Prop :=
  ∃ initial letters, name = initial :: letters ∧ initial.isAlpha = true ∧
    ∀ c ∈ letters, isNameChar c = true

theorem isNameChar_of_isAlpha {c : Char} (h : c.isAlpha = true) : isNameChar c = true := by
  simp [isNameChar, Char.isAlphanum, h]

theorem IsTagName.ne_nil {name : List Char} (h : IsTagName name) : name ≠ [] := by
  obtain ⟨initial, letters, rfl, -⟩ := h
  exact List.cons_ne_nil _ _

theorem IsTagName.isNameChar {name : List Char} (h : IsTagName name) :
    ∀ c ∈ name, isNameChar c = true := by
  obtain ⟨initial, letters, rfl, halpha, hletters⟩ := h
  exact List.forall_mem_cons.mpr ⟨isNameChar_of_isAlpha halpha, hletters⟩

/-- What shows that a name goes no further: the end of its tag, or a blank. -/
inductive Stop : List Char → Prop where
  | plain : Stop ['>']
  | slash : Stop ['/', '>']
  | blank {c : Char} : Text.isBlank c = true → Stop [c]

/-- Does a text begin as it does behind the `<` of a usage? -/
def Begins (selector text : List Char) : Prop :=
  ∃ start, Named Stop selector start ∧ start <+: text

/-- A character that is no part of the beginning of a usage. -/
def IsForeign (c : Char) : Prop :=
  Text.isBlank c = false ∧ isNameChar c = false ∧ c ∉ ['/', '>']

instance : DecidablePred IsForeign :=
  fun c => inferInstanceAs
    (Decidable (Text.isBlank c = false ∧ isNameChar c = false ∧ c ∉ ['/', '>']))

/-- What follows the tag whose inside a text begins with. -/
def behindTag? (place : Place) (text : List Char) : Option (List Char) :=
  (tagBody? place.quote? text).map Prod.snd

theorem behindTag?_cons (place : Place) (c : Char) (text : List Char) :
    behindTag? place (c :: text)
      = match place.step c with
        | none => some text
        | some next => behindTag? next text := by
  rw [behindTag?, Place.tagBody?_cons]
  cases place.step c with
  | none => rfl
  | some next => rw [Option.map_map]; rfl

/-- A tag ends in the first part of a text, or where the second part leads it. -/
theorem behindTag?_append (place : Place) (first second : List Char) :
    behindTag? place (first ++ second)
      = match place.run first with
        | none => (behindTag? place first).map (· ++ second)
        | some next => behindTag? next second := by
  induction first generalizing place with
  | nil => rfl
  | cons c first ih =>
    rw [List.cons_append, behindTag?_cons, behindTag?_cons, Place.run_cons]
    cases place.step c with
    | none => rfl
    | some next => exact ih next

theorem behindTag?_of_run_eq_none {place : Place} {text : List Char} (h : place.run text = none) :
    ∃ after, behindTag? place text = some after ∧ after <:+ text := by
  induction text generalizing place with
  | nil => cases h
  | cons c text ih =>
    rw [Place.run_cons] at h
    rw [behindTag?_cons]
    cases hstep : place.step c with
    | none => exact ⟨text, rfl, List.suffix_cons c text⟩
    | some next =>
      rw [hstep] at h
      obtain ⟨after, hafter, hsuffix⟩ := ih h
      exact ⟨after, hafter, hsuffix.trans (List.suffix_cons c text)⟩

theorem behindTag?_outside_eq_some_iff {text after : List Char} :
    behindTag? .outside text = some after
      ↔ ∃ body, text = body ++ '>' :: after ∧ Place.outside.run body = some .outside := by
  rw [behindTag?, Option.map_eq_some_iff]
  constructor
  · rintro ⟨⟨body, _⟩, hbody, rfl⟩
    exact ⟨body, Place.tagBody?_eq_some_iff.mp hbody⟩
  · rintro ⟨body, hbody⟩
    exact ⟨(body, after), Place.tagBody?_eq_some_iff.mpr hbody, rfl⟩

theorem step_of_isBlank {c : Char} (h : Text.isBlank c = true) (place : Place) :
    place.step c = some place := by
  have hneutral : Place.Neutral [c] :=
    Place.neutral_of_chars fun d hd => notMem_of_isBlank (List.mem_singleton.mp hd ▸ h)
  have hrun := hneutral place
  rw [Place.run_cons] at hrun
  cases hstep : place.step c with
  | none =>
    rw [hstep] at hrun
    cases hrun
  | some next =>
    rw [hstep] at hrun
    exact hrun

section TagName

variable {selector : List Char} (hselector : IsTagName selector)

include hselector

theorem IsTagName.dropWhile_append {blanks : List Char} (h : ∀ c ∈ blanks, Text.isBlank c = true)
    (rest : List Char) :
    (blanks ++ (selector ++ rest)).dropWhile Text.isBlank = selector ++ rest := by
  refine (takeWhile_append_of_head? h fun c hc => ?_).2
  rw [List.head?_append_of_ne_nil _ hselector.ne_nil] at hc
  by_contra hblank
  have hname := isNameChar_of_isBlank (by simpa using hblank)
  rw [hselector.isNameChar c (List.mem_of_mem_head? hc)] at hname
  cases hname

/-- Blanks and a name lead nowhere in a tag. -/
theorem IsTagName.neutral {blanks : List Char} (h : ∀ c ∈ blanks, Text.isBlank c = true) :
    Place.Neutral (blanks ++ selector) := by
  refine Place.neutral_of_chars fun c hc => ?_
  rcases List.mem_append.mp hc with hc | hc
  · exact notMem_of_isBlank (h c hc)
  · exact notMem_of_isNameChar (hselector.isNameChar c hc)

/-- A usage is a tag that begins with the name. -/
theorem exists_opening_iff {rest after : List Char} :
    (∃ read, opening selector ('<' :: rest) = some (read, after))
      ↔ Begins selector rest ∧ behindTag? .outside rest = some after := by
  constructor
  · rintro ⟨read, hread⟩
    obtain ⟨husage, htext⟩ := (opening_takes selector).mp hread
    obtain ⟨@⟨blanks, tail, hblanks, hend⟩⟩ := husage
    obtain ⟨-, rfl⟩ := List.cons.inj htext
    have hneutral := hselector.neutral hblanks
    rw [List.append_eq, List.append_assoc, behindTag?_append, hneutral .outside]
    dsimp only
    cases hend with
    | plain => exact ⟨⟨_, .mk hblanks .plain, by simp⟩, rfl⟩
    | slash => exact ⟨⟨_, .mk hblanks .slash, by simp⟩, rfl⟩
    | @spaced c body hblank hrun =>
      refine ⟨⟨_, .mk hblanks (.blank hblank), by simp⟩,
        behindTag?_outside_eq_some_iff.mpr ⟨c :: body, by simp, ?_⟩⟩
      rw [Place.run_cons, step_of_isBlank hblank]
      exact hrun
  · rintro ⟨⟨start, @⟨blanks, stop, hblanks, hstop⟩, ⟨more, rfl⟩⟩, hbehind⟩
    have hneutral := hselector.neutral hblanks
    rw [List.append_assoc, behindTag?_append, hneutral .outside] at hbehind
    dsimp only at hbehind
    have husage {tail : List Char} (hend : OpeningEnd tail) (htail : stop ++ more = tail ++ after) :
        ∃ read, opening selector ('<' :: (blanks ++ selector ++ stop ++ more)) = some (read, after) :=
      ⟨_, (opening_takes selector).mpr ⟨.mk (.mk hblanks hend), by simp [htail]⟩⟩
    cases hstop with
    | plain =>
      cases hbehind
      exact husage .plain rfl
    | slash =>
      cases hbehind
      exact husage .slash rfl
    | @blank c hblank =>
      obtain ⟨body, htext, hrun⟩ := behindTag?_outside_eq_some_iff.mp hbehind
      cases body with
      | nil =>
        obtain ⟨rfl, -⟩ := List.cons.inj htext
        exact absurd hblank (by decide)
      | cons d body =>
        obtain ⟨rfl, hmore⟩ := List.cons.inj htext
        rw [Place.run_cons, step_of_isBlank hblank] at hrun
        exact husage (.spaced hblank hrun) (by simpa using hmore)

theorem usageCount_of_begins {rest : List Char} (h : Begins selector rest) :
    usageCount selector ('<' :: rest)
      = match behindTag? .outside rest with
        | none => usageCount selector rest
        | some after => usageCount selector after + 1 := by
  cases hopening : opening selector ('<' :: rest) with
  | none =>
    rw [usageCount_char hopening]
    cases hbehind : behindTag? .outside rest with
    | none => rfl
    | some after =>
      obtain ⟨read, hread⟩ := (exists_opening_iff hselector).mpr ⟨h, hbehind⟩
      cases hopening.symm.trans hread
  | some found =>
    obtain ⟨read, after⟩ := found
    rw [usageCount_opening hopening, ((exists_opening_iff hselector).mp ⟨read, hopening⟩).2]

theorem usageCount_of_not_begins {rest : List Char} (h : ¬ Begins selector rest) :
    usageCount selector ('<' :: rest) = usageCount selector rest := by
  refine usageCount_char (Option.eq_none_iff_forall_ne_some.mpr ?_)
  rintro ⟨read, after⟩ hread
  exact h ((exists_opening_iff hselector).mp ⟨read, hread⟩).1

omit hselector in
/-- Text without a `<` has no usages. -/
theorem usageCount_append_of_notMem {text : List Char} (h : '<' ∉ text) (rest : List Char) :
    usageCount selector (text ++ rest) = usageCount selector rest := by
  refine usageCount_append fun front back read htext hne husage => ?_
  obtain ⟨-⟩ := husage
  rintro ⟨after, hback⟩
  cases back with
  | nil => exact hne rfl
  | cons c back =>
    obtain ⟨rfl, -⟩ := List.cons.inj hback
    exact h (htext ▸ List.mem_append_right front List.mem_cons_self)

theorem notMem_of_named {start : List Char} (h : Named Stop selector start) :
    ∀ c ∈ start, Text.isBlank c = true ∨ isNameChar c = true ∨ c ∈ ['/', '>'] := by
  obtain ⟨hblanks, hstop⟩ := h
  intro c hc
  rcases List.mem_append.mp hc with hc | hc
  · rcases List.mem_append.mp hc with hc | hc
    · exact .inl (hblanks c hc)
    · exact .inr (.inl (hselector.isNameChar c hc))
  · cases hstop with
    | plain => exact .inr (.inr (List.mem_cons_of_mem _ hc))
    | slash => exact .inr (.inr hc)
    | blank hblank =>
      rw [List.mem_singleton.mp hc]
      exact .inl hblank

/-- How a usage begins does not depend on what stands behind a character of another kind. -/
theorem begins_append_cons {c : Char} (hc : IsForeign c) (front back : List Char) :
    Begins selector (front ++ c :: back) ↔ Begins selector front := by
  constructor
  · rintro ⟨start, hstart, hprefix⟩
    refine ⟨start, hstart, prefix_of_prefix_append (fun hmem => ?_) hprefix⟩
    rcases notMem_of_named hselector hstart c hmem with hblank | hname | hend
    · exact absurd hblank (by simp [hc.1])
    · exact absurd hname (by simp [hc.2.1])
    · exact hc.2.2 hend
  · rintro ⟨start, hstart, hprefix⟩
    exact ⟨start, hstart, hprefix.trans (List.prefix_append _ _)⟩

end TagName

/-! ### Texts in place of each other -/

/-- The usages of a document are as many with the new text as with the old one, wherever it is. -/
def CountsAlike (selector old new : List Char) : Prop :=
  ∀ before after, usageCount selector (before ++ (new ++ after))
    = usageCount selector (before ++ (old ++ after))

namespace CountsAlike

variable {selector : List Char}

theorem refl (text : List Char) : CountsAlike selector text text :=
  fun _ _ => rfl

theorem append {old new old' new' : List Char} (hfirst : CountsAlike selector old new)
    (hsecond : CountsAlike selector old' new') :
    CountsAlike selector (old ++ old') (new ++ new') := by
  intro before after
  have hnew := hsecond (before ++ new) after
  have hold := hfirst before (old' ++ after)
  simp only [List.append_assoc] at hnew hold ⊢
  rw [hnew, hold]

theorem flatMap {α : Type} {items : List α} {old new : α → List Char}
    (h : ∀ item ∈ items, CountsAlike selector (old item) (new item)) :
    CountsAlike selector (items.flatMap old) (items.flatMap new) := by
  induction items with
  | nil => exact refl []
  | cons item items ih =>
    rw [List.flatMap_cons, List.flatMap_cons]
    exact (h item List.mem_cons_self).append (ih fun other hother =>
      h other (List.mem_cons_of_mem _ hother))

section Edit

variable {old new rest : List Char}

/-- What stands behind a tag is found in front of the two texts or behind them. -/
theorem behindTag?_edit (hold : Place.Neutral old) (hnew : Place.Neutral new) (front : List Char) :
    (∃ after, after <:+ front ∧
        ∀ text, behindTag? .outside (front ++ text) = some (after ++ text)) ∨
      behindTag? .outside (front ++ (new ++ rest)) = behindTag? .outside (front ++ (old ++ rest)) := by
  cases hrun : Place.outside.run front with
  | none =>
    obtain ⟨after, hafter, hsuffix⟩ := behindTag?_of_run_eq_none hrun
    refine .inl ⟨after, hsuffix, fun text => ?_⟩
    rw [behindTag?_append, hrun, hafter]
    rfl
  | some place =>
    right
    rw [behindTag?_append, behindTag?_append, hrun]
    dsimp only
    rw [behindTag?_append, behindTag?_append, hold place, hnew place]

/-- Of the two texts, only the tag that they stand in can depend on. -/
theorem usageCount_edit (hselector : IsTagName selector) (hold : Place.Neutral old)
    (hnew : Place.Neutral new) (holdPlain : '<' ∉ old) (hnewPlain : '<' ∉ new)
    {front : List Char}
    (hbegins : ∀ before last, front = before ++ '<' :: last → '<' ∉ last →
      (Begins selector (last ++ (new ++ rest)) ↔ Begins selector (last ++ (old ++ rest)))) :
    usageCount selector (front ++ (new ++ rest)) = usageCount selector (front ++ (old ++ rest)) := by
  induction hlength : front.length using Nat.strong_induction_on generalizing front with
  | _ length ih =>
  subst hlength
  cases front with
  | nil =>
    rw [List.nil_append, List.nil_append, usageCount_append_of_notMem hnewPlain,
      usageCount_append_of_notMem holdPlain]
  | cons c front =>
    have hsuffix {after : List Char} (h : after <:+ front) :
        usageCount selector (after ++ (new ++ rest))
          = usageCount selector (after ++ (old ++ rest)) := by
      refine ih after.length (Nat.lt_succ_of_le h.length_le) ?_ rfl
      obtain ⟨more, rfl⟩ := h
      intro before last htext
      exact hbegins (c :: (more ++ before)) last (by simp [htext])
    have hfront := hsuffix (List.suffix_refl front)
    by_cases hc : c = '<'
    · subst hc
      have hsame : Begins selector (front ++ (new ++ rest))
          ↔ Begins selector (front ++ (old ++ rest)) := by
        by_cases hmem : '<' ∈ front
        · obtain ⟨first, more, rfl⟩ := List.append_of_mem hmem
          have hforeign : IsForeign '<' := by decide
          rw [List.append_assoc, List.append_assoc, List.cons_append, List.cons_append,
            begins_append_cons hselector hforeign, begins_append_cons hselector hforeign]
        · exact hbegins [] front rfl hmem
      rw [List.cons_append, List.cons_append]
      by_cases hhere : Begins selector (front ++ (old ++ rest))
      · rw [usageCount_of_begins hselector (hsame.mpr hhere), usageCount_of_begins hselector hhere]
        rcases @behindTag?_edit _ _ rest hold hnew front with ⟨after, hafter, hbehind⟩ | hbehind
        · rw [hbehind, hbehind]
          dsimp only
          rw [hsuffix hafter]
        · rw [hbehind, hfront]
      · rw [usageCount_of_not_begins hselector (mt hsame.mp hhere),
          usageCount_of_not_begins hselector hhere, hfront]
    · have hplain : '<' ∉ [c] := fun hmem => hc (List.mem_singleton.mp hmem).symm
      have hskip (text : List Char) :
          usageCount selector (c :: text) = usageCount selector text :=
        usageCount_append_of_notMem hplain text
      rw [List.cons_append, List.cons_append, hskip, hskip, hfront]

/-- In a tag, a text can be put for another one if the tag that they stand in, or the last `<` in
front of them, begins a usage as before. -/
theorem edit (hselector : IsTagName selector) (hold : Place.Neutral old) (hnew : Place.Neutral new)
    (holdPlain : '<' ∉ old) (hnewPlain : '<' ∉ new) {front back : List Char}
    (hbegins : ∀ last after, '<' :: last <:+ '<' :: front → '<' ∉ last →
      (Begins selector (last ++ (new ++ (back ++ after)))
        ↔ Begins selector (last ++ (old ++ (back ++ after))))) :
    CountsAlike selector ('<' :: front ++ old ++ back) ('<' :: front ++ new ++ back) := by
  intro before after
  suffices hcount : usageCount selector (before ++ '<' :: front ++ (new ++ (back ++ after)))
      = usageCount selector (before ++ '<' :: front ++ (old ++ (back ++ after))) by
    simpa using hcount
  refine usageCount_edit hselector hold hnew holdPlain hnewPlain fun first last htext hlast => ?_
  refine hbegins last after ?_ hlast
  rcases List.append_eq_append_iff.mp htext with ⟨more, -, htext⟩ | ⟨more, -, htext⟩
  · exact ⟨more, htext.symm⟩
  · cases more with
    | nil => rw [htext]; exact List.suffix_refl _
    | cons c more =>
      obtain ⟨-, rfl⟩ := List.cons.inj htext
      exact absurd (by simp) hlast

end Edit

end CountsAlike

end SiteTree.Markup
