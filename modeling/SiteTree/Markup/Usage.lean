import SiteTree.Markup.Tag
import SiteTree.Text.Search

/-!
# Usages of a component in markup

A component is used by an opening tag of its selector: `<`, optional blanks, the selector,
and then `>`, `/>`, or a blank and anything up to the first `>` outside quotes. A usage that
does not close itself owns the next closing tag of the selector, unless another usage opens
before it; the usage, what it holds and its closing tag are then replaced together.
-/

namespace SiteTree.Markup

/-! ### Recognising a tag of the selector -/

/-- A reader takes a beginning off a text: it answers that beginning and what follows. -/
abbrev Reader := List Char → Option (List Char × List Char)

/-- Optional blanks, then `name`, then what `tail` reads. The name may begin with blanks
itself, so the longest run of blanks is tried first and shorter ones after it. -/
def named (tail : Reader) (name : List Char) : Reader
  | [] => (Text.after? name []).bind fun rest =>
      (tail rest).map fun (text, after) => (name ++ text, after)
  | c :: text =>
    match if Text.isBlank c then named tail name text else none with
    | some (read, after) => some (c :: read, after)
    | none => (Text.after? name (c :: text)).bind fun rest =>
        (tail rest).map fun (text, after) => (name ++ text, after)

/-- The end of an opening tag behind its name. -/
def openingTail : Reader
  | '>' :: after => some (['>'], after)
  | '/' :: '>' :: after => some (['/', '>'], after)
  | c :: rest =>
    if Text.isBlank c then
      (tagBody? none rest).map fun (body, after) => (c :: (body ++ ['>']), after)
    else none
  | [] => none

/-- The end of a closing tag behind its name. -/
def closingTail : Reader := fun text =>
  match text.dropWhile Text.isBlank with
  | '>' :: after => some (text.takeWhile Text.isBlank ++ ['>'], after)
  | _ => none

/-- The usage that a text begins with. -/
def opening (selector : List Char) : Reader
  | '<' :: rest => (named openingTail selector rest).map fun (text, after) => ('<' :: text, after)
  | _ => none

/-- The closing tag of the selector that a text begins with. -/
def closing (selector : List Char) : Reader
  | '<' :: rest =>
    match rest.dropWhile Text.isBlank with
    | '/' :: name =>
      (named closingTail selector name).map fun (text, after) =>
        ('<' :: (rest.takeWhile Text.isBlank ++ '/' :: text), after)
    | _ => none
  | _ => none

/-- The first place where a reader succeeds: the text before it, what is read there, and
what follows. -/
def firstMatch (reader : Reader) : List Char → Option (List Char × List Char × List Char)
  | [] => none
  | c :: text =>
    match reader (c :: text) with
    | some (read, after) => some ([], read, after)
    | none => (firstMatch reader text).map fun (before, found) => (c :: before, found)

/-! ### Replacing usages -/

/-- What follows a usage and all that it owns. -/
def afterUsage (selector usage rest : List Char) : List Char :=
  if ['/', '>'].isSuffixOf usage then rest
  else
    match firstMatch (closing selector) rest with
    | none => rest
    | some (owned, _, after) =>
      match firstMatch (opening selector) rest with
      | none => after
      | some (gap, _, _) => if owned.length < gap.length then after else rest

/-! ### Readers lose nothing -/

/-- The reader answers a beginning of the text and exactly what follows it. -/
def Reader.Sound (reader : Reader) : Prop :=
  ∀ {text read after}, reader text = some (read, after) → read ++ after = text

theorem openingTail_sound : Reader.Sound openingTail := by
  intro text read after h
  unfold openingTail at h
  split at h
  · simp only [Option.some.injEq, Prod.mk.injEq] at h
    obtain ⟨rfl, rfl⟩ := h
    rfl
  · simp only [Option.some.injEq, Prod.mk.injEq] at h
    obtain ⟨rfl, rfl⟩ := h
    rfl
  · split at h
    · simp only [Option.map_eq_some_iff, Prod.mk.injEq, Prod.exists] at h
      obtain ⟨body, after', hbody, rfl, rfl⟩ := h
      simp [append_of_tagBody? hbody]
    · simp at h
  · simp at h

theorem takeWhile_append_of_dropWhile {p : Char → Bool} {text rest : List Char}
    (h : text.dropWhile p = rest) : text.takeWhile p ++ rest = text := by
  subst h
  exact List.takeWhile_append_dropWhile

theorem closingTail_sound : Reader.Sound closingTail := by
  intro text read after h
  unfold closingTail at h
  split at h
  · next after' hdrop =>
    simp only [Option.some.injEq, Prod.mk.injEq] at h
    obtain ⟨rfl, rfl⟩ := h
    simpa using takeWhile_append_of_dropWhile hdrop
  · simp at h

theorem named_sound {tail : Reader} (htail : tail.Sound) (name : List Char) :
    (named tail name).Sound := by
  intro text read after h
  have atName : ∀ {text read},
      ((Text.after? name text).bind fun rest =>
        (tail rest).map fun (text, after) => (name ++ text, after)) = some (read, after) →
      read ++ after = text := by
    intro text read h
    simp only [Option.bind_eq_some_iff, Option.map_eq_some_iff, Prod.mk.injEq,
      Prod.exists] at h
    obtain ⟨rest, hrest, body, after', hbody, rfl, rfl⟩ := h
    rw [List.append_assoc, htail hbody, Text.append_of_after? hrest]
  induction text generalizing read with
  | nil => exact atName (by simpa only [named] using h)
  | cons c text ih =>
    simp only [named] at h
    split at h
    · next read' after' hmore =>
      simp only [Option.some.injEq, Prod.mk.injEq] at h
      obtain ⟨rfl, rfl⟩ := h
      split at hmore
      · simp [ih hmore]
      · simp at hmore
    · exact atName h

theorem opening_sound (selector : List Char) : (opening selector).Sound := by
  intro text read after h
  unfold opening at h
  split at h
  · simp only [Option.map_eq_some_iff, Prod.mk.injEq, Prod.exists] at h
    obtain ⟨read', after', hread, rfl, rfl⟩ := h
    simp [named_sound openingTail_sound selector hread]
  · simp at h

theorem closing_sound (selector : List Char) : (closing selector).Sound := by
  intro text read after h
  unfold closing at h
  split at h
  · next rest =>
    split at h
    · next name hdrop =>
      simp only [Option.map_eq_some_iff, Prod.mk.injEq, Prod.exists] at h
      obtain ⟨read', after', hread, rfl, rfl⟩ := h
      have := named_sound closingTail_sound selector hread
      simpa [this] using takeWhile_append_of_dropWhile hdrop
    · simp at h
  · simp at h

theorem append_of_firstMatch {reader : Reader} (hreader : reader.Sound)
    {text before read after : List Char}
    (h : firstMatch reader text = some (before, read, after)) :
    before ++ read ++ after = text := by
  induction text generalizing before with
  | nil => simp [firstMatch] at h
  | cons c text ih =>
    simp only [firstMatch] at h
    split at h
    · next hread =>
      simp only [Option.some.injEq, Prod.mk.injEq] at h
      obtain ⟨rfl, rfl, rfl⟩ := h
      simpa using hreader hread
    · simp only [Option.map_eq_some_iff, Prod.mk.injEq, Prod.exists] at h
      obtain ⟨before', read', after', hfound, rfl, rfl, rfl⟩ := h
      simpa using ih hfound

theorem ne_nil_of_firstMatch_opening {selector text before read after : List Char}
    (h : firstMatch (opening selector) text = some (before, read, after)) : read ≠ [] := by
  induction text generalizing before with
  | nil => simp [firstMatch] at h
  | cons c text ih =>
    simp only [firstMatch] at h
    split at h
    · next hread =>
      simp only [Option.some.injEq, Prod.mk.injEq] at h
      obtain ⟨-, rfl, -⟩ := h
      unfold opening at hread
      split at hread
      · simp only [Option.map_eq_some_iff, Prod.mk.injEq, Prod.exists] at hread
        obtain ⟨_, _, _, rfl, _⟩ := hread
        simp
      · simp at hread
    · simp only [Option.map_eq_some_iff, Prod.mk.injEq, Prod.exists] at h
      obtain ⟨_, _, _, hfound, _, rfl, rfl⟩ := h
      exact ih hfound

theorem length_afterUsage_le (selector usage rest : List Char) :
    (afterUsage selector usage rest).length ≤ rest.length := by
  have hclose : ∀ {owned read after},
      firstMatch (closing selector) rest = some (owned, read, after) →
      after.length ≤ rest.length := by
    intro owned read after h
    have := congrArg List.length (append_of_firstMatch (closing_sound selector) h)
    simp only [List.length_append] at this
    omega
  unfold afterUsage
  split
  · exact Nat.le_refl _
  · split
    · exact Nat.le_refl _
    · next h =>
      split
      · exact hclose h
      · split
        · exact hclose h
        · exact Nat.le_refl _

/-- The document with every usage of `selector`, and what it owns, replaced. -/
def substituteText (selector replacement html : List Char) : List Char :=
  match h : firstMatch (opening selector) html with
  | none => html
  | some (before, usage, rest) =>
    have : (afterUsage selector usage rest).length < html.length := by
      have hle := length_afterUsage_le selector usage rest
      have hne := List.length_pos_iff.2 (ne_nil_of_firstMatch_opening h)
      have := congrArg List.length (append_of_firstMatch (opening_sound selector) h)
      simp only [List.length_append] at this
      omega
    before ++ replacement ++ substituteText selector replacement (afterUsage selector usage rest)
termination_by html.length

theorem substituteText_of_some {selector replacement html before usage rest : List Char}
    (h : firstMatch (opening selector) html = some (before, usage, rest)) :
    substituteText selector replacement html
      = before ++ replacement
        ++ substituteText selector replacement (afterUsage selector usage rest) := by
  rw [substituteText]
  split
  · next hnone =>
    rw [h] at hnone
    cases hnone
  · next hsome =>
    rw [h] at hsome
    cases hsome
    rfl

theorem substituteText_of_none {selector replacement html : List Char}
    (h : firstMatch (opening selector) html = none) :
    substituteText selector replacement html = html := by
  rw [substituteText]
  split
  · rfl
  · next hsome =>
    rw [h] at hsome
    cases hsome

/-- The document `html` with every usage of `selector` replaced. -/
def substitute (html selector replacement : String) : String :=
  String.ofList (substituteText selector.toList replacement.toList html.toList)

/-- The document with `tag` put before the first `anchor`; `none` without an anchor. -/
def spliceBefore? (html anchor tag : String) : Option String :=
  (Text.splitFirst? anchor.toList html.toList).map fun (before, after) =>
    String.ofList (before ++ tag.toList ++ anchor.toList ++ after)

end SiteTree.Markup
