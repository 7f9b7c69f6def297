import SiteTree.Markup.Usage
import SiteTree.Proofs.Markup.Place
import SiteTree.Proofs.Text.Search

/-!
# Usages and what they own

The usages of a selector are found from left to right, and none inside another one. A usage that
does not close itself owns the text up to its closing tag, if there is one before the next usage.
A selector has no `<`, so no usage begins in a closing tag, and the usages behind it are those of
the document.

* `opening_takes`, `closing_takes` — what is read as a usage, and what as a closing tag.
* `firstMatch_eq_some_iff` — searching finds the first place where something is read.
* `substitute_uses` — a document is its usages, what they own and the text that is kept; each usage
  and what it owns becomes one copy of the replacement.
-/

namespace SiteTree.Markup

/-! ### How tags of a selector are written -/

/-- The end of an opening tag behind its name: right there, or behind a blank and all up to the
first `>` outside quotes. -/
inductive OpeningEnd : List Char → Prop where
  | plain : OpeningEnd ['>']
  | slash : OpeningEnd ['/', '>']
  | spaced {c : Char} {body : List Char} : Text.isBlank c = true →
      Place.outside.run body = some .outside → OpeningEnd (c :: (body ++ ['>']))

/-- The end of a closing tag behind its name. -/
inductive ClosingEnd : List Char → Prop where
  | mk {blanks : List Char} : (∀ c ∈ blanks, Text.isBlank c = true) → ClosingEnd (blanks ++ ['>'])

/-- Optional blanks, a name and the end of a tag. -/
inductive Named (IsEnd : List Char → Prop) (name : List Char) : List Char → Prop where
  | mk {blanks tail : List Char} : (∀ c ∈ blanks, Text.isBlank c = true) → IsEnd tail →
      Named IsEnd name (blanks ++ name ++ tail)

/-- A usage of a selector, as it is written. -/
inductive IsUsage (selector : List Char) : List Char → Prop where
  | mk {text : List Char} : Named OpeningEnd selector text → IsUsage selector ('<' :: text)

/-- A closing tag of a selector, as it is written. -/
inductive IsClosing (selector : List Char) : List Char → Prop where
  | mk {blanks text : List Char} : (∀ c ∈ blanks, Text.isBlank c = true) →
      Named ClosingEnd selector text → IsClosing selector ('<' :: (blanks ++ '/' :: text))

/-- The reader takes the texts of a kind, each in front of anything. -/
def Reader.Takes (reader : Reader) (Is : List Char → Prop) : Prop :=
  ∀ {text read after}, reader text = some (read, after) ↔ Is read ∧ text = read ++ after

theorem openingTail_spaced {c : Char} (h : Text.isBlank c = true) (rest : List Char) :
    openingTail (c :: rest)
      = (tagBody? none rest).map fun (body, after) => (c :: (body ++ ['>']), after) := by
  unfold openingTail
  split
  · next heq =>
    obtain ⟨rfl, -⟩ := List.cons.inj heq
    exact absurd h (by decide)
  · next heq =>
    obtain ⟨rfl, -⟩ := List.cons.inj heq
    exact absurd h (by decide)
  · next heq =>
    obtain ⟨rfl, rfl⟩ := List.cons.inj heq
    rw [if_pos h]
  · next heq => cases heq

theorem openingTail_takes : Reader.Takes openingTail OpeningEnd := by
  intro text read after
  constructor
  · intro h
    refine ⟨?_, (openingTail_sound h).symm⟩
    unfold openingTail at h
    split at h
    · cases h
      exact .plain
    · cases h
      exact .slash
    · next c rest _ _ =>
      split at h
      · next hblank =>
        obtain ⟨⟨body, _⟩, hbody, heq⟩ := Option.map_eq_some_iff.mp h
        cases heq
        have hbody : tagBody? Place.outside.quote? rest = some (body, after) := hbody
        exact .spaced hblank (Place.tagBody?_eq_some_iff.mp hbody).2
      · cases h
    · cases h
  · rintro ⟨hend, rfl⟩
    cases hend with
    | plain => rfl
    | slash => rfl
    | @spaced c body hblank hrun =>
      have hbody : tagBody? none (body ++ '>' :: after) = some (body, after) :=
        Place.tagBody?_eq_some_iff.mpr ⟨rfl, hrun⟩
      have htext : c :: (body ++ ['>']) ++ after = c :: (body ++ '>' :: after) := by simp
      rw [htext, openingTail_spaced hblank, hbody]
      rfl

theorem closingTail_takes : Reader.Takes closingTail ClosingEnd := by
  intro text read after
  constructor
  · intro h
    refine ⟨?_, (closingTail_sound h).symm⟩
    unfold closingTail at h
    split at h
    · cases h
      exact .mk fun c hc => List.mem_takeWhile_imp hc
    · cases h
  · rintro ⟨⟨hblanks⟩, rfl⟩
    next blanks =>
    have hhead : ∀ c ∈ ('>' :: after).head?, Text.isBlank c = false := by
      rintro c (_ | _)
      decide
    have hrun := takeWhile_append_of_head? hblanks hhead
    rw [List.append_assoc, List.singleton_append, closingTail, hrun.1, hrun.2]
    rfl

/-! #### Blanks in front of a name -/

/-- A text with a blank in front of it can end a tag where the text can. -/
theorem OpeningEnd.cons {c : Char} {text : List Char} (hc : Text.isBlank c = true)
    (h : OpeningEnd text) : OpeningEnd (c :: text) := by
  cases h with
  | plain => exact @OpeningEnd.spaced c [] hc rfl
  | slash => exact @OpeningEnd.spaced c ['/'] hc rfl
  | @spaced d body hd hrun =>
    refine @OpeningEnd.spaced c (d :: body) hc ?_
    have hneutral : Place.Neutral [d] := by
      refine Place.neutral_of_chars fun e he => ?_
      rw [List.mem_singleton.mp he]
      exact notMem_of_isBlank hd
    rw [← List.singleton_append, Place.run_append, hneutral .outside]
    exact hrun

theorem ClosingEnd.cons {c : Char} {text : List Char} (hc : Text.isBlank c = true)
    (h : ClosingEnd text) : ClosingEnd (c :: text) := by
  obtain ⟨hblanks⟩ := h
  exact .mk (List.forall_mem_cons.mpr ⟨hc, hblanks⟩)

/-- A name behind blanks, and the same name without them: there are as many blanks more behind the
name, or the name has none. -/
theorem exists_blanks_of_append_eq {name blanks rest later : List Char}
    (hblanks : ∀ c ∈ blanks, Text.isBlank c = true)
    (h : name ++ rest = blanks ++ (name ++ later)) :
    ∃ more, (∀ c ∈ more, Text.isBlank c = true) ∧ rest = more ++ later := by
  induction name generalizing blanks with
  | nil => exact ⟨blanks, hblanks, h⟩
  | cons c name ih =>
    cases blanks with
    | nil => exact ⟨[], nofun, List.append_cancel_left h⟩
    | cons d blanks =>
      obtain ⟨rfl, htail⟩ := List.cons.inj h
      obtain ⟨hd, hblanks⟩ := List.forall_mem_cons.mp hblanks
      refine @ih (blanks ++ [c]) ?_ (by simpa using htail)
      intro e he
      rcases List.mem_append.mp he with he | he
      · exact hblanks e he
      · rw [List.mem_singleton.mp he]
        exact hd

section Named

variable {tail : Reader} {IsEnd : List Char → Prop} (htail : tail.Takes IsEnd)

include htail

theorem named_atName {name text read after : List Char} :
    ((Text.after? name text).bind fun rest =>
        (tail rest).map fun (text, after) => (name ++ text, after)) = some (read, after)
      ↔ ∃ last, IsEnd last ∧ read = name ++ last ∧ text = read ++ after := by
  constructor
  · intro h
    obtain ⟨rest, hrest, h⟩ := Option.bind_eq_some_iff.mp h
    obtain ⟨⟨last, _⟩, hlast, heq⟩ := Option.map_eq_some_iff.mp h
    cases heq
    obtain ⟨hend, rfl⟩ := htail.mp hlast
    refine ⟨last, hend, rfl, ?_⟩
    rw [List.append_assoc, Text.append_of_after? hrest]
  · rintro ⟨last, hend, rfl, rfl⟩
    rw [List.append_assoc, Text.after?_eq_some_iff.mpr rfl, Option.bind_some,
      htail.mpr ⟨hend, rfl⟩]
    rfl

theorem isNamed_of_named {name text read after : List Char}
    (h : named tail name text = some (read, after)) :
    Named IsEnd name read ∧ text = read ++ after := by
  induction text generalizing read with
  | nil =>
    obtain ⟨last, hend, rfl, htext⟩ := (named_atName htail).mp h
    exact ⟨@Named.mk _ _ [] _ nofun hend, htext⟩
  | cons c text ih =>
    rw [named] at h
    split at h
    · next more _ hmore =>
      cases h
      split at hmore
      · next hc =>
        obtain ⟨⟨hblanks, hend⟩, rfl⟩ := ih hmore
        exact ⟨.mk (List.forall_mem_cons.mpr ⟨hc, hblanks⟩) hend, rfl⟩
      · cases hmore
    · obtain ⟨last, hend, rfl, htext⟩ := (named_atName htail).mp h
      exact ⟨@Named.mk _ _ [] _ nofun hend, htext⟩

omit htail in
theorem isEnd_blanks_append (hcons : ∀ {c text}, Text.isBlank c = true → IsEnd text → IsEnd (c :: text))
    {blanks text : List Char} (hblanks : ∀ c ∈ blanks, Text.isBlank c = true) (h : IsEnd text) :
    IsEnd (blanks ++ text) := by
  induction blanks with
  | nil => exact h
  | cons c blanks ih =>
    obtain ⟨hc, hblanks⟩ := List.forall_mem_cons.mp hblanks
    exact hcons hc (ih hblanks)

/-- A name that begins with blanks is read with fewer or more of them in front, and the tag is the same
text. -/
theorem named_name (hcons : ∀ {c text}, Text.isBlank c = true → IsEnd text → IsEnd (c :: text))
    {name last : List Char} (hend : IsEnd last) (after : List Char) :
    named tail name (name ++ last ++ after) = some (name ++ last, after) := by
  have hname : (Text.after? name (name ++ last ++ after)).bind (fun rest =>
      (tail rest).map fun (text, after) => (name ++ text, after)) = some (name ++ last, after) :=
    (named_atName htail).mpr ⟨last, hend, rfl, rfl⟩
  cases htext : name ++ last ++ after with
  | nil => rwa [htext] at hname
  | cons c text =>
    rw [htext] at hname
    rw [named]
    split
    · next more behind hmore =>
      split at hmore
      · next hc =>
        -- What is read with more blanks in front goes just as far.
        obtain ⟨⟨hbefore, hlast⟩, rfl⟩ := isNamed_of_named htail hmore
        next before later =>
        have hnames : name ++ (last ++ after) = c :: before ++ (name ++ (later ++ behind)) := by
          simpa using htext
        obtain ⟨between, hbetween, hrest⟩ :=
          exists_blanks_of_append_eq (List.forall_mem_cons.mpr ⟨hc, hbefore⟩) hnames
        have hfirst : tail (last ++ after) = some (last, after) := htail.mpr ⟨hend, rfl⟩
        have hsecond : tail (last ++ after) = some (between ++ later, behind) :=
          htail.mpr ⟨isEnd_blanks_append hcons hbetween hlast, by rw [hrest, List.append_assoc]⟩
        rw [hfirst] at hsecond
        obtain ⟨hlasts, rfl⟩ := Prod.mk.inj (Option.some.inj hsecond)
        have hread : name ++ last = c :: (before ++ name ++ later) :=
          List.append_cancel_right (htext.trans (List.cons_append ..).symm)
        rw [hread]
      · cases hmore
    · exact hname

/-- However many of the blanks are taken for the name's own, the tag is the same text. -/
theorem named_takes (hcons : ∀ {c text}, Text.isBlank c = true → IsEnd text → IsEnd (c :: text))
    (name : List Char) : (named tail name).Takes (Named IsEnd name) := by
  intro text read after
  refine ⟨isNamed_of_named htail, ?_⟩
  rintro ⟨⟨hblanks, hend⟩, rfl⟩
  next blanks last =>
  induction blanks with
  | nil =>
    rw [List.nil_append]
    exact named_name htail hcons hend after
  | cons c blanks ih =>
    obtain ⟨hc, hblanks⟩ := List.forall_mem_cons.mp hblanks
    simp only [List.cons_append] at ih ⊢
    rw [named, if_pos hc, ih hblanks]

end Named

theorem opening_takes (selector : List Char) : (opening selector).Takes (IsUsage selector) := by
  have hnamed : (named openingTail selector).Takes (Named OpeningEnd selector) :=
    named_takes openingTail_takes OpeningEnd.cons selector
  intro text read after
  constructor
  · intro h
    refine ⟨?_, (opening_sound selector h).symm⟩
    unfold opening at h
    split at h
    · obtain ⟨⟨name, _⟩, hname, heq⟩ := Option.map_eq_some_iff.mp h
      cases heq
      exact .mk (hnamed.mp hname).1
    · cases h
  · rintro ⟨⟨hname⟩, rfl⟩
    next name =>
    rw [List.cons_append, opening, hnamed.mpr ⟨hname, rfl⟩]
    rfl

theorem closing_takes (selector : List Char) : (closing selector).Takes (IsClosing selector) := by
  have hnamed : (named closingTail selector).Takes (Named ClosingEnd selector) :=
    named_takes closingTail_takes ClosingEnd.cons selector
  intro text read after
  constructor
  · intro h
    refine ⟨?_, (closing_sound selector h).symm⟩
    unfold closing at h
    split at h
    · split at h
      · obtain ⟨⟨name, _⟩, hname, heq⟩ := Option.map_eq_some_iff.mp h
        cases heq
        exact .mk (fun c hc => List.mem_takeWhile_imp hc) (hnamed.mp hname).1
      · cases h
    · cases h
  · rintro ⟨⟨hblanks, hname⟩, rfl⟩
    next blanks name =>
    have hhead : ∀ c ∈ ('/' :: (name ++ after)).head?, Text.isBlank c = false := by
      rintro c (_ | _)
      decide
    have hrun := takeWhile_append_of_head? hblanks hhead
    rw [List.cons_append, List.append_assoc, List.cons_append, closing, hrun.1, hrun.2]
    change Option.map _ (named closingTail selector (name ++ after)) = _
    rw [hnamed.mpr ⟨hname, rfl⟩]
    rfl

theorem IsUsage.ne_nil {selector text : List Char} (h : IsUsage selector text) : text ≠ [] := by
  obtain ⟨-⟩ := h
  exact List.cons_ne_nil _ _

theorem IsClosing.ne_nil {selector text : List Char} (h : IsClosing selector text) :
    text ≠ [] := by
  obtain ⟨-, -⟩ := h
  exact List.cons_ne_nil _ _

/-! ### The first place -/

/-- No text of a kind begins in a text that stands in front of another one. -/
def NoneBegins (Is : List Char → Prop) (text following : List Char) : Prop :=
  ∀ front back read, text = front ++ back → back ≠ [] → Is read → ¬ read <+: back ++ following

/-- The first text of a kind, with what stands on both sides of it. -/
structure First (Is : List Char → Prop) (text before found after : List Char) : Prop where
  text_eq : text = before ++ found ++ after
  isFound : Is found
  none_before : NoneBegins Is before (found ++ after)

section First

variable {reader : Reader} {Is : List Char → Prop}

theorem noneBegins_nil (following : List Char) : NoneBegins Is [] following := by
  intro front back read htext hne
  exact absurd (List.append_eq_nil_iff.mp htext.symm).2 hne

theorem noneBegins_cons_iff {c : Char} {text following : List Char} :
    NoneBegins Is (c :: text) following
      ↔ (∀ read, Is read → ¬ read <+: c :: text ++ following) ∧ NoneBegins Is text following := by
  constructor
  · intro h
    refine ⟨fun read => h [] (c :: text) read rfl (List.cons_ne_nil _ _), ?_⟩
    intro front back read htext
    exact h (c :: front) back read (by rw [htext, List.cons_append])
  · rintro ⟨hhere, hlater⟩ front back read htext hne
    cases front with
    | nil =>
      obtain rfl : c :: text = back := htext
      exact hhere read
    | cons d front =>
      obtain ⟨rfl, rfl⟩ := List.cons.inj htext
      exact hlater front back read rfl hne

theorem NoneBegins.of_append {text back following : List Char}
    (h : NoneBegins Is (text ++ back) following) : NoneBegins Is back following := by
  intro front last read htext hne
  exact h (text ++ front) last read (by rw [htext, List.append_assoc]) hne

theorem Reader.Takes.eq_none_iff (hreader : reader.Takes Is) {text : List Char} :
    reader text = none ↔ ∀ read, Is read → ¬ read <+: text := by
  constructor
  · rintro h read hread ⟨after, htext⟩
    cases h.symm.trans (hreader.mpr ⟨hread, htext.symm⟩)
  · intro h
    rw [Option.eq_none_iff_forall_ne_some]
    rintro ⟨read, after⟩ hfound
    obtain ⟨hread, htext⟩ := hreader.mp hfound
    exact h read hread ⟨after, htext.symm⟩

variable (hreader : reader.Takes Is) (hne : ∀ {read}, Is read → read ≠ [])

include hreader hne

theorem firstMatch_eq_some_iff {text before read after : List Char} :
    firstMatch reader text = some (before, read, after) ↔ First Is text before read after := by
  induction text generalizing before with
  | nil =>
    refine iff_of_false nofun fun ⟨htext, hread, _⟩ => ?_
    have hnil := (List.append_eq_nil_iff.mp htext.symm).1
    exact hne hread (List.append_eq_nil_iff.mp hnil).2
  | cons c text ih =>
    rw [firstMatch]
    cases hhere : reader (c :: text) with
    | some found =>
      obtain ⟨found, behind⟩ := found
      obtain ⟨hfound, htext⟩ := hreader.mp hhere
      constructor
      · intro h
        cases h
        exact ⟨htext, hfound, noneBegins_nil _⟩
      · rintro ⟨hsplit, hread, hfirst⟩
        cases before with
        | nil =>
          have hagain := hreader.mpr ⟨hread, hsplit⟩
          cases hhere.symm.trans hagain
          rfl
        | cons d before =>
          refine absurd ?_ ((noneBegins_cons_iff.mp hfirst).1 found hfound)
          rw [List.append_assoc] at hsplit
          exact ⟨behind, htext.symm.trans hsplit⟩
    | none =>
      have hnot := hreader.eq_none_iff.mp hhere
      rw [Option.map_eq_some_iff]
      constructor
      · rintro ⟨⟨front, _, _⟩, hfront, heq⟩
        cases heq
        obtain ⟨rfl, hread, hfirst⟩ := ih.mp hfront
        refine ⟨rfl, hread, noneBegins_cons_iff.mpr ⟨?_, hfirst⟩⟩
        rwa [List.append_assoc, ← List.cons_append] at hnot
      · rintro ⟨hsplit, hread, hfirst⟩
        cases before with
        | nil => exact absurd ⟨after, hsplit.symm⟩ (hnot read hread)
        | cons d before =>
          obtain ⟨rfl, rfl⟩ := List.cons.inj hsplit
          exact ⟨(before, read, after),
            ih.mpr ⟨rfl, hread, (noneBegins_cons_iff.mp hfirst).2⟩, rfl⟩

theorem First.unique {text before read after before' read' after' : List Char}
    (h : First Is text before read after) (h' : First Is text before' read' after') :
    before = before' ∧ read = read' ∧ after = after' := by
  rw [← firstMatch_eq_some_iff hreader hne] at h h'
  cases h.symm.trans h'
  exact ⟨rfl, rfl, rfl⟩

omit hne in
theorem firstMatch_eq_none_iff {text : List Char} :
    firstMatch reader text = none ↔ NoneBegins Is text [] := by
  induction text with
  | nil => exact iff_of_true rfl (noneBegins_nil [])
  | cons c text ih =>
    rw [firstMatch, noneBegins_cons_iff, ← ih, List.append_nil]
    cases hhere : reader (c :: text) with
    | some found =>
      obtain ⟨hfound, htext⟩ := hreader.mp hhere
      exact iff_of_false (Option.some_ne_none _) fun h => h.1 found.1 hfound ⟨found.2, htext.symm⟩
    | none =>
      rw [Option.map_eq_none_iff]
      exact (and_iff_right (hreader.eq_none_iff.mp hhere)).symm

end First

/-! ### What a usage owns -/

/-- Does a usage close itself? -/
def ClosesItself (usage : List Char) : Prop :=
  ['/', '>'] <:+ usage

instance : DecidablePred ClosesItself :=
  fun usage => inferInstanceAs (Decidable (['/', '>'] <:+ usage))

/-- What a usage owns of the text behind it, given the text up to the next usage, or all of it if
there is none, and what follows that text. -/
inductive Owns (selector usage gap following : List Char) : List Char → Prop where
  /-- it closes itself, or its closing tag does not begin in front of the next usage -/
  | alone : (ClosesItself usage ∨ ∀ before closing after,
        First (IsClosing selector) (gap ++ following) before closing after →
          gap.length ≤ before.length) →
      Owns selector usage gap following []
  /-- all up to the end of its closing tag -/
  | closed {before closing after : List Char} : ¬ ClosesItself usage →
      First (IsClosing selector) (gap ++ following) before closing after →
      before.length < gap.length → Owns selector usage gap following (before ++ closing)

/-- A usage in a document, what it owns, and the text behind it that is kept. -/
structure Use where
  usage : List Char
  owned : List Char
  kept : List Char

namespace Use

/-- The text up to the next usage. -/
def gap (use : Use) : List Char :=
  use.owned ++ use.kept

def text (use : Use) : List Char :=
  use.usage ++ use.gap

/-- The text with a copy of the replacement for the usage and what it owns. -/
def textWith (replacement : List Char) (use : Use) : List Char :=
  replacement ++ use.kept

/-- What holds of a usage that stands in front of other text. -/
structure Stands (selector following : List Char) (use : Use) : Prop where
  isUsage : IsUsage selector use.usage
  none_inside : NoneBegins (IsUsage selector) use.gap following
  owns : Owns selector use.usage use.gap following use.owned

end Use

/-- The division of a document into a front without usages and its usages, from left to right. -/
structure Divides (selector html front : List Char) (uses : List Use) : Prop where
  html_eq : html = front ++ uses.flatMap Use.text
  none_before : NoneBegins (IsUsage selector) front (uses.flatMap Use.text)
  stands : ∀ before use behind, uses = before ++ use :: behind →
    use.Stands selector (behind.flatMap Use.text)

section Divides

variable {selector : List Char}

theorem firstMatch_opening_iff {text before read after : List Char} :
    firstMatch (opening selector) text = some (before, read, after)
      ↔ First (IsUsage selector) text before read after :=
  firstMatch_eq_some_iff (opening_takes selector) IsUsage.ne_nil

theorem firstMatch_closing_iff {text before read after : List Char} :
    firstMatch (closing selector) text = some (before, read, after)
      ↔ First (IsClosing selector) text before read after :=
  firstMatch_eq_some_iff (closing_takes selector) IsClosing.ne_nil

theorem divides_nil_iff {html front : List Char} :
    Divides selector html front [] ↔ html = front ∧ NoneBegins (IsUsage selector) front [] := by
  constructor
  · rintro ⟨hhtml, hnone, -⟩
    exact ⟨by simpa using hhtml, hnone⟩
  · rintro ⟨rfl, hnone⟩
    exact ⟨by simp, hnone, by simp⟩

theorem divides_cons_iff {html front : List Char} {use : Use} {uses : List Use} :
    Divides selector html front (use :: uses)
      ↔ First (IsUsage selector) html front use.usage (use.gap ++ uses.flatMap Use.text) ∧
        Owns selector use.usage use.gap (uses.flatMap Use.text) use.owned ∧
        Divides selector (use.gap ++ uses.flatMap Use.text) use.gap uses := by
  have htext : (use :: uses).flatMap Use.text
      = use.usage ++ (use.gap ++ uses.flatMap Use.text) := by
    rw [List.flatMap_cons, Use.text, List.append_assoc]
  constructor
  · rintro ⟨hhtml, hnone, hstands⟩
    rw [htext] at hhtml hnone
    obtain ⟨husage, hinside, howns⟩ := hstands [] use uses rfl
    refine ⟨⟨by rw [hhtml, List.append_assoc], husage, hnone⟩, howns, rfl, hinside, ?_⟩
    intro before other behind huses
    exact hstands (use :: before) other behind (by rw [huses, List.cons_append])
  · rintro ⟨⟨hhtml, husage, hnone⟩, howns, -, hinside, hstands⟩
    refine ⟨by rw [htext, hhtml, List.append_assoc], by rwa [htext], ?_⟩
    intro before other behind huses
    cases before with
    | nil =>
      obtain ⟨rfl, rfl⟩ := List.cons.inj huses
      exact ⟨husage, hinside, howns⟩
    | cons first before =>
      obtain ⟨rfl, rfl⟩ := List.cons.inj huses
      exact hstands before other behind rfl

/-- The next usage is found behind the text up to it. -/
theorem firstMatch_of_divides {html front : List Char} {uses : List Use}
    (h : Divides selector html front uses) :
    match firstMatch (opening selector) html with
    | none => html = front ∧ uses = []
    | some (gap, _, _) => gap = front ∧ uses ≠ [] := by
  cases uses with
  | nil =>
    obtain ⟨rfl, hnone⟩ := divides_nil_iff.mp h
    rw [(firstMatch_eq_none_iff (opening_takes selector)).mpr hnone]
    exact ⟨rfl, rfl⟩
  | cons use uses =>
    rw [firstMatch_opening_iff.mpr (divides_cons_iff.mp h).1]
    exact ⟨rfl, List.cons_ne_nil _ _⟩

theorem afterUsage_of_closesItself {usage : List Char} (h : ClosesItself usage)
    (rest : List Char) : afterUsage selector usage rest = rest := by
  rw [afterUsage, if_pos (List.isSuffixOf_iff_suffix.mpr h)]

/-- What is behind a usage goes on behind what it owns. -/
theorem afterUsage_of_owns {use : Use} {uses : List Use}
    (howns : Owns selector use.usage use.gap (uses.flatMap Use.text) use.owned)
    (hbehind : Divides selector (use.gap ++ uses.flatMap Use.text) use.gap uses) :
    afterUsage selector use.usage (use.gap ++ uses.flatMap Use.text)
      = use.kept ++ uses.flatMap Use.text := by
  obtain ⟨usage, owned, kept⟩ := use
  simp only [Use.gap] at howns hbehind ⊢
  have hnext := firstMatch_of_divides hbehind
  cases howns with
  | @closed before closing after hcloses hfirst hlt =>
    have hafter : after = kept ++ uses.flatMap Use.text := by
      have htext := hfirst.text_eq
      rw [List.append_assoc] at htext
      exact (List.append_cancel_left htext).symm
    rw [afterUsage, if_neg (fun h => hcloses (List.isSuffixOf_iff_suffix.mp h)),
      firstMatch_closing_iff.mpr hfirst]
    dsimp only
    split
    · exact hafter
    · next gap _ _ hgap =>
      rw [hgap] at hnext
      obtain ⟨rfl, -⟩ := hnext
      rw [if_pos hlt]
      exact hafter
  | alone halone =>
    rw [List.nil_append] at hnext ⊢
    by_cases hcloses : ClosesItself usage
    · exact afterUsage_of_closesItself hcloses _
    have hfar := halone.resolve_left hcloses
    rw [List.nil_append] at hfar
    rw [afterUsage, if_neg (fun h => hcloses (List.isSuffixOf_iff_suffix.mp h))]
    split
    · rfl
    · next before closing after hclosing =>
      have hfirst := firstMatch_closing_iff.mp hclosing
      have hle := hfar before closing after hfirst
      split
      · next hnone =>
        -- Without another usage, the closing tag would begin behind the end of the document.
        rw [hnone] at hnext
        have hlength := congrArg List.length hfirst.text_eq
        have hpos := List.length_pos_iff.mpr hfirst.isFound.ne_nil
        rw [hnext.1] at hlength
        simp only [List.length_append] at hlength
        omega
      · next gap _ _ hgap =>
        rw [hgap] at hnext
        obtain ⟨rfl, -⟩ := hnext
        rw [if_neg (Nat.not_lt.mpr hle)]

/-- Every usage and what it owns becomes the replacement, and all else is kept. -/
theorem substituteText_of_divides {html front : List Char} {uses : List Use}
    (h : Divides selector html front uses) (replacement : List Char) :
    substituteText selector replacement html
      = front ++ uses.flatMap (Use.textWith replacement) := by
  induction uses generalizing html front with
  | nil =>
    obtain ⟨rfl, hnone⟩ := divides_nil_iff.mp h
    rw [substituteText_of_none ((firstMatch_eq_none_iff (opening_takes selector)).mpr hnone),
      List.flatMap_nil, List.append_nil]
  | cons use uses ih =>
    obtain ⟨hfirst, howns, hbehind⟩ := divides_cons_iff.mp h
    have hkept : Divides selector (use.kept ++ uses.flatMap Use.text) use.kept uses :=
      ⟨rfl, hbehind.none_before.of_append, hbehind.stands⟩
    rw [substituteText_of_some (firstMatch_opening_iff.mpr hfirst),
      afterUsage_of_owns howns hbehind, ih hkept, List.flatMap_cons, Use.textWith]
    simp only [List.append_assoc]

/-- What a usage owns does not depend on how it is found. -/
theorem Owns.unique {usage gap following first second : List Char}
    (hfirst : Owns selector usage gap following first)
    (hsecond : Owns selector usage gap following second) : first = second := by
  cases hfirst with
  | alone halone =>
    cases hsecond with
    | alone _ => rfl
    | closed hcloses hclosing hlt =>
      exact absurd (halone.resolve_left hcloses _ _ _ hclosing) (Nat.not_le.mpr hlt)
  | closed hcloses hclosing hlt =>
    cases hsecond with
    | alone halone =>
      exact absurd (halone.resolve_left hcloses _ _ _ hclosing) (Nat.not_le.mpr hlt)
    | closed _ hclosing' _ =>
      obtain ⟨rfl, rfl, -⟩ := hclosing.unique (closing_takes selector) IsClosing.ne_nil hclosing'
      rfl

/-- A document is divided in one way only. -/
theorem Divides.unique {html front front' : List Char} {uses uses' : List Use}
    (h : Divides selector html front uses) (h' : Divides selector html front' uses') :
    front = front' ∧ uses = uses' := by
  induction uses generalizing html front front' uses' with
  | nil =>
    have hmatch := firstMatch_of_divides h'
    obtain ⟨rfl, hnone⟩ := divides_nil_iff.mp h
    rw [(firstMatch_eq_none_iff (opening_takes selector)).mpr hnone] at hmatch
    exact ⟨hmatch.1, hmatch.2.symm⟩
  | cons use uses ih =>
    obtain ⟨hfirst, howns, hbehind⟩ := divides_cons_iff.mp h
    cases uses' with
    | nil =>
      have hmatch := firstMatch_of_divides h'
      rw [firstMatch_opening_iff.mpr hfirst] at hmatch
      exact absurd rfl hmatch.2
    | cons use' uses' =>
      obtain ⟨hfirst', howns', hbehind'⟩ := divides_cons_iff.mp h'
      obtain ⟨rfl, husage, hrest⟩ :=
        hfirst.unique (opening_takes selector) IsUsage.ne_nil hfirst'
      rw [← hrest] at hbehind'
      obtain ⟨hgap, rfl⟩ := ih hbehind hbehind'
      obtain ⟨usage, owned, kept⟩ := use
      obtain ⟨usage', owned', kept'⟩ := use'
      dsimp only at husage howns howns'
      subst husage
      rw [← hgap] at howns'
      obtain rfl := howns.unique howns'
      obtain rfl : kept = kept' := List.append_cancel_left hgap
      exact ⟨rfl, rfl⟩

/-! #### Closing tags and usages -/

/-- A closing tag of a selector without `<` has no `<` but its first character. -/
theorem IsClosing.exists_cons {closing : List Char} (h : IsClosing selector closing)
    (hselector : '<' ∉ selector) : ∃ body, closing = '<' :: body ∧ '<' ∉ body := by
  have hnot {blanks : List Char} (hblanks : ∀ c ∈ blanks, Text.isBlank c = true) : '<' ∉ blanks :=
    fun hmem => absurd (hblanks '<' hmem) (by decide)
  obtain ⟨hblanks, ⟨hbefore, ⟨hbehind⟩⟩⟩ := h
  refine ⟨_, rfl, ?_⟩
  simp [hnot hblanks, hnot hbefore, hnot hbehind, hselector]

theorem Divides.head?_flatMap_text {html front : List Char} {uses : List Use}
    (h : Divides selector html front uses) : ∀ c ∈ (uses.flatMap Use.text).head?, c = '<' := by
  cases uses with
  | nil => exact nofun
  | cons use uses =>
    have husage := (divides_cons_iff.mp h).1.isFound
    obtain ⟨usage, owned, kept⟩ := use
    obtain ⟨-⟩ : IsUsage selector usage := husage
    rintro c (_ | _)
    rfl

/-- A closing tag that begins in front of a usage ends there, too. -/
theorem Divides.closing_prefix (hselector : '<' ∉ selector) {html gap : List Char}
    {uses : List Use} (h : Divides selector html gap uses) {before closing after : List Char}
    (hclosing : First (IsClosing selector) html before closing after)
    (hlt : before.length < gap.length) : before ++ closing <+: gap := by
  obtain ⟨body, rfl, hbody⟩ := hclosing.isFound.exists_cons hselector
  have htext := h.html_eq.symm.trans hclosing.text_eq
  rcases List.append_eq_append_iff.mp htext with ⟨inside, hinside, hrest⟩ | ⟨more, hgap, -⟩
  · cases inside with
    | nil => exact ⟨[], by rw [hinside, List.append_nil, List.append_nil]⟩
    | cons c inside =>
      -- The usage would begin with a character of the tag that is not its first one.
      have hc : c = '<' := h.head?_flatMap_text c (by simp [hrest])
      rcases List.append_eq_append_iff.mp hinside with ⟨more, rfl, htag⟩ | ⟨more, rfl, -⟩
      · cases more with
        | nil => simp at hlt
        | cons d more =>
          obtain ⟨-, rfl⟩ := List.cons.inj htag
          exact absurd (by simp [hc]) hbody
      · simp only [List.length_append] at hlt
        omega
  · exact ⟨more, hgap.symm⟩

/-- A usage owns something or nothing of the text up to the next one. -/
theorem Divides.exists_owns (hselector : '<' ∉ selector) {rest gap : List Char}
    {uses : List Use} (h : Divides selector rest gap uses) (usage : List Char) :
    ∃ owned kept, owned ++ kept = gap ∧ Owns selector usage gap (uses.flatMap Use.text) owned := by
  by_cases hcloses : ClosesItself usage
  · exact ⟨[], gap, rfl, .alone (.inl hcloses)⟩
  by_cases hfar : ∀ before closing after,
      First (IsClosing selector) rest before closing after → gap.length ≤ before.length
  · rw [h.html_eq] at hfar
    exact ⟨[], gap, rfl, .alone (.inr hfar)⟩
  · push Not at hfar
    obtain ⟨before, closing, after, hfirst, hlt⟩ := hfar
    obtain ⟨kept, hkept⟩ := h.closing_prefix hselector hfirst hlt
    rw [h.html_eq] at hfirst
    exact ⟨before ++ closing, kept, hkept, .closed hcloses hfirst hlt⟩

theorem exists_divides (hselector : '<' ∉ selector) (html : List Char) :
    ∃ front uses, Divides selector html front uses := by
  induction hlength : html.length using Nat.strong_induction_on generalizing html with
  | _ length ih =>
  subst hlength
  cases hmatch : firstMatch (opening selector) html with
  | none =>
    exact ⟨html, [], divides_nil_iff.mpr
      ⟨rfl, (firstMatch_eq_none_iff (opening_takes selector)).mp hmatch⟩⟩
  | some found =>
    obtain ⟨front, usage, rest⟩ := found
    have hfirst := firstMatch_opening_iff.mp hmatch
    have hshorter : rest.length < html.length := by
      have hpos := List.length_pos_iff.mpr hfirst.isFound.ne_nil
      have hlength := congrArg List.length hfirst.text_eq
      simp only [List.length_append] at hlength
      omega
    obtain ⟨gap, uses, hrest⟩ := ih _ hshorter rest rfl
    obtain ⟨owned, kept, rfl, howns⟩ := hrest.exists_owns hselector usage
    obtain rfl := hrest.html_eq
    exact ⟨front, ⟨usage, owned, kept⟩ :: uses, divides_cons_iff.mpr ⟨hfirst, howns, hrest⟩⟩

end Divides

/-- For a selector without `<` a document is divided in one way into its usages, what they own and
what is kept; whatever the replacement is, each usage and what it owns becomes one copy of it. -/
theorem substitute_uses {selector : String} (hselector : '<' ∉ selector.toList) (html : String) :
    ∃ front uses, Divides selector.toList html.toList front uses ∧
      (∀ front' uses', Divides selector.toList html.toList front' uses' →
        front' = front ∧ uses' = uses) ∧
      ∀ replacement : String, (substitute html selector replacement).toList
        = front ++ uses.flatMap (Use.textWith replacement.toList) := by
  obtain ⟨front, uses, hdivides⟩ := exists_divides hselector html.toList
  refine ⟨front, uses, hdivides, fun _ _ hother => hother.unique hdivides, fun replacement => ?_⟩
  rw [substitute, String.toList_ofList, substituteText_of_divides hdivides]

/-! #### A board of cards -/

/-- A card with another one in it that closes itself, and a card with text. -/
def board : String :=
  "<x-card title=\">\">a<x-card/>b</x-card><x-card>c</ x-card >d"

/-- The uses of cards: the first closing tag belongs to none of them. -/
def boardUses : List Use :=
  [⟨"<x-card title=\">\">".toList, [], "a".toList⟩,
    ⟨"<x-card/>".toList, [], "b</x-card>".toList⟩,
    ⟨"<x-card>".toList, "c".toList ++ "</ x-card >".toList, "d".toList⟩]

theorem divides_board : Divides "x-card".toList board.toList [] boardUses := by
  refine divides_cons_iff.mpr ⟨firstMatch_opening_iff.mp (by decide +kernel), ?_,
    divides_cons_iff.mpr ⟨firstMatch_opening_iff.mp (by decide +kernel), ?_,
      divides_cons_iff.mpr ⟨firstMatch_opening_iff.mp (by decide +kernel), ?_,
        divides_nil_iff.mpr ⟨by decide +kernel,
          (firstMatch_eq_none_iff (opening_takes _)).mp (by decide +kernel)⟩⟩⟩⟩
  · refine .alone (.inr fun before tag after htag => ?_)
    have hfound : firstMatch (closing "x-card".toList)
        "a<x-card/>b</x-card><x-card>c</ x-card >d".toList
        = some ("a<x-card/>b".toList, "</x-card>".toList, "<x-card>c</ x-card >d".toList) := by
      decide +kernel
    cases (firstMatch_closing_iff.mpr htag).symm.trans hfound
    decide +kernel
  · exact .alone (.inl (by decide +kernel))
  · have hfirst : First (IsClosing "x-card".toList) "c</ x-card >d".toList
        "c".toList "</ x-card >".toList "d".toList :=
      firstMatch_closing_iff.mp (by decide +kernel)
    exact .closed (by decide +kernel) hfirst (by decide +kernel)

theorem substitute_board : '<' ∉ "x-card".toList ∧
    (substitute board "x-card" "<x-card/>").toList
      = "<x-card/>a<x-card/>b</x-card><x-card/>d".toList := by
  have hselector : '<' ∉ "x-card".toList := by decide
  obtain ⟨front, uses, -, hunique, hsubstitute⟩ := substitute_uses hselector board
  obtain ⟨rfl, rfl⟩ := hunique [] boardUses divides_board
  exact ⟨hselector, hsubstitute "<x-card/>"⟩

end SiteTree.Markup
