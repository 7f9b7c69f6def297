import SiteTree.Proofs.Markup.Insertion

/-!
# Attributes in front of other text

Attributes are read one at a time, and how far one goes depends on what stands behind it: a name
goes on with letters, an equals sign brings a value, and a value without quotes goes on up to a
blank.

* `attrItems_eq_cons_iff` — an item is read for itself where it can stand in front of the rest.
* `Follows.attrItems_append` — attributes are read as before when other text stands behind them,
  unless one of them dangles, that is, has an equals sign and no value, and gets a value from that text.
-/

namespace SiteTree.Markup

/-! ### Reading attributes -/

namespace AttrItem

/-- Can the item stand in front of a text, so that the text is read for itself? -/
def Precedes (rest : List Char) : AttrItem → Prop
  | other c => isAttrNameChar c = false
  | attr name none => name ≠ [] ∧ (∀ c ∈ name, isAttrNameChar c = true) ∧
    (∀ c ∈ rest.head?, isAttrNameChar c = false) ∧ attrValue? rest = none
  | attr name (some value) => name ≠ [] ∧ (∀ c ∈ name, isAttrNameChar c = true) ∧
    value.IsRead ∧ (value.quote = none → ∀ c ∈ rest.head?, isBareChar c = false)

end AttrItem

theorem isAttrNameChar_head_join {value : AttrValue} (h : value.IsRead) (rest : List Char) :
    ∀ c ∈ (value.join ++ rest).head?, isAttrNameChar c = false := by
  obtain ⟨first, second, hequals, hfirst, -⟩ := h.equals
  intro c hc
  cases first with
  | nil =>
    obtain rfl : '=' = c := by simpa [AttrValue.join, hequals] using hc
    decide
  | cons d first =>
    obtain rfl : d = c := by simpa [AttrValue.join, hequals] using hc
    exact isAttrNameChar_of_isBlank (hfirst d List.mem_cons_self)

/-- The first item of a text stands in front of the text that the others are read from. -/
theorem attrItems_eq_cons_iff {text : List Char} {item : AttrItem} {items : List AttrItem} :
    attrItems text = item :: items
      ↔ ∃ rest, text = item.join ++ rest ∧ item.Precedes rest ∧ attrItems rest = items := by
  constructor
  · intro h
    cases text with
    | nil => simp [attrItems] at h
    | cons c text =>
      rw [attrItems] at h
      split at h
      · next hc =>
        have hname : ∀ d ∈ c :: text.takeWhile isAttrNameChar, isAttrNameChar d = true := by
          intro d hd
          rcases List.mem_cons.mp hd with rfl | hd
          · exact hc
          · exact List.mem_takeWhile_imp hd
        have htext : c :: text
            = c :: text.takeWhile isAttrNameChar ++ text.dropWhile isAttrNameChar := by
          rw [List.cons_append, List.takeWhile_append_dropWhile]
        split at h
        · next value after hvalue =>
          obtain ⟨rfl, rfl⟩ := List.cons.inj h
          obtain ⟨hread, hrest, hafter⟩ := attrValue?_eq_some_iff.mp hvalue
          refine ⟨after, ?_, ⟨List.cons_ne_nil _ _, hname, hread, hafter⟩, rfl⟩
          rw [htext, hrest]
          simp [AttrItem.join]
        · next hvalue =>
          obtain ⟨rfl, rfl⟩ := List.cons.inj h
          refine ⟨text.dropWhile isAttrNameChar, ?_,
            ⟨List.cons_ne_nil _ _, hname, Text.head?_dropWhile text, hvalue⟩, rfl⟩
          rw [htext]
          simp [AttrItem.join]
      · next hc =>
        obtain ⟨rfl, rfl⟩ := List.cons.inj h
        exact ⟨text, rfl, Bool.eq_false_iff.mpr hc, rfl⟩
  · rintro ⟨rest, rfl, hprecedes, rfl⟩
    cases item with
    | other c => exact attrItems_other hprecedes rest
    | attr name value =>
      cases value with
      | none =>
        obtain ⟨hne, hname, hrest, hvalue⟩ := hprecedes
        have hjoin : (AttrItem.attr name none).join = name := List.append_nil name
        rw [hjoin, attrItems_name hne hname hrest hvalue]
      | some value =>
        obtain ⟨hne, hname, hread, hafter⟩ := hprecedes
        have hjoin : (AttrItem.attr name (some value)).join = name ++ value.join := rfl
        rw [hjoin, List.append_assoc]
        exact attrItems_name_value hne hname (isAttrNameChar_head_join hread rest)
          (attrValue?_eq_some_iff.mpr ⟨hread, rfl, hafter⟩)

theorem attrItems_flatMap_of_append {text : List Char} {front items : List AttrItem}
    (h : attrItems text = front ++ items) : attrItems (items.flatMap AttrItem.join) = items := by
  induction front generalizing text with
  | nil =>
    have htext := flatMap_attrItems text
    rw [h, List.nil_append] at htext
    rw [htext, h, List.nil_append]
  | cons item front ih =>
    obtain ⟨rest, -, -, hrest⟩ := attrItems_eq_cons_iff.mp h
    exact ih hrest

/-! #### What stands behind attributes -/

/-- Is there an equals sign with the end or a double quote behind it? -/
def breaksOff (text : List Char) : Bool :=
  match text.dropWhile Text.isBlank with
  | '=' :: rest => (rest.dropWhile Text.isBlank).head?.all (· == '"')
  | _ => false

/-- Is there an attribute with an equals sign and no value, to which text behind the items can give
one? -/
def dangles : List AttrItem → Bool
  | [] => false
  | .attr _ none :: rest => breaksOff (rest.flatMap AttrItem.join) || dangles rest
  | _ :: rest => dangles rest

/-- Names, and names without a value, that do not take in the old text do not take in the new one. -/
structure Follows (old new : List Char) : Prop where
  head : ∀ c ∈ new.head?, isAttrNameChar c = true → c ∈ old.head?
  noEquals : (new.dropWhile Text.isBlank).head? ≠ some '='
  noQuote : '\'' ∈ new → '\'' ∈ old

/-- What dangles in front of the old text gets no value from the new one: the old text would be a value
behind an equals sign, and the new one brings no double quote. -/
structure Keeps (old new : List Char) : Prop where
  head : ∃ c ∈ old.head?, isBareChar c = true
  noQuote : '"' ∈ new → '"' ∈ old

theorem attrValue?_eq_none_iff {text rest tail : List Char} {c : Char}
    (hequals : text.dropWhile Text.isBlank = '=' :: rest)
    (hrest : rest.dropWhile Text.isBlank = c :: tail) :
    attrValue? text = none ↔ (c = '"' ∨ c = '\'' → c ∉ tail) ∧ isBareChar c = false := by
  rw [attrValue?, hequals]
  change valueText? _ (rest.dropWhile Text.isBlank) = none ↔ _
  rw [hrest, valueText?]
  by_cases hquote : c = '"' ∨ c = '\''
  · have hbare : isBareChar c = false := by
      rcases hquote with rfl | rfl
      · decide
      · decide
    rw [if_pos hquote]
    cases hdrop : tail.dropWhile (· != c) with
    | nil =>
      have hnot : c ∉ tail := by
        intro hmem
        have hall := List.dropWhile_eq_nil_iff.mp hdrop c hmem
        simp at hall
      simp [hnot, hbare]
    | cons d after =>
      have hmem : c ∈ tail := by
        obtain rfl := head_dropWhile_bne hdrop
        exact (List.dropWhile_suffix _).subset (hdrop ▸ List.mem_cons_self)
      simp [hquote, hmem]
  · rw [if_neg hquote]
    cases hbare : isBareChar c with
    | true => simp
    | false => simp [hquote]

theorem dangles_cons {item : AttrItem} {items : List AttrItem} (h : dangles (item :: items) = false) :
    (∀ name, item = .attr name none → breaksOff (items.flatMap AttrItem.join) = false) ∧
      dangles items = false := by
  match item with
  | .other c => exact ⟨nofun, h⟩
  | .attr name (some value) => exact ⟨nofun, h⟩
  | .attr name none =>
    obtain ⟨hbreaks, hdangles⟩ := Bool.or_eq_false_iff.mp h
    exact ⟨fun _ _ => hbreaks, hdangles⟩

namespace Follows

variable {old new : List Char} (h : Follows old new)

include h

theorem attrValue?_eq_none {front : List Char} (hopen : breaksOff front = false ∨ Keeps old new)
    (hold : attrValue? (front ++ old) = none) : attrValue? (front ++ new) = none := by
  unfold breaksOff at hopen
  cases hfront : front.dropWhile Text.isBlank with
  | nil =>
    refine Markup.attrValue?_eq_none ?_
    rw [List.dropWhile_append, hfront]
    exact h.noEquals
  | cons d rest =>
    have hdrop (behind : List Char) :
        (front ++ behind).dropWhile Text.isBlank = d :: (rest ++ behind) := by
      rw [List.dropWhile_append, hfront]
      rfl
    by_cases hequals : d = '='
    · subst hequals
      rw [hfront] at hopen
      have hopen : (rest.dropWhile Text.isBlank).head?.all (· == '"') = false ∨ Keeps old new := hopen
      cases hrest : rest.dropWhile Text.isBlank with
      | nil =>
        rw [hrest] at hopen
        rcases hopen with hbreaks | hkeeps
        · cases hbreaks
        · -- The old text would be a value.
          obtain ⟨c, hc, hbare⟩ := hkeeps.head
          obtain ⟨tail, rfl⟩ := List.head?_eq_some_iff.mp hc
          have hinner : (rest ++ c :: tail).dropWhile Text.isBlank = c :: tail := by
            rw [List.dropWhile_append, hrest]
            exact List.dropWhile_cons_of_neg (by simp [(notMem_of_isBareChar hbare).1])
          obtain ⟨-, hnot⟩ := (attrValue?_eq_none_iff (hdrop (c :: tail)) hinner).mp hold
          rw [hbare] at hnot
          cases hnot
      | cons c tail =>
        rw [hrest] at hopen
        have hinner (behind : List Char) :
            (rest ++ behind).dropWhile Text.isBlank = c :: (tail ++ behind) := by
          rw [List.dropWhile_append, hrest]
          rfl
        obtain ⟨hquote, hbare⟩ := (attrValue?_eq_none_iff (hdrop old) (hinner old)).mp hold
        refine (attrValue?_eq_none_iff (hdrop new) (hinner new)).mpr ⟨fun hc => ?_, hbare⟩
        have hnot := hquote hc
        rw [List.mem_append, not_or] at hnot ⊢
        refine ⟨hnot.1, fun hmem => hnot.2 ?_⟩
        -- A quote that stays open is not brought by the new text.
        rcases hc with rfl | rfl
        · rcases hopen with hbreaks | hkeeps
          · cases hbreaks
          · exact hkeeps.noQuote hmem
        · exact h.noQuote hmem
    · refine Markup.attrValue?_eq_none ?_
      rw [hdrop, List.head?_cons]
      exact fun heq => hequals (Option.some.inj heq)

theorem precedes {item : AttrItem} {front : List Char} (hold : item.Precedes (front ++ old))
    (hopen : ∀ name, item = .attr name none → breaksOff front = false ∨ Keeps old new)
    (hbare : ∀ name value, item = .attr name (some value) → value.quote = none →
      ∀ c ∈ (front ++ new).head?, isBareChar c = false) :
    item.Precedes (front ++ new) := by
  match item with
  | .other c => exact hold
  | .attr name (some value) =>
    obtain ⟨hne, hname, hread, -⟩ := hold
    exact ⟨hne, hname, hread, hbare name value rfl⟩
  | .attr name none =>
    obtain ⟨hne, hname, hhead, hvalue⟩ := hold
    refine ⟨hne, hname, ?_, h.attrValue?_eq_none (hopen name rfl) hvalue⟩
    cases front with
    | cons d front => exact hhead
    | nil =>
      intro c hc
      by_contra hchar
      have hchar : isAttrNameChar c = true := by simpa using hchar
      exact absurd hchar (by simp [hhead c (h.head c hc hchar)])

/-- Attributes are read as before when new text stands behind them, unless one of them dangles and gets
a value from that text. -/
theorem attrItems_append {front : List AttrItem} (hdangles : dangles front = false ∨ Keeps old new)
    (hbare : ∀ c ∈ new.head?, isBareChar c = true → c ∈ old.head?)
    (hold : attrItems (front.flatMap AttrItem.join ++ old) = front ++ attrItems old) :
    attrItems (front.flatMap AttrItem.join ++ new) = front ++ attrItems new := by
  induction front with
  | nil => rfl
  | cons item front ih =>
    obtain ⟨rest, htext, hprecedes, hrest⟩ := attrItems_eq_cons_iff.mp hold
    rw [List.flatMap_cons, List.append_assoc] at htext
    obtain rfl := List.append_cancel_left htext
    have hopen : ∀ name, item = .attr name none →
        breaksOff (front.flatMap AttrItem.join) = false ∨ Keeps old new := fun name hname =>
      hdangles.imp_left fun hdangles => (dangles_cons hdangles).1 name hname
    have hdangles := hdangles.imp_left fun hdangles => (dangles_cons hdangles).2
    refine attrItems_eq_cons_iff.mpr ⟨front.flatMap AttrItem.join ++ new, ?_,
      h.precedes hprecedes hopen ?_, ih hdangles hrest⟩
    · rw [List.flatMap_cons, List.append_assoc]
    · rintro name value rfl hnone
      have hafter := hprecedes.2.2.2 hnone
      cases hfront : front.flatMap AttrItem.join with
      | cons d text =>
        rw [hfront] at hafter
        exact hafter
      | nil =>
        rw [hfront] at hafter
        intro c hc
        by_contra hchar
        have hchar : isBareChar c = true := by simpa using hchar
        exact absurd hchar (by simp [hafter c (hbare c hc hchar)])

end Follows

end SiteTree.Markup
