import SiteTree.Text.Search

/-!
# What searching finds

A search finds a text exactly where the text occurs.

* `occursIn_iff` — searching succeeds exactly when the text occurs somewhere.
* `splitFirst?_eq_some_iff` — the place found is the first one.
-/

namespace SiteTree.Text

theorem after?_eq_some_iff {start text rest : List Char} :
    after? start text = some rest ↔ start ++ rest = text := by
  refine ⟨append_of_after?, ?_⟩
  rintro rfl
  induction start with
  | nil => rfl
  | cons c start ih => simp [after?, ih]

theorem isSome_after?_iff {start text : List Char} :
    (after? start text).isSome = true ↔ start <+: text := by
  rw [Option.isSome_iff_exists]
  simp only [after?_eq_some_iff]
  rfl

theorem occursIn_iff {needle text : List Char} :
    occursIn needle text = true ↔ needle <:+: text := by
  induction text with
  | nil => cases needle <;> simp [occursIn, splitFirst?]
  | cons c text ih =>
    rw [List.infix_cons_iff, ← ih, ← isSome_after?_iff]
    simp only [occursIn, splitFirst?]
    cases after? needle (c :: text) <;> simp

/-- Where the first `needle` of a text ends, no other one has ended before. -/
theorem splitFirst?_eq_some_iff {needle text before rest : List Char} (hne : needle ≠ []) :
    splitFirst? needle text = some (before, rest)
      ↔ text = before ++ needle ++ rest ∧ ¬ needle <:+: before ++ needle.dropLast := by
  have hpos := List.length_pos_iff.mpr hne
  have hshort : ¬ needle <:+: needle.dropLast := by
    intro hfound
    have hlength := hfound.length_le
    rw [List.length_dropLast] at hlength
    omega
  have hwhole (front : List Char) : front ++ needle.dropLast <+: front ++ needle ++ rest :=
    ((List.prefix_append_right_inj front).mpr (List.dropLast_prefix needle)).trans
      (List.prefix_append _ _)
  induction text generalizing before with
  | nil => simp [splitFirst?, hne]
  | cons c text ih =>
    rw [splitFirst?]
    cases hafter : after? needle (c :: text) with
    | some found =>
      have hfound := append_of_after? hafter
      simp only [Option.some.injEq, Prod.mk.injEq]
      constructor
      · rintro ⟨rfl, rfl⟩
        exact ⟨hfound.symm, hshort⟩
      · rintro ⟨htext, hfirst⟩
        cases before with
        | nil => exact ⟨rfl, List.append_cancel_left (hfound.trans htext)⟩
        | cons d before =>
          -- The needle at the beginning would end before the one behind `d :: before`.
          refine absurd (List.IsPrefix.isInfix ?_) hfirst
          refine List.prefix_of_prefix_length_le ⟨found, hfound⟩ (htext ▸ hwhole (d :: before)) ?_
          simp only [List.length_append, List.length_cons, List.length_dropLast]
          omega
    | none =>
      have hnot : ¬ needle <+: c :: text := by
        rw [← isSome_after?_iff, hafter]
        simp
      rw [Option.map_eq_some_iff]
      constructor
      · rintro ⟨⟨front, _⟩, hfront, heq⟩
        cases heq
        obtain ⟨rfl, hfirst⟩ := ih.mp hfront
        refine ⟨rfl, fun hfound => ?_⟩
        rcases List.infix_cons_iff.mp hfound with hstart | hfound
        · exact hnot (hstart.trans (hwhole (c :: front)))
        · exact hfirst hfound
      · rintro ⟨htext, hfirst⟩
        cases before with
        | nil => exact absurd ⟨rest, htext.symm⟩ hnot
        | cons d front =>
          obtain ⟨rfl, rfl⟩ := List.cons.inj htext
          exact ⟨(front, rest), ih.mpr ⟨rfl, fun hfound => hfirst (List.infix_cons hfound)⟩, rfl⟩

end SiteTree.Text
