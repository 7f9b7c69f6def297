/-!
# Finding one text inside another

All searches return the parts around the place found, never an index, so that no later
step can be out of range.

* `append_of_splitFirst?` — the parts around a find, put together again, are the text.
-/

namespace SiteTree.Text

/-- What follows `start` in `text`, when `text` begins with it. -/
def after? (start text : List Char) : Option (List Char) :=
  match start, text with
  | [], text => some text
  | _ :: _, [] => none
  | s :: start, c :: text => if s = c then after? start text else none

theorem append_of_after? {start text rest : List Char} (h : after? start text = some rest) :
    start ++ rest = text := by
  induction start generalizing text with
  | nil => simpa [after?] using h.symm
  | cons s start ih =>
    cases text with
    | nil => simp [after?] at h
    | cons c text =>
      simp only [after?] at h
      split at h
      · next hsc => rw [List.cons_append, ih h, hsc]
      · simp at h

/-- The text before the first `needle` and the text after it. -/
def splitFirst? (needle : List Char) : List Char → Option (List Char × List Char)
  | [] => if needle.isEmpty then some ([], []) else none
  | c :: text =>
    match after? needle (c :: text) with
    | some rest => some ([], rest)
    | none => (splitFirst? needle text).map fun (before, rest) => (c :: before, rest)

theorem append_of_splitFirst? {needle text before rest : List Char}
    (h : splitFirst? needle text = some (before, rest)) : before ++ needle ++ rest = text := by
  induction text generalizing before with
  | nil =>
    simp only [splitFirst?] at h
    split at h
    · next hn =>
      simp only [List.isEmpty_iff] at hn
      simp_all
    · simp at h
  | cons c text ih =>
    simp only [splitFirst?] at h
    split at h
    · next hrest =>
      simp only [Option.some.injEq, Prod.mk.injEq] at h
      obtain ⟨rfl, rfl⟩ := h
      simpa using append_of_after? hrest
    · simp only [Option.map_eq_some_iff, Prod.mk.injEq, Prod.exists] at h
      obtain ⟨before', rest', hsplit, rfl, rfl⟩ := h
      simpa using ih hsplit

/-- Does `needle` occur in `text`? -/
def occursIn (needle text : List Char) : Bool :=
  (splitFirst? needle text).isSome

end SiteTree.Text
