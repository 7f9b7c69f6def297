import SiteTree.Stylesheet.Lexical
import SiteTree.Text.Search

/-!
# Scoping selectors

A complex selector is scoped by requiring one more class, written as a marker such as
`.-q0`, of its last compound: the marker goes before the first colon of that compound, or
to its end. A selector list is scoped item by item, and the blanks and comments around each
item stay where they are.

* `splitList_join` — the items of a list, joined by commas again, are the list.
-/

namespace SiteTree.Stylesheet

/-! ### One selector -/

/-- The characters that end a compound when they stand outside brackets. -/
def isCombinator (c : Char) : Bool :=
  c == ' ' || c == '\t' || c == '\n' || c == '\r' || c == '>' || c == '+' || c == '~'

/-- Splits a selector behind its last combinator or comment; `none` when it has neither.
Within a selector a backslash hides the next character, and comments are recognised only
outside brackets. -/
def splitLast : Place → Nat → List Char → Option (List Char × List Char)
  | .comment, _, [] => some ([], [])
  | _, _, [] => none
  | .code, depth, '\\' :: c :: rest =>
    (splitLast .code depth rest).map fun (head, last) => ('\\' :: c :: head, last)
  | .code, 0, '/' :: '*' :: rest =>
    (splitLast .comment 0 rest).map fun (head, last) => ('/' :: '*' :: head, last)
  | .code, depth, c :: rest =>
    if depth = 0 ∧ isCombinator c then
      match splitLast .code 0 rest with
      | some (head, last) => some (c :: head, last)
      | none => some ([c], rest)
    else
      let place := if isQuote c then .string c else .code
      (splitLast place (nest depth c) rest).map fun (head, last) => (c :: head, last)
  | .comment, depth, '*' :: '/' :: rest =>
    match splitLast .code depth rest with
    | some (head, last) => some ('*' :: '/' :: head, last)
    | none => some (['*', '/'], rest)
  | .comment, depth, c :: rest =>
    (splitLast .comment depth rest).map fun (head, last) => (c :: head, last)
  | .string quote, depth, '\\' :: c :: rest =>
    (splitLast (.string quote) depth rest).map fun (head, last) => ('\\' :: c :: head, last)
  | .string quote, depth, c :: rest =>
    (splitLast (if c = quote then .code else .string quote) depth rest).map
      fun (head, last) => (c :: head, last)

/-- What stands before the last compound of a selector, and that compound. -/
def lastCompound (selector : List Char) : List Char × List Char :=
  (splitLast .code 0 selector).getD ([], selector)

/-- Splits a compound before its first colon outside brackets and strings. The last compound of
a selector begins behind the comments, so there is no place in it that is one. -/
def splitPseudo : Place → Nat → List Char → List Char × List Char
  | .comment, _, compound => (compound, [])
  | _, _, [] => ([], [])
  | .code, depth, '\\' :: c :: rest =>
    let (stem, pseudo) := splitPseudo .code depth rest
    ('\\' :: c :: stem, pseudo)
  | .string quote, depth, '\\' :: c :: rest =>
    let (stem, pseudo) := splitPseudo (.string quote) depth rest
    ('\\' :: c :: stem, pseudo)
  | .string quote, depth, c :: rest =>
    let (stem, pseudo) := splitPseudo (if c = quote then .code else .string quote) depth rest
    (c :: stem, pseudo)
  | .code, depth, c :: rest =>
    if depth = 0 ∧ c = ':' then ([], c :: rest)
    else
      let (stem, pseudo) :=
        splitPseudo (if isQuote c then .string c else .code) (nest depth c) rest
      (c :: stem, pseudo)

/-- The selector with `marker` required of its last compound. A compound that contains the
marker already is left alone. -/
def scopeSelector (marker selector : List Char) : List Char :=
  let (head, last) := lastCompound selector
  if Text.occursIn marker last then selector
  else
    let (stem, pseudo) := splitPseudo .code 0 last
    head ++ stem ++ marker ++ pseudo

/-! ### Selector lists -/

/-- The first item of a classified list and the items after it: the list is cut at each
comma that is code and stands outside brackets. -/
def splitItems : Nat → List (Char × Bool) → List Char × List (List Char)
  | _, [] => ([], [])
  | depth, (c, code) :: rest =>
    if code ∧ c = ',' ∧ depth = 0 then
      let (item, items) := splitItems 0 rest
      ([], item :: items)
    else
      let (item, items) := splitItems (if code then nest depth c else depth) rest
      (c :: item, items)

/-- The items of a selector list, at least one. -/
def splitList (list : List Char) : List (List Char) :=
  let (item, items) := splitItems 0 (classify list)
  item :: items

/-- One item of a list scoped, with the blanks and comments around it kept. An item that
holds nothing else is copied. -/
def scopeItem (marker item : List Char) : List Char :=
  let rest := trimStart item
  let core := trimEnd rest
  if core.isEmpty then item
  else
    item.take (item.length - rest.length) ++ scopeSelector marker core ++ rest.drop core.length

/-- A selector list with `marker` required of each of its selectors. -/
def scopeList (marker list : List Char) : List Char :=
  [','].intercalate ((splitList list).map (scopeItem marker))

theorem splitItems_join (depth : Nat) (list : List (Char × Bool)) :
    [','].intercalate ((splitItems depth list).1 :: (splitItems depth list).2)
      = list.map Prod.fst := by
  fun_induction splitItems depth list with
  | case1 => simp [List.intercalate]
  | case2 _ c _ rest h item items hrest ih =>
    rw [hrest] at ih
    simp_all [List.intercalate]
  | case3 _ c _ rest h item items hrest ih =>
    rw [hrest] at ih
    cases items <;> simp_all [List.intercalate]

theorem splitList_join (list : List Char) : [','].intercalate (splitList list) = list := by
  simpa [splitList, classify, map_fst_classify] using splitItems_join 0 (classify list)

end SiteTree.Stylesheet
