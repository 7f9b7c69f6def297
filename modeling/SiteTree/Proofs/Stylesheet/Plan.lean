import SiteTree.Proofs.Stylesheet.Segment
import Mathlib.Data.List.ReduceOption
import Mathlib.Data.String.Basic

/-!
# Where a marker is put in

Scoping a stylesheet puts copies of the marker into it and does nothing else. The plan of a
stylesheet is its text with a slot at each of these places: filling the slots gives the scoped
stylesheet, leaving them out gives the stylesheet itself.

* `fill_sheetPlan`, `text_sheetPlan` — the two ways to read a plan.
* `exists_of_mem_points` — each slot lies in an item of a selector list that is scoped.
* `points_in_item` — the slots that lie in an item are those of its own plan, so there is one at most.
-/

namespace SiteTree.Stylesheet

/-! ### Plans -/

/-- A text with slots in it. A slot, written `none`, is a place at which something is put in. -/
abbrev Plan := List (Option Char)

namespace Plan

/-- A text without slots. -/
def copied (text : List Char) : Plan :=
  text.map some

/-- The text without its slots. -/
def text (plan : Plan) : List Char :=
  plan.reduceOption

/-- The text with a copy in each of its slots. -/
def fill (copy : List Char) (plan : Plan) : List Char :=
  plan.flatMap fun place => place.elim copy fun c => [c]

/-- The slots of a plan by the number of bytes in front of them, when the plan itself stands behind
`offset` bytes. -/
def pointsFrom : Nat → Plan → List Nat
  | _, [] => []
  | offset, none :: plan => offset :: pointsFrom offset plan
  | offset, some c :: plan => pointsFrom (offset + c.utf8Size) plan

/-- The slots of a plan by the number of bytes in front of them. -/
def points (plan : Plan) : List Nat :=
  pointsFrom 0 plan

section Laws

variable (chars copy : List Char) (plan first second : Plan)

@[simp] theorem text_copied : text (copied chars) = chars := by
  induction chars with
  | nil => rfl
  | cons c chars ih => exact congrArg (c :: ·) ih

@[simp] theorem text_nil : text [] = [] := rfl

@[simp] theorem text_none_cons : text (none :: plan) = text plan := rfl

@[simp] theorem text_some_cons (c : Char) : text (some c :: plan) = c :: text plan := rfl

@[simp] theorem text_append : text (first ++ second) = text first ++ text second :=
  List.reduceOption_append first second

@[simp] theorem fill_copied : fill copy (copied chars) = chars := by
  simp [copied, fill, List.flatMap_map]

@[simp] theorem fill_nil : fill copy [] = [] := rfl

@[simp] theorem fill_none_cons : fill copy (none :: plan) = copy ++ fill copy plan := by
  simp [fill]

@[simp] theorem fill_some_cons (c : Char) : fill copy (some c :: plan) = c :: fill copy plan := by
  simp [fill]

@[simp] theorem fill_append : fill copy (first ++ second) = fill copy first ++ fill copy second := by
  simp [fill]

theorem pointsFrom_copied (offset : Nat) : pointsFrom offset (copied chars) = [] := by
  induction chars generalizing offset with
  | nil => rfl
  | cons c chars ih => exact ih _

theorem pointsFrom_append (offset : Nat) :
    pointsFrom offset (first ++ second)
      = pointsFrom offset first ++ pointsFrom (offset + String.utf8Len (text first)) second := by
  induction first generalizing offset with
  | nil => rfl
  | cons place first ih =>
    cases place with
    | none => rw [List.cons_append, pointsFrom, ih, pointsFrom, text_none_cons, List.cons_append]
    | some c =>
      rw [List.cons_append, pointsFrom, ih, pointsFrom, text_some_cons, String.utf8Len_cons,
        Nat.add_assoc, Nat.add_comm c.utf8Size]

end Laws

/-- A slot stands somewhere in the text of its plan. -/
theorem exists_of_mem_pointsFrom {plan : Plan} {offset point : Nat}
    (h : point ∈ pointsFrom offset plan) :
    ∃ front back, text plan = front ++ back ∧ point = offset + String.utf8Len front := by
  induction plan generalizing offset with
  | nil => exact absurd h List.not_mem_nil
  | cons place plan ih =>
    cases place with
    | none =>
      rcases List.mem_cons.mp h with rfl | hplan
      · exact ⟨[], text plan, rfl, rfl⟩
      · exact ih hplan
    | some c =>
      obtain ⟨front, back, htext, hpoint⟩ := ih h
      refine ⟨c :: front, back, ?_, ?_⟩
      · rw [text_some_cons, htext]
        rfl
      · rw [String.utf8Len_cons]
        omega

theorem bounds_of_mem_pointsFrom {plan : Plan} {offset point : Nat}
    (h : point ∈ pointsFrom offset plan) :
    offset ≤ point ∧ point ≤ offset + String.utf8Len (text plan) := by
  obtain ⟨front, back, htext, rfl⟩ := exists_of_mem_pointsFrom h
  rw [htext, String.utf8Len_append]
  omega

end Plan

/-! ### The plan of a stylesheet -/

/-- A selector with a slot where the marker is put in, if it is. -/
def selectorPlan (marker selector : List Char) : Plan :=
  let (head, last) := lastCompound selector
  if Text.occursIn marker last then Plan.copied selector
  else
    let (stem, pseudo) := splitPseudo .code 0 last
    Plan.copied (head ++ stem) ++ none :: Plan.copied pseudo

def itemPlan (marker item : List Char) : Plan :=
  let rest := trimStart item
  let core := trimEnd rest
  if core.isEmpty then Plan.copied item
  else
    Plan.copied (item.take (item.length - rest.length)) ++ selectorPlan marker core
      ++ Plan.copied (rest.drop core.length)

def listPlan (marker list : List Char) : Plan :=
  [some ','].intercalate ((splitList list).map (itemPlan marker))

def Segment.plan (marker : List Char) (blocks : List Block) (segment : Segment) : Plan :=
  if segment.IsScoped blocks then listPlan marker segment.text else Plan.copied segment.text

def segmentsPlan (marker : List Char) : List Block → List Segment → Plan
  | _, [] => []
  | blocks, segment :: row =>
    segment.plan marker blocks
      ++ some segment.mark.char :: segmentsPlan marker (segment.openBlocks blocks) row

/-- A stylesheet with a slot at each place where the marker is put in. -/
def sheetPlan (marker css : List Char) : Plan :=
  segmentsPlan marker [] (segments css).1 ++ Plan.copied (segments css).2

/-! ### Filling a plan -/

theorem fill_selectorPlan (marker selector : List Char) :
    Plan.fill marker (selectorPlan marker selector) = scopeSelector marker selector := by
  simp only [selectorPlan, scopeSelector]
  split
  · rw [Plan.fill_copied]
  · simp

theorem fill_itemPlan (marker item : List Char) :
    Plan.fill marker (itemPlan marker item) = scopeItem marker item := by
  simp only [itemPlan, scopeItem]
  split
  · rw [Plan.fill_copied]
  · simp only [Plan.fill_append, Plan.fill_copied, fill_selectorPlan]

/-- A row that a separator divides, around one of its items. -/
theorem intercalate_around {α : Type} (separator : α) (earlier : List (List α)) (item : List α)
    (later : List (List α)) :
    [separator].intercalate (earlier ++ item :: later)
      = earlier.flatMap (· ++ [separator]) ++ item ++ later.flatMap (separator :: ·) := by
  induction earlier with
  | nil =>
    induction later generalizing item with
    | nil => simp
    | cons next later ih => simpa [List.intercalate_cons_cons] using ih next
  | cons first earlier ih =>
    cases earlier with
    | nil => simpa [List.intercalate_cons_cons] using ih
    | cons second earlier => simpa [List.intercalate_cons_cons] using ih

/-- What reads a plan part by part reads a row of plans so, the separators among them. -/
theorem read_intercalate {read : Plan → List Char} (hnil : read [] = [])
    (happend : ∀ first second, read (first ++ second) = read first ++ read second)
    (separator : Plan) (row : List Plan) :
    read (separator.intercalate row) = (read separator).intercalate (row.map read) := by
  induction row with
  | nil => exact hnil
  | cons first row ih =>
    cases row with
    | nil => simp
    | cons second row =>
      simp only [List.intercalate_cons_cons, List.map_cons, happend] at ih ⊢
      rw [ih]

theorem fill_listPlan (marker list : List Char) :
    Plan.fill marker (listPlan marker list) = scopeList marker list := by
  rw [listPlan, scopeList, read_intercalate (Plan.fill_nil marker) (Plan.fill_append marker),
    List.map_map]
  congr 2
  funext item
  exact fill_itemPlan marker item

theorem Segment.fill_plan (marker : List Char) (blocks : List Block) (segment : Segment) :
    Plan.fill marker (segment.plan marker blocks) = segment.scoped marker blocks := by
  rw [Segment.plan, Segment.scoped]
  split
  · exact fill_listPlan marker segment.text
  · rw [Plan.fill_copied]

theorem fill_segmentsPlan (marker : List Char) (blocks : List Block) (row : List Segment) :
    Plan.fill marker (segmentsPlan marker blocks row) = scopeSegments marker blocks row := by
  induction row generalizing blocks with
  | nil => rfl
  | cons segment row ih =>
    rw [segmentsPlan, scopeSegments_cons, Plan.fill_append, Plan.fill_some_cons, ih,
      segment.fill_plan]

/-- Filling the slots of a stylesheet's plan is scoping it. -/
theorem fill_sheetPlan (marker css : List Char) :
    Plan.fill marker (sheetPlan marker css) = scopeText marker css := by
  rw [sheetPlan, Plan.fill_append, fill_segmentsPlan, Plan.fill_copied]
  rfl

/-! ### The text of a plan -/

theorem splitLast_join {place : Place} {depth : Nat} {text head last : List Char}
    (h : splitLast place depth text = some (head, last)) : head ++ last = text := by
  fun_induction splitLast place depth text generalizing head last <;>
    grind [Option.map_eq_some_iff]

theorem lastCompound_join (selector : List Char) :
    (lastCompound selector).1 ++ (lastCompound selector).2 = selector := by
  rw [lastCompound]
  cases h : splitLast .code 0 selector with
  | none => rfl
  | some cut => exact splitLast_join h

theorem splitPseudo_join (place : Place) (depth : Nat) (compound : List Char) :
    (splitPseudo place depth compound).1 ++ (splitPseudo place depth compound).2 = compound := by
  fun_induction splitPseudo place depth compound <;> simp_all

theorem dropLead_suffix (isComment : Bool) (text : List Char) : dropLead isComment text <:+ text := by
  fun_induction dropLead isComment text <;> grind [List.IsSuffix.trans, List.suffix_cons]

/-- Trimming a reversed text takes a beginning off, unless a comment that was taken for closed turns
out never to open. -/
theorem dropTrail_suffix (kept : Option (List Char)) (text : List Char) :
    dropTrail kept text <:+ text ∨ kept = some (dropTrail kept text) := by
  fun_induction dropTrail kept text <;> grind [List.IsSuffix.trans, List.suffix_cons]

theorem trimEnd_isPrefix (text : List Char) : trimEnd text <+: text := by
  rcases dropTrail_suffix none text.reverse with hsuffix | hkept
  · rw [trimEnd, ← List.reverse_suffix, List.reverse_reverse]
    exact hsuffix
  · exact absurd hkept (by simp)

theorem text_selectorPlan (marker selector : List Char) :
    Plan.text (selectorPlan marker selector) = selector := by
  have hselector := lastCompound_join selector
  have hlast := splitPseudo_join .code 0 (lastCompound selector).2
  simp only [selectorPlan]
  split
  · rw [Plan.text_copied]
  · simp only [Plan.text_append, Plan.text_copied, Plan.text_none_cons, List.append_assoc, hlast,
      hselector]

theorem text_itemPlan (marker item : List Char) : Plan.text (itemPlan marker item) = item := by
  have hitem : item.take (item.length - (trimStart item).length) ++ trimStart item = item :=
    List.suffix_iff_eq_append.mp (dropLead_suffix false item)
  have hrest := List.prefix_iff_eq_append.mp (trimEnd_isPrefix (trimStart item))
  simp only [itemPlan]
  split
  · rw [Plan.text_copied]
  · simp only [Plan.text_append, Plan.text_copied, text_selectorPlan, List.append_assoc, hrest,
      hitem]

theorem text_listPlan (marker list : List Char) : Plan.text (listPlan marker list) = list := by
  have hitems : Plan.text ∘ itemPlan marker = id := funext (text_itemPlan marker)
  rw [listPlan, read_intercalate Plan.text_nil Plan.text_append, List.map_map, hitems, List.map_id]
  exact splitList_join list

theorem Segment.text_plan (marker : List Char) (blocks : List Block) (segment : Segment) :
    Plan.text (segment.plan marker blocks) = segment.text := by
  rw [Segment.plan]
  split
  · exact text_listPlan marker segment.text
  · rw [Plan.text_copied]

theorem text_segmentsPlan (marker : List Char) (blocks : List Block) (row : List Segment) :
    Plan.text (segmentsPlan marker blocks row) = row.flatMap Segment.join := by
  induction row generalizing blocks with
  | nil => rfl
  | cons segment row ih =>
    rw [segmentsPlan, Plan.text_append, Plan.text_some_cons, ih, segment.text_plan,
      List.flatMap_cons, Segment.join, List.append_assoc, List.singleton_append]

/-- Leaving the slots of a stylesheet's plan out gives the stylesheet. -/
theorem text_sheetPlan (marker css : List Char) : Plan.text (sheetPlan marker css) = css := by
  rw [sheetPlan, Plan.text_append, text_segmentsPlan, Plan.text_copied, segments_join]

/-! ### Items of scoped lists -/

theorem Block.ofHead_eq_rule_iff {head : List Char} :
    Block.ofHead head = .rule ↔ (trimStart head).head? ≠ some '@' := by
  simp only [Block.ofHead]
  split
  · next hat =>
    constructor
    · intro hrule
      split at hrule <;> exact absurd hrule (by decide)
    · exact fun hnot => absurd hat hnot
  · next hnot => exact iff_of_true rfl hnot

/-- An item of a list of selectors that is scoped: the list is the head of a style rule, all that
stands between the mark in front of it and its brace, and the innermost block that is open there is a
group rule, if one is open at all. -/
structure ScopedItem (css : List Char) where
  /-- the segments in front of the list -/
  front : List Segment
  list : List Char
  /-- the segments behind the list -/
  back : List Segment
  earlier : List (List Char)
  text : List Char
  later : List (List Char)
  segments_eq : (segments css).1 = front ++ ⟨list, .opening⟩ :: back
  isRule : (trimStart list).head? ≠ some '@'
  inside : scopesInside (openBlocks [] front) = true
  items_eq : splitList list = earlier ++ text :: later

namespace ScopedItem

variable {css : List Char} (item : ScopedItem css)

/-- What stands in front of the item. -/
def before : List Char :=
  item.front.flatMap Segment.join ++ item.earlier.flatMap (· ++ [','])

/-- What stands behind the item. -/
def after : List Char :=
  item.later.flatMap (',' :: ·) ++ '{' :: (item.back.flatMap Segment.join ++ (segments css).2)

/-- Does the item hold the place that so many bytes precede, its ends included? -/
def Holds (point : Nat) : Prop :=
  String.utf8Len item.before ≤ point ∧ point ≤ String.utf8Len (item.before ++ item.text)

instance (point : Nat) : Decidable (item.Holds point) :=
  inferInstanceAs (Decidable (_ ∧ _))

theorem isScoped : Segment.IsScoped (openBlocks [] item.front) ⟨item.list, .opening⟩ :=
  ⟨rfl, Block.ofHead_eq_rule_iff.mpr item.isRule, item.inside⟩

theorem list_eq : item.list
    = item.earlier.flatMap (· ++ [',']) ++ item.text ++ item.later.flatMap (',' :: ·) := by
  rw [← intercalate_around, ← item.items_eq, splitList_join]

theorem join : item.before ++ item.text ++ item.after = css := by
  have hcss := segments_join css
  rw [item.segments_eq, List.flatMap_append, List.flatMap_cons, Segment.join, item.list_eq] at hcss
  refine Eq.trans ?_ hcss
  simp [before, after, Mark.char]

end ScopedItem

/-! ### The slots of an item -/

/-- Behind a plan that ends in a character no slot stands at its end. -/
theorem Plan.lt_of_mem_pointsFrom {plan : Plan} {offset point : Nat}
    (hlast : plan.getLast? ≠ some none) (h : point ∈ pointsFrom offset plan) :
    point < offset + String.utf8Len (text plan) := by
  rcases List.eq_nil_or_concat plan with rfl | ⟨front, place, rfl⟩
  · exact absurd h List.not_mem_nil
  · cases place with
    | none => exact absurd (by simp) hlast
    | some c =>
      rw [List.concat_eq_append, pointsFrom_append, List.mem_append] at h
      rcases h with hfront | hnil
      · have := (bounds_of_mem_pointsFrom hfront).2
        have := c.utf8Size_pos
        rw [List.concat_eq_append, text_append, String.utf8Len_append, text_some_cons, text_nil,
          String.utf8Len_cons]
        omega
      · exact absurd hnil List.not_mem_nil

theorem Plan.getLast?_append_ne_none {first second : Plan} (hfirst : first.getLast? ≠ some none)
    (hsecond : second.getLast? ≠ some none) : (first ++ second).getLast? ≠ some none := by
  rw [List.getLast?_append]
  cases hlast : second.getLast? with
  | none => exact hfirst
  | some place => rwa [Option.some_or, ← hlast]

theorem getLast?_segmentsPlan (marker : List Char) (blocks : List Block) (row : List Segment) :
    (segmentsPlan marker blocks row).getLast? ≠ some none := by
  induction row generalizing blocks with
  | nil => simp [segmentsPlan]
  | cons segment row ih =>
    rw [segmentsPlan, ← List.singleton_append, ← List.append_assoc]
    exact Plan.getLast?_append_ne_none (by simp) (ih _)

theorem segmentsPlan_append (marker : List Char) (blocks : List Block)
    (first second : List Segment) :
    segmentsPlan marker blocks (first ++ second)
      = segmentsPlan marker blocks first
        ++ segmentsPlan marker (openBlocks blocks first) second := by
  induction first generalizing blocks with
  | nil => rfl
  | cons segment first ih =>
    rw [List.cons_append, segmentsPlan, segmentsPlan, ih, List.append_assoc]
    rfl

namespace ScopedItem

variable (marker : List Char) {css : List Char} (item : ScopedItem css)

/-- The plan of what stands in front of an item. -/
def planBefore : Plan :=
  segmentsPlan marker [] item.front
    ++ (item.earlier.map (itemPlan marker)).flatMap (· ++ [some ','])

/-- The plan of what stands behind an item. -/
def planAfter : Plan :=
  (item.later.map (itemPlan marker)).flatMap (some ',' :: ·)
    ++ some '{' :: (segmentsPlan marker (.rule :: openBlocks [] item.front) item.back
      ++ Plan.copied (segments css).2)

theorem sheetPlan_eq :
    sheetPlan marker css
      = item.planBefore marker ++ itemPlan marker item.text ++ item.planAfter marker := by
  have hlist : listPlan marker item.list
      = (item.earlier.map (itemPlan marker)).flatMap (· ++ [some ','])
        ++ itemPlan marker item.text ++ (item.later.map (itemPlan marker)).flatMap (some ',' :: ·) := by
    rw [listPlan, item.items_eq, List.map_append, List.map_cons, intercalate_around]
  have hhead : Block.ofHead item.list = .rule := Block.ofHead_eq_rule_iff.mpr item.isRule
  rw [sheetPlan, item.segments_eq, segmentsPlan_append, segmentsPlan, Segment.plan,
    if_pos item.isScoped, hlist, Segment.openBlocks]
  simp [planBefore, planAfter, hhead, Mark.char]

theorem text_planBefore : Plan.text (item.planBefore marker) = item.before := by
  rw [planBefore, before, Plan.text_append, text_segmentsPlan]
  congr 1
  induction item.earlier with
  | nil => rfl
  | cons first earlier ih => simp [text_itemPlan, ih]

theorem getLast?_planBefore : (item.planBefore marker).getLast? ≠ some none := by
  refine Plan.getLast?_append_ne_none (getLast?_segmentsPlan marker [] item.front) ?_
  induction item.earlier with
  | nil => simp
  | cons first earlier ih =>
    rw [List.map_cons, List.flatMap_cons]
    exact Plan.getLast?_append_ne_none (by simp) ih

theorem exists_planAfter : ∃ c plan, item.planAfter marker = some c :: plan := by
  rw [planAfter]
  cases item.later with
  | nil => exact ⟨_, _, rfl⟩
  | cons first later => exact ⟨_, _, rfl⟩

/-- The slots of a stylesheet that an item holds are those of the item's own plan. -/
theorem points_in_item :
    (Plan.points (sheetPlan marker css)).filter (fun point => decide (item.Holds point))
      = Plan.pointsFrom (String.utf8Len item.before) (itemPlan marker item.text) := by
  rw [Plan.points, item.sheetPlan_eq marker, Plan.pointsFrom_append, Plan.pointsFrom_append,
    item.text_planBefore, Plan.text_append, item.text_planBefore, text_itemPlan, Nat.zero_add,
    Nat.zero_add, List.filter_append, List.filter_append]
  have hbefore : (Plan.pointsFrom 0 (item.planBefore marker)).filter
      (fun point => decide (item.Holds point)) = [] := by
    rw [List.filter_eq_nil_iff]
    intro point hpoint hholds
    have hlt := Plan.lt_of_mem_pointsFrom (item.getLast?_planBefore marker) hpoint
    rw [item.text_planBefore] at hlt
    have := (of_decide_eq_true hholds).1
    omega
  have hafter : (Plan.pointsFrom (String.utf8Len (item.before ++ item.text))
      (item.planAfter marker)).filter (fun point => decide (item.Holds point)) = [] := by
    obtain ⟨c, plan, hplan⟩ := item.exists_planAfter marker
    rw [hplan, Plan.pointsFrom, List.filter_eq_nil_iff]
    intro point hpoint hholds
    have hle := (Plan.bounds_of_mem_pointsFrom hpoint).1
    have := (of_decide_eq_true hholds).2
    have := c.utf8Size_pos
    omega
  rw [hbefore, hafter, List.nil_append, List.append_nil, List.filter_eq_self]
  intro point hpoint
  have hbounds := Plan.bounds_of_mem_pointsFrom hpoint
  rw [text_itemPlan] at hbounds
  refine decide_eq_true ⟨hbounds.1, ?_⟩
  rw [String.utf8Len_append]
  exact hbounds.2

end ScopedItem

/-! ### Where the slots are -/

theorem length_pointsFrom_selectorPlan (marker selector : List Char) (offset : Nat) :
    (Plan.pointsFrom offset (selectorPlan marker selector)).length
      = if Text.occursIn marker (lastCompound selector).2 then 0 else 1 := by
  simp only [selectorPlan]
  split
  · rw [Plan.pointsFrom_copied]
    rfl
  · rw [Plan.pointsFrom_append, Plan.pointsFrom_copied, Plan.pointsFrom, Plan.pointsFrom_copied]
    rfl

theorem pointsFrom_itemPlan (marker item : List Char) (offset : Nat) :
    Plan.pointsFrom offset (itemPlan marker item)
      = if trimEnd (trimStart item) = [] then []
        else
          let lead := item.take (item.length - (trimStart item).length)
          Plan.pointsFrom (offset + String.utf8Len lead)
            (selectorPlan marker (trimEnd (trimStart item))) := by
  simp only [itemPlan, List.isEmpty_iff]
  split
  · rw [Plan.pointsFrom_copied]
  · rw [Plan.pointsFrom_append, Plan.pointsFrom_append, Plan.pointsFrom_copied,
      Plan.pointsFrom_copied, Plan.text_copied, List.nil_append, List.append_nil]

/-- An item has one slot at most. -/
theorem length_pointsFrom_itemPlan_le (marker item : List Char) (offset : Nat) :
    (Plan.pointsFrom offset (itemPlan marker item)).length ≤ 1 := by
  rw [pointsFrom_itemPlan]
  split
  · exact Nat.zero_le 1
  · rw [length_pointsFrom_selectorPlan]
    split <;> omega

/-- A slot of a list belongs to one of its items. -/
theorem exists_of_mem_items {marker : List Char} {items : List (List Char)} {offset point : Nat}
    (h : point ∈ Plan.pointsFrom offset ([some ','].intercalate (items.map (itemPlan marker)))) :
    ∃ earlier text later, items = earlier ++ text :: later ∧
      point ∈ Plan.pointsFrom (offset + String.utf8Len (earlier.flatMap (· ++ [','])))
        (itemPlan marker text) := by
  induction items generalizing offset with
  | nil => exact absurd h List.not_mem_nil
  | cons first items ih =>
    cases items with
    | nil => exact ⟨[], first, [], rfl, by simpa using h⟩
    | cons second items =>
      simp only [List.map_cons, List.intercalate_cons_cons, Plan.pointsFrom_append,
        List.mem_append] at h
      rcases h with (hfirst | hcomma) | hlater
      · exact ⟨[], first, second :: items, rfl, hfirst⟩
      · exact absurd hcomma List.not_mem_nil
      · obtain ⟨earlier, text, later, hitems, hpoint⟩ := ih hlater
        refine ⟨first :: earlier, text, later, by rw [hitems, List.cons_append], ?_⟩
        rw [Plan.text_append, text_itemPlan, Plan.text_some_cons, Plan.text_nil] at hpoint
        rwa [List.flatMap_cons, String.utf8Len_append, ← Nat.add_assoc]

/-- A slot of a row of segments belongs to an item of a list that is scoped. -/
theorem exists_of_mem_segmentsPlan {marker css : List Char} {front row : List Segment}
    (hrow : (segments css).1 = front ++ row) {point : Nat}
    (h : point ∈ Plan.pointsFrom (String.utf8Len (front.flatMap Segment.join))
      (segmentsPlan marker (openBlocks [] front) row)) :
    ∃ item : ScopedItem css,
      point ∈ Plan.pointsFrom (String.utf8Len item.before) (itemPlan marker item.text) := by
  induction row generalizing front with
  | nil => exact absurd h List.not_mem_nil
  | cons segment row ih =>
    rw [segmentsPlan, Plan.pointsFrom_append, List.mem_append, segment.text_plan] at h
    rcases h with hsegment | hlater
    · rw [Segment.plan] at hsegment
      split at hsegment
      · next hscoped =>
        obtain ⟨text, mark⟩ := segment
        obtain ⟨rfl, hrule, hinside⟩ := hscoped
        obtain ⟨earlier, item, later, hitems, hpoint⟩ := exists_of_mem_items hsegment
        refine ⟨⟨front, text, row, earlier, item, later, hrow, Block.ofHead_eq_rule_iff.mp hrule,
          hinside, hitems⟩, ?_⟩
        rwa [ScopedItem.before, String.utf8Len_append]
      · rw [Plan.pointsFrom_copied] at hsegment
        exact absurd hsegment List.not_mem_nil
    · have hfront : (segments css).1 = front ++ [segment] ++ row := by
        rw [hrow, List.append_assoc, List.singleton_append]
      rw [Plan.pointsFrom] at hlater
      have hblocks : openBlocks [] (front ++ [segment])
          = segment.openBlocks (openBlocks [] front) := by
        rw [openBlocks, List.foldl_append]
        rfl
      have hlength : String.utf8Len ((front ++ [segment]).flatMap Segment.join)
          = String.utf8Len (front.flatMap Segment.join) + String.utf8Len segment.text
            + segment.mark.char.utf8Size := by
        simp [Segment.join, Nat.add_assoc]
      refine ih hfront ?_
      rwa [hblocks, hlength]

/-- A slot of a stylesheet stands in an item of a list that is scoped, between two characters. -/
theorem exists_of_mem_points {marker css : List Char} {point : Nat}
    (h : point ∈ Plan.points (sheetPlan marker css)) :
    ∃ item : ScopedItem css, ∃ front back, item.text = front ++ back ∧
      point = String.utf8Len (item.before ++ front) := by
  rw [Plan.points, sheetPlan, Plan.pointsFrom_append, Plan.pointsFrom_copied, List.append_nil] at h
  have hrow : (segments css).1 = [] ++ (segments css).1 := rfl
  obtain ⟨item, hpoint⟩ := exists_of_mem_segmentsPlan hrow h
  obtain ⟨front, back, htext, rfl⟩ := Plan.exists_of_mem_pointsFrom hpoint
  rw [text_itemPlan] at htext
  exact ⟨item, front, back, htext, (String.utf8Len_append _ _).symm⟩

end SiteTree.Stylesheet
