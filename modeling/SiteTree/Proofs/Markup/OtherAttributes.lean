import SiteTree.Proofs.Markup.Carrying
import Mathlib.Data.List.Forall2

/-!
# Attributes that are not the class

Giving a tag a class is not to change any other attribute of it. Two kinds of tags are not settled when
they are given one. A slash at the end of a tag is taken for what closes it, even where it belongs to a
value without quotes, and a new attribute comes in front of it. And an attribute with an equals sign and
no value gets one from what is put behind it.

* `OpenTag.others_addClass` — the other attributes of a settled tag are those it had.
* `injectClass_others` — a document with a class is the document but for its tags, and these keep their
  other attributes.
-/

namespace SiteTree.Markup

/-- The name and the value of an attribute that is not named `class`. -/
def AttrItem.other? : AttrItem → Option (List Char × Option AttrValue)
  | attr name value => if isClassName name then none else some (name, value)
  | other _ => none

/-- Is it an attribute other than `class` that has a value without quotes? -/
def AttrItem.isOpen : AttrItem → Bool
  | attr name (some value) => value.quote.isNone && !isClassName name
  | _ => false

theorem AttrItem.other?_attr_class {name : List Char} (h : isClassName name = true)
    (value : Option AttrValue) : (AttrItem.attr name value).other? = none := by
  rw [other?, if_pos h]

theorem filterMap_other?_others (chars : List Char) :
    (chars.map AttrItem.other).filterMap AttrItem.other? = [] := by
  rw [List.filterMap_map]
  exact List.filterMap_eq_nil_iff.mpr fun _ _ => rfl

/-- A class has no part in the other attributes. -/
theorem filterMap_other?_class {name : List Char} (h : isClassName name = true)
    (value : Option AttrValue) (front back : List AttrItem) :
    (front ++ .attr name value :: back).filterMap AttrItem.other?
      = front.filterMap AttrItem.other? ++ back.filterMap AttrItem.other? := by
  rw [List.filterMap_append, List.filterMap_cons_none (AttrItem.other?_attr_class h value)]

/-- What closes a tag adds to no attribute but a class, if its slash does not belong to another one. -/
theorem filterMap_other?_attrsFront {attrs : List Char}
    (hdangles : dangles (attrItems (attrsFront attrs)) = false)
    (hslash : (attrsBack attrs).head? = some '/' →
      ∀ item ∈ (attrItems (attrsFront attrs)).getLast?, item.isOpen = false) :
    (attrItems attrs).filterMap AttrItem.other?
      = (attrItems (attrsFront attrs)).filterMap AttrItem.other? := by
  have hitems := flatMap_attrItems (attrsFront attrs)
  have hback := attrItems_append_back (isBlank_of_mem_attrsBack attrs)
    (congrArg attrItems hitems) hdangles
  rw [hitems, attrsFront_append_attrsBack] at hback
  rcases hback with hback | ⟨before, name, value, longer, hfront, hquote, hhead, hback⟩
  · rw [hback, List.filterMap_append, filterMap_other?_others, List.append_nil]
  · -- The value that goes on with the slash is that of a class.
    have hopen := hslash hhead (.attr name (some value)) (by rw [hfront]; simp)
    have hname : isClassName name = true := by simpa [AttrItem.isOpen, hquote] using hopen
    rw [hback, hfront, filterMap_other?_class hname, filterMap_other?_class hname,
      filterMap_other?_others]
    rfl

namespace OpenTag

/-- The attributes of a tag that are not named `class`, in order. -/
def others (tag : OpenTag) : List (List Char × Option AttrValue) :=
  (attrItems tag.attrs).filterMap AttrItem.other?

/-- A tag whose attributes are complete where it is given a class: none gets a value from what is put
behind it, and the slash that closes the tag does not belong to a value. -/
structure Settled (tag : OpenTag) : Prop where
  closed : dangles tag.itemsBefore = false ∨ ∃ value ∈ tag.class?.join, value.quote.isSome = true
  slash : tag.class?.join = none → (attrsBack tag.attrs).head? = some '/' →
    ∀ item ∈ (attrItems (attrsFront tag.attrs)).getLast?, item.isOpen = false

section AddClass

variable {cls : List Char} {tag : OpenTag} (hcls : ∀ c ∈ cls, c ∉ ['>', '"', '\''])

include hcls

/-- A settled tag keeps its other attributes when it is given a class. -/
theorem others_addClass (h : tag.Settled) : (tag.addClass cls).others = tag.others := by
  rcases tag.addClass_cases cls with
    ⟨front, name, value, back, hitems, hname, hfront, hclass, hattrs⟩ | ⟨hclass, hattrs⟩
  · have hclosed : dangles front = false ∨ value.quote.isSome = true := by
      rw [← itemsBefore_of_split hitems hname hfront]
      refine h.closed.imp_right ?_
      rintro ⟨found, hfound, hquote⟩
      rw [hclass] at hfound
      obtain rfl : value = found := Option.some.inj hfound
      exact hquote
    rw [others, others, hattrs, attrItems_addClass hcls hitems hclosed, hitems,
      filterMap_other?_class hname, filterMap_other?_class hname]
  · have hnone := class?_join_eq_none hclass
    have hdangles : dangles (attrItems (attrsFront tag.attrs)) = false := by
      rw [← itemsBefore_of_ne hclass]
      refine h.closed.resolve_right ?_
      rintro ⟨value, hvalue, -⟩
      rw [hnone] at hvalue
      cases hvalue
    have hclassName : isClassName "class".toList = true := rfl
    rw [others, others, hattrs, attrItems_appendAttribute hcls hdangles,
      filterMap_other?_attrsFront hdangles (h.slash hnone), List.filterMap_append,
      List.filterMap_cons_none rfl, ← List.filterMap_append, filterMap_other?_class hclassName,
      filterMap_other?_others, List.append_nil]

end AddClass

instance (tag : OpenTag) : Decidable tag.Settled :=
  decidable_of_iff
    ((dangles tag.itemsBefore = false ∨ ∃ value ∈ tag.class?.join, value.quote.isSome = true) ∧
      (tag.class?.join = none → (attrsBack tag.attrs).head? = some '/' →
        ∀ item ∈ (attrItems (attrsFront tag.attrs)).getLast?, item.isOpen = false))
    ⟨fun ⟨closed, slash⟩ => ⟨closed, slash⟩, fun ⟨closed, slash⟩ => ⟨closed, slash⟩⟩

end OpenTag

/-! ### Documents -/

/-- A piece of a document and what it becomes. Only a tag changes; it is read as one tag of its name
again, and if it was settled, with the same other attributes. -/
inductive Piece.Becomes : Piece → Piece → Prop
  | char (c : Char) : Becomes (char c) (char c)
  | raw (text : List Char) : Becomes (raw text) (raw text)
  | opening {old new : OpenTag} : new.name = old.name → new.IsRead →
      (old.Settled → new.others = old.others) → Becomes (opening old) (opening new)

/-- A document with a class on its tags is the document but for the tags, of which the settled ones keep
their other attributes. -/
theorem injectClass_others {cls : String} (hcls : ∀ c ∈ cls.toList, c ∉ ['>', '"', '\''])
    (html : String) :
    (pieces html.toList).flatMap Piece.join = html.toList ∧
      ∃ new, List.Forall₂ Piece.Becomes (pieces html.toList) new ∧
        (injectClass html cls).toList = new.flatMap Piece.join := by
  refine ⟨flatMap_pieces _, (pieces html.toList).map (Piece.addClass cls.toList), ?_, ?_⟩
  · rw [List.forall₂_map_right_iff, List.forall₂_same]
    intro piece hpiece
    cases piece with
    | char c => exact .char c
    | raw text => exact .raw text
    | opening tag =>
      have hread := OpenTag.isRead_of_mem_openTags (mem_openTags.mpr hpiece)
      exact .opening rfl (hread.addClass hcls) (tag.others_addClass hcls)
  · rw [injectClass, String.toList_ofList, injectText, List.flatMap_map]

/-- A picture and a link: values with a `>` and with a slash at their end, in quotes. -/
def gallery : String :=
  "<img alt='a > b' src=a.png /><a href=\"/docs/\" CLASS=b hidden>x</a>"

theorem gallery_others :
    (∀ c ∈ "-q1".toList, c ∉ ['>', '"', '\'']) ∧
      (∀ tag ∈ openTags gallery.toList, tag.Settled) ∧
      (pieces gallery.toList).flatMap Piece.join = gallery.toList ∧
      ∃ new, List.Forall₂ Piece.Becomes (pieces gallery.toList) new ∧
        (injectClass gallery "-q1").toList = new.flatMap Piece.join := by
  have hcls : ∀ c ∈ "-q1".toList, c ∉ ['>', '"', '\''] := by simp
  have hsettled : ∀ tag ∈ openTags gallery.toList, tag.Settled := by decide +kernel
  have hothers := injectClass_others hcls gallery
  exact ⟨hcls, hsettled, hothers⟩

/-- The slash of a value is not left with it. -/
theorem exists_other_changed :
    ¬ ∀ html cls : String, (∀ c ∈ cls.toList, c ∉ ['>', '"', '\'']) →
      ∀ tag ∈ openTags html.toList, (tag.addClass cls.toList).others = tag.others := by
  intro h
  have hsame := h "<a href=/docs/>x</a>" "-q1" (by simp)
  have hchanged : ¬ ∀ tag ∈ openTags "<a href=/docs/>x</a>".toList,
      (tag.addClass "-q1".toList).others = tag.others := by
    decide +kernel
  exact hchanged hsame

/-! An attribute without a value gets one from the new attribute, whose value is then read as a name. -/

example : (openTags "<a href=/>x</a>".toList).map
      (fun tag => (tag.addClass "-q1".toList).others.map Prod.fst)
    = [["href".toList, "-q1".toList]] := by
  decide +kernel

end SiteTree.Markup
