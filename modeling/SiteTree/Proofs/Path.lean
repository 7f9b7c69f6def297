import SiteTree.Path

/-!
# Joining paths

The segments of a joined path are those of its two parts, empty ones apart.

* `Path.components_join` — joining a name to a path adds one component to it.
-/

namespace SiteTree.Path

/-! ### Segments of a text -/

/-- What stands between the slashes of a text. -/
def stretches (text : List Char) : List (List Char) :=
  (splitSlashes text).1 :: (splitSlashes text).2

theorem stretches_cons (c : Char) (text : List Char) :
    stretches (c :: text)
      = if c = '/' then [] :: stretches text
        else (c :: (splitSlashes text).1) :: (splitSlashes text).2 := by
  simp only [stretches, splitSlashes]
  split
  · rfl
  · rfl

theorem stretches_append (first second : List Char) :
    stretches (first ++ '/' :: second) = stretches first ++ stretches second := by
  induction first with
  | nil => rw [List.nil_append, stretches_cons, if_pos rfl]; rfl
  | cons c first ih =>
    rw [List.cons_append, stretches_cons, stretches_cons]
    split
    · rw [ih]
      rfl
    · have hfirst := List.cons.inj ih
      rw [hfirst.1, hfirst.2]
      rfl

theorem segments_eq (path : Path) :
    path.segments = (stretches (if path.isAbsolute then path.text.toList.tail
      else path.text.toList)).map String.ofList :=
  rfl

theorem segments_ne_nil (path : Path) : path.segments ≠ [] := by
  simp [segments_eq, stretches]

/-! ### Joined paths -/

/-- The joined path has the segments of the base, an empty one at its end apart, and then those
of the path that is joined to it. -/
structure Joined (base path joined : Path) : Prop where
  isAbsolute : joined.isAbsolute = base.isAbsolute
  segments : ∃ front, joined.segments = front ++ path.segments ∧
    (base.segments = front ∨ base.segments = front ++ [""]) ∧
    (base.isAbsolute = false → front ≠ [])

/-- Behind a stem that is not empty, a slash begins a new stretch. -/
theorem joined_of_stem {base path joined : Path} (hpath : path.isAbsolute = false) {c : Char}
    {stem : List Char}
    (hbase : base.text.toList = c :: stem ∨ base.text.toList = c :: stem ++ ['/'])
    (hjoined : joined.text.toList = c :: stem ++ '/' :: path.text.toList) :
    Joined base path joined := by
  have habs : joined.isAbsolute = (c == '/') ∧ base.isAbsolute = (c == '/') := by
    rcases hbase with hbase | hbase <;> simp [isAbsolute, hbase, hjoined]
  refine ⟨habs.1.trans habs.2.symm, ?_⟩
  refine ⟨(stretches (if c = '/' then stem else c :: stem)).map String.ofList, ?_, ?_, ?_⟩
  · rw [segments_eq, segments_eq, habs.1, hpath, hjoined, ← List.map_append]
    by_cases hc : c = '/'
    · subst hc
      exact congrArg _ (stretches_append stem path.text.toList)
    · rw [if_neg hc, beq_false_of_ne hc]
      exact congrArg _ (stretches_append (c :: stem) path.text.toList)
  · rcases hbase with hbase | hbase
    · left
      rw [segments_eq, habs.2, hbase]
      by_cases hc : c = '/' <;> simp [hc]
    · right
      have hlast : [""] = (stretches []).map String.ofList := rfl
      rw [segments_eq, habs.2, hbase, hlast, ← List.map_append]
      by_cases hc : c = '/'
      · subst hc
        exact congrArg _ (stretches_append stem [])
      · rw [if_neg hc, beq_false_of_ne hc]
        exact congrArg _ (stretches_append (c :: stem) [])
  · simp [stretches]

theorem joined_join {base path : Path} (hpath : path.isAbsolute = false) (hbase : base.text ≠ "") :
    Joined base path (base.join path) := by
  have hempty : base.text.isEmpty = false := by simpa using hbase
  rw [join, if_neg (by simp [hpath]), if_neg (by simp [hempty])]
  have hlist : base.text.toList ≠ [] := by simpa using hbase
  split
  · next hlast =>
    obtain ⟨stem, htext⟩ : ∃ stem, base.text.toList = stem ++ ['/'] :=
      List.getLast?_eq_some_iff.mp hlast
    cases stem with
    | nil =>
      -- The base is the root, whose only stretch is empty.
      have habs : base.isAbsolute = true := by simp [isAbsolute, htext]
      have hjoined : (Path.mk (base.text ++ path.text)).isAbsolute = true := by
        simp [isAbsolute, htext]
      refine ⟨hjoined.trans habs.symm, [], ?_, .inr ?_, by simp [habs]⟩
      · rw [segments_eq, segments_eq, hjoined, hpath]
        simp [htext]
      · rw [segments_eq, habs, htext]
        rfl
    | cons c stem => exact joined_of_stem hpath (.inr htext) (by simp [htext])
  · obtain ⟨c, stem, htext⟩ := List.exists_cons_of_ne_nil hlist
    exact joined_of_stem hpath (.inl htext) (by simp [htext])

/-! ### Names -/

/-- The path is one ordinary name, with idle segments behind it at most. -/
structure IsName (path : Path) (name : String) : Prop where
  isAbsolute : path.isAbsolute = false
  idle : ∃ idle, path.segments = name :: idle ∧ ∀ segment ∈ idle, isIdle segment = true
  busy : isIdle name = false
  ne_up : name ≠ ".."

theorem exists_cons_segments (path : Path) (hpath : path.isAbsolute = false) :
    ∃ first rest, path.segments = first :: rest ∧ (first = "" → rest = []) := by
  refine ⟨_, _, rfl, ?_⟩
  rw [hpath]
  intro hfirst
  cases htext : path.text.toList with
  | nil => rfl
  | cons c text =>
    have hc : c ≠ '/' := by
      rintro rfl
      simp [isAbsolute, htext] at hpath
    simp [htext, splitSlashes, hc] at hfirst

theorem isName_of_components {path : Path} {name : String}
    (h : path.components = [.name name]) : IsName path name := by
  have habs : path.isAbsolute = false := by
    rw [Bool.eq_false_iff]
    intro habs
    simp [components, habs] at h
  obtain ⟨first, rest, hsegments, hfirst⟩ := path.exists_cons_segments habs
  have hhere : first ≠ "." := by
    rintro rfl
    simp [components, habs, hsegments] at h
  have hbusy : isIdle first = false := by
    rw [Bool.eq_false_iff]
    intro hidle
    obtain rfl : first = "" := by simpa [isIdle, hhere] using hidle
    obtain rfl := hfirst rfl
    simp [components, habs, hsegments, isIdle] at h
  have hnamed : Component.ofSegment first = .name name
      ∧ ∀ segment ∈ rest, isIdle segment = true := by
    simpa [components, habs, hsegments, hhere, hbusy] using h
  have hup : first ≠ ".." := by
    rintro rfl
    cases hnamed.1
  obtain rfl : first = name := by simpa [Component.ofSegment, hup] using hnamed.1
  exact ⟨habs, ⟨rest, hsegments, hnamed.2⟩, hbusy, hup⟩

theorem IsName.filter_segments {path : Path} {name : String} (h : IsName path name) :
    (path.segments.filter fun s => !isIdle s) = [name] := by
  obtain ⟨idle, hsegments, hidle⟩ := h.idle
  rw [hsegments, List.filter_cons_of_pos (by simp [h.busy]),
    List.filter_eq_nil_iff.mpr (by simpa using hidle)]

theorem IsName.components {path : Path} {name : String} (h : IsName path name) :
    path.components = [.name name] := by
  have hhere : path.segments.head? ≠ some "." := by
    obtain ⟨idle, hsegments, -⟩ := h.idle
    have hbusy := h.busy
    simp only [isIdle, Bool.or_eq_false_iff, beq_eq_false_iff_ne] at hbusy
    simp [hsegments, hbusy.2]
  simp [Path.components, h.isAbsolute, h.filter_segments, hhere, Component.ofSegment, h.ne_up]

theorem components_of_empty {path : Path} (h : path.text = "") : path.components = [] := by
  obtain ⟨text⟩ := path
  subst h
  decide

/-- A name that is joined to a path adds one component to it. -/
theorem components_join {base path : Path} {name : String} (hname : IsName path name) :
    (base.join path).components = base.components ++ [.name name] := by
  have hadded : (path.segments.filter fun s => !isIdle s).map Component.ofSegment
      = [.name name] := by
    simp [hname.filter_segments, Component.ofSegment, hname.ne_up]
  by_cases hbase : base.text = ""
  · have hjoin : base.join path = path := by simp [join, hname.isAbsolute, hbase]
    rw [hjoin, components_of_empty hbase, hname.components]
    rfl
  · obtain ⟨habs, front, hfront, hends, hne⟩ := joined_join hname.isAbsolute hbase
    have hnamed : (base.segments.filter fun s => !isIdle s) = front.filter fun s => !isIdle s := by
      rcases hends with hends | hends
      · rw [hends]
      · simp [hends, isIdle]
    have hhead : base.isAbsolute = false →
        (base.join path).segments.head? = base.segments.head? := by
      intro hrelative
      obtain ⟨first, rest, rfl⟩ := List.exists_cons_of_ne_nil (hne hrelative)
      rcases hends with hends | hends <;> simp [hfront, hends]
    simp only [components, habs, hfront, List.filter_append, List.map_append, hadded, hnamed]
    cases hrelative : base.isAbsolute with
    | true => simp
    | false =>
      rw [← hfront, hhead hrelative]
      simp only [Bool.false_eq_true, if_false]
      split
      · rfl
      · rfl

end SiteTree.Path
