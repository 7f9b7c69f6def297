import SiteTree.Proofs.Path.Parents

/-!
# What encloses a path

A path that ends in a name has a parent, which is spelled by the first part of its text and lacks the
name, and the dots before it. That holds of relative paths as well, whose parent can be empty.

* `Path.exists_parent?` — the parent of a path that ends in a name.
-/

namespace SiteTree.Path

/-! ### Texts and segments -/

/-- What stands between slashes is put together to the text again. -/
theorem intercalate_stretches (text : List Char) :
    "/".intercalate ((stretches text).map String.ofList) = String.ofList text := by
  induction text with
  | nil => rfl
  | cons c text ih =>
    rw [stretches_cons]
    split
    · next hc =>
      rw [List.map_cons, String.intercalate_cons_of_ne_nil (by simp [stretches]), ih, hc]
      exact String.toList_injective (by simp)
    · have hfirst : String.ofList (c :: (splitSlashes text).1)
          = String.ofList [c] ++ String.ofList (splitSlashes text).1 :=
        String.toList_injective (by simp)
      rw [List.map_cons, hfirst, String.intercalate_cons_append, ← List.map_cons]
      change String.ofList [c] ++ "/".intercalate ((stretches text).map String.ofList) = _
      rw [ih]
      exact String.toList_injective (by simp)

theorem text_eq (path : Path) : path.text = (ofSegments path.isAbsolute path.segments).text := by
  rw [segments_eq, ofSegments, intercalate_stretches]
  cases habs : path.isAbsolute with
  | false => exact String.toList_injective (by simp)
  | true =>
    obtain ⟨rest, hrest⟩ : ∃ rest, path.text.toList = '/' :: rest := by
      cases htext : path.text.toList with
      | nil => simp [isAbsolute, htext] at habs
      | cons c rest => exact ⟨rest, by simpa [isAbsolute, htext] using habs⟩
    exact String.toList_injective (by simp [hrest])

/-- Fewer segments spell the first part of a text. -/
theorem exists_text_append (absolute : Bool) (kept more : List String) :
    ∃ rest, (ofSegments absolute (kept ++ more)).text = (ofSegments absolute kept).text ++ rest := by
  rcases List.eq_nil_or_concat kept with rfl | ⟨_, _, rfl⟩
  · exact ⟨"/".intercalate more, by simp [ofSegments]⟩
  · rcases more with _ | ⟨first, more⟩
    · exact ⟨"", by simp [ofSegments]⟩
    · refine ⟨"/" ++ "/".intercalate (first :: more), ?_⟩
      simp only [ofSegments]
      rw [String.intercalate_append_of_ne_nil (by simp) (by simp)]
      simp [String.append_assoc]

/-! ### Parents -/

theorem exists_append_dropIdle (absolute : Bool) (segments : List String) :
    ∃ dropped, segments = dropped ++ dropIdle absolute segments ∧
      ∀ s ∈ dropped, isIdle s = true := by
  fun_induction dropIdle absolute segments with
  | case1 => exact ⟨[], rfl, List.forall_mem_nil _⟩
  | case2 first hidle =>
    refine ⟨[first], rfl, fun s hs => ?_⟩
    rw [List.mem_singleton.mp hs]
    rcases hidle with rfl | ⟨-, rfl⟩
    · rfl
    · rfl
  | case3 first hbusy => exact ⟨[], rfl, List.forall_mem_nil _⟩
  | case4 segment rest _ hidle ih =>
    obtain ⟨dropped, hrest, hdropped⟩ := ih
    refine ⟨segment :: dropped, congrArg (segment :: ·) hrest, fun s hs => ?_⟩
    rcases List.mem_cons.mp hs with rfl | hs
    · exact hidle
    · exact hdropped s hs
  | case5 segment rest _ hbusy => exact ⟨[], rfl, List.forall_mem_nil _⟩

/-- In front of what is dropped there is a segment that counts. -/
theorem isIdle_head?_dropIdle {absolute : Bool} {segments rest : List String} {last : String}
    (h : dropIdle absolute segments = last :: rest) :
    isIdle last = false ∨ rest = [] ∧ absolute = false ∧ last = "." := by
  fun_induction dropIdle absolute segments with
  | case1 => cases h
  | case2 first hidle => cases h
  | case3 first hbusy =>
    obtain ⟨rfl, rfl⟩ := List.cons.inj h
    simp only [not_or, not_and] at hbusy
    by_cases hhere : first = "."
    · exact .inr ⟨rfl, by simpa using fun habs => hbusy.2 habs hhere, hhere⟩
    · exact .inl (by simp [isIdle, hbusy.1, hhere])
  | case4 _ _ _ _ ih => exact ih h
  | case5 _ _ _ hbusy =>
    cases h
    exact .inl (by simpa using hbusy)

theorem eq_dot_of_mem_filter {segments : List String} (h : ∀ s ∈ segments, isIdle s = true) :
    ∀ s ∈ segments.filter (fun s => s != ""), s = "." := by
  intro s hs
  obtain ⟨hmem, hne⟩ := List.mem_filter.mp hs
  simpa [isIdle, bne_iff_ne.mp hne] using h s hmem

/-- The path around one that ends in a name: it lacks the name, and dots before it. -/
structure Encloses (parent path : Path) (front : List String) : Prop where
  isAbsolute : parent.isAbsolute = path.isAbsolute
  names : ∃ dots, front = parent.names ++ dots ∧ ∀ dot ∈ dots, dot = "."
  last : parent.names.getLast? = some "." → parent.names = ["."]
  text : ∃ rest, path.text = parent.text ++ rest

/-- The last segment that counts is the last name. -/
theorem exists_segments_of_names {path : Path} {front : List String} {last : String}
    (hnames : path.names = front ++ [last]) (hlast : isIdle last = false) :
    ∃ rest more, dropIdle path.isAbsolute path.segments.reverse = last :: rest ∧
      path.segments = rest.reverse ++ last :: more ∧
      front = rest.reverse.filter fun s => s != "" := by
  obtain ⟨dropped, hreverse, hdropped⟩ := exists_append_dropIdle path.isAbsolute path.segments.reverse
  have hidle : ∀ s ∈ dropped.reverse, isIdle s = true := fun s hs => hdropped s (List.mem_reverse.mp hs)
  have hsegments : path.segments
      = (dropIdle path.isAbsolute path.segments.reverse).reverse ++ dropped.reverse := by
    rw [← List.reverse_append, ← hreverse, List.reverse_reverse]
  generalize hkept : dropIdle path.isAbsolute path.segments.reverse = kept at hsegments
  have hnone : (dropped.reverse.filter fun s => s != "") = [] := by
    rcases List.eq_nil_or_concat' (dropped.reverse.filter fun s => s != "") with hnil | ⟨dots, dot, hdots⟩
    · exact hnil
    · have hdot : dot = "." := eq_dot_of_mem_filter hidle dot (by rw [hdots]; simp)
      rw [names, hsegments, List.filter_append, hdots, ← List.append_assoc] at hnames
      obtain rfl : dot = last := by simpa using (List.append_inj' hnames rfl).2
      rw [hdot] at hlast
      cases hlast
  rw [names, hsegments, List.filter_append, hnone, List.append_nil] at hnames
  cases kept with
  | nil => simp at hnames
  | cons first rest =>
    rw [List.reverse_cons, List.filter_append] at hnames
    rcases isIdle_head?_dropIdle hkept with hfirst | ⟨rfl, -, rfl⟩
    · have hsome : first ≠ "" := by
        rintro rfl
        cases hfirst
      rw [List.filter_cons_of_pos (by simp [hsome]), List.filter_nil] at hnames
      obtain ⟨hfront, hsame⟩ := List.append_inj' hnames rfl
      obtain rfl : first = last := by simpa using hsame
      refine ⟨rest, dropped.reverse, rfl, ?_, hfront.symm⟩
      rw [hsegments, List.reverse_cons, List.append_assoc]
      rfl
    · obtain rfl : "." = last := by simpa using (List.append_inj' hnames rfl).2
      cases hlast

/-- A path that ends in a name has a parent. -/
theorem exists_parent? {path : Path} {front : List String} {last : String}
    (hnames : path.names = front ++ [last]) (hlast : isIdle last = false) :
    ∃ parent, path.parent? = some parent ∧ parent.Encloses path front := by
  obtain ⟨rest, more, hkept, hsegments, rfl⟩ := exists_segments_of_names hnames hlast
  obtain ⟨dropped, hrest, hdropped⟩ := exists_append_dropIdle path.isAbsolute rest
  generalize hreverse : (dropIdle path.isAbsolute rest).reverse = kept
  have hparent : path.parent? = some (ofSegments path.isAbsolute kept) := by
    rw [parent?, hkept, ← hreverse]
  have hback : rest.reverse = kept ++ dropped.reverse := by
    rw [← hreverse, ← List.reverse_append, ← hrest]
  rw [hback, List.append_assoc] at hsegments
  have hslash : ∀ s ∈ kept, '/' ∉ s.toList := fun s hs =>
    notMem_of_mem_segments (by rw [hsegments]; exact List.mem_append_left _ hs)
  have hspelled : (ofSegments path.isAbsolute kept).isAbsolute = path.isAbsolute ∧
      (ofSegments path.isAbsolute kept).names = kept.filter fun s => s != "" := by
    cases habs : path.isAbsolute with
    | true => exact ⟨isAbsolute_ofSegments_true kept, names_ofSegments_true hslash⟩
    | false =>
      have hfirst : kept.head? ≠ some "" := by
        intro hhead
        obtain ⟨others, rfl⟩ := List.head?_eq_some_iff.mp hhead
        obtain ⟨first, behind, hcons, hempty⟩ := exists_cons_segments path habs
        rw [hsegments, List.cons_append] at hcons
        obtain ⟨rfl, hbehind⟩ := List.cons.inj hcons
        rw [hempty rfl] at hbehind
        simp at hbehind
      obtain ⟨hrelative, hsame⟩ := segments_ofSegments_false hslash hfirst
      refine ⟨hrelative, ?_⟩
      rw [names, hsame]
      split
      · next hnone => rw [hnone]; rfl
      · rfl
  refine ⟨_, hparent, hspelled.1, ⟨dropped.reverse.filter fun s => s != "", ?_, ?_⟩, ?_, ?_⟩
  · rw [hspelled.2, ← List.filter_append, hback]
  · exact eq_dot_of_mem_filter fun s hs => hdropped s (List.mem_reverse.mp hs)
  · intro hdot
    rw [hspelled.2] at hdot ⊢
    cases hcount : dropIdle path.isAbsolute rest with
    | nil =>
      rw [hcount] at hreverse
      rw [← hreverse] at hdot
      cases hdot
    | cons first others =>
      rw [hcount, List.reverse_cons] at hreverse
      rcases isIdle_head?_dropIdle hcount with hfirst | ⟨rfl, -, rfl⟩
      · have hsome : first ≠ "" := by
          rintro rfl
          cases hfirst
        rw [← hreverse, List.filter_append, List.filter_cons_of_pos (by simp [hsome]),
          List.filter_nil, List.getLast?_concat] at hdot
        rw [Option.some.inj hdot] at hfirst
        cases hfirst
      · rw [← hreverse]
        rfl
  · rw [path.text_eq, hsegments]
    exact exists_text_append _ kept _

end SiteTree.Path
