import SiteTree.Proofs.Page.BundleWrites
import SiteTree.Proofs.Page.Visits
import SiteTree.Proofs.Text.Search

/-!
# Pages with their links

After compiling, a page is changed at two stages: it is linked to its style bundle and then to its
script bundle.

* `BundleKind.turns_of_bundlePages` — a stage makes the bundle of each page once, in order, and
  changes each page by the link to its own bundle only.
* `BundleKind.Turns.of_unchanging` — bundles that do not depend on when they are made.
* `Layout.pages_amended` — what the pages of a site are after both stages.
-/

namespace SiteTree

open PageTree (Trail Numbered)

/-! ### Links in markup -/

namespace Text

/-- What is found first has no other find before it. -/
theorem length_le_of_splitFirst? {needle : List Char} : ∀ {text before after earlier later :
    List Char}, splitFirst? needle text = some (before, after) →
    earlier ++ needle ++ later = text → before.length ≤ earlier.length
  | [], before, after, earlier, later, h, hother => by
    have hempty := append_of_splitFirst? h
    rw [List.append_eq_nil_iff, List.append_eq_nil_iff] at hempty
    rw [hempty.1.1]
    exact Nat.zero_le _
  | c :: text, before, after, earlier, later, h, hother => by
    rw [splitFirst?] at h
    split at h
    · cases h
      exact Nat.zero_le _
    · next hnone =>
      obtain ⟨⟨first, rest⟩, hfirst, heq⟩ := Option.map_eq_some_iff.mp h
      cases heq
      cases earlier with
      | nil =>
        rw [List.nil_append] at hother
        rw [after?_eq_some_iff.mpr hother] at hnone
        cases hnone
      | cons d earlier =>
        cases hother
        exact Nat.succ_le_succ (length_le_of_splitFirst? hfirst rfl)

end Text

namespace Markup

/-- The tag stands in the result right before the first anchor of the text. -/
def PutBeforeFirst (anchor tag text result : List Char) : Prop :=
  ∃ before after, text = before ++ anchor ++ after ∧ result = before ++ tag ++ anchor ++ after ∧
    ∀ earlier later, earlier ++ anchor ++ later = text → before.length ≤ earlier.length

theorem putBeforeFirst_of_spliceBefore? {html anchor tag result : String}
    (h : spliceBefore? html anchor tag = some result) :
    PutBeforeFirst anchor.toList tag.toList html.toList result.toList := by
  obtain ⟨⟨before, after⟩, hsplit, rfl⟩ := Option.map_eq_some_iff.mp h
  refine ⟨before, after, (Text.append_of_splitFirst? hsplit).symm, String.toList_ofList, ?_⟩
  intro earlier later hother
  exact Text.length_le_of_splitFirst? hsplit hother

theorem spliceBefore?_eq_none_iff {html anchor tag : String} :
    spliceBefore? html anchor tag = none ↔ ¬ anchor.toList <:+: html.toList := by
  rw [← Text.occursIn_iff, Text.occursIn, spliceBefore?, Option.map_eq_none_iff,
    Bool.not_eq_true, Option.isSome_eq_false_iff, Option.isNone_iff_eq_none]

end Markup

namespace BundleKind

variable {kind : BundleKind}

/-- What becomes of a page at a stage: the tag of its own bundle is put before the first anchor,
if the bundle is not blank and there is an anchor, and otherwise the page stays as it is. -/
structure Amends (kind : BundleKind) (page : Page) (text html amended : String) : Prop where
  linked : Text.allBlank text.toList = false → kind.anchor.toList <:+: html.toList →
    Markup.PutBeforeFirst kind.anchor.toList (kind.tag page.name).toList html.toList
      amended.toList
  unlinked : Text.allBlank text.toList = true ∨ ¬ kind.anchor.toList <:+: html.toList →
    amended = html

theorem amends_linked (page : Page) (text html : String) :
    kind.Amends page text html (kind.linked page text html) := by
  constructor
  · intro htext hanchor
    rw [linked, if_neg (by simp [htext])]
    cases hsplice : Markup.spliceBefore? html kind.anchor (kind.tag page.name) with
    | none => exact absurd hanchor (Markup.spliceBefore?_eq_none_iff.mp hsplice)
    | some result => exact Markup.putBeforeFirst_of_spliceBefore? hsplice
  · intro h
    rw [linked]
    split
    · rfl
    · next htext =>
      rcases h with h | h
      · exact absurd h htext
      · rw [Markup.spliceBefore?_eq_none_iff.mpr h]
        rfl

/-! ### Turns -/

/-- The bundle at the end of a trail, as it is written. -/
def finished (kind : BundleKind) (trail : Trail) : Job String := do
  let text ← kind.contents trail.page (trail.pages.flatMap kind.globals)
  Job.within (kind.transformContext trail.page.name)
    (Job.ofExcept (kind.transform trail.page.directory text))

theorem bundlePage_eq (trail : Trail) (html : String) :
    kind.bundlePage trail.page (trail.pages.flatMap kind.globals) html
      = kind.finished trail >>= fun text => kind.emit trail.page text html := by
  rw [bundlePage, finished, bind_assoc]

/-- One file is written for a bundle that is not blank, and none for a blank one. -/
def Writes (kind : BundleKind) (page : Page) (text : String) (before after : Disk) : Prop :=
  if Text.allBlank text.toList then after = before
  else ∃ location, before.target? (kind.file page) = some location ∧
    after = before.set location (.file (Text.encodeUtf8 text))

/-- A bundle that is emitted was written, and the page has the link to it. -/
theorem writes_of_emit {page : Page} {text html amended : String} {session last : Session}
    (h : (kind.emit page text html).run.run session = (.ok amended, last)) :
    kind.Writes page text session.disk last.disk ∧ amended = kind.linked page text html := by
  unfold Writes
  cases htarget : session.disk.target? (kind.file page) with
  | some location =>
    obtain ⟨console, hrun⟩ := run_emit (by rw [htarget]; rfl) text html
    rw [hrun] at h
    cases h
    refine ⟨?_, rfl⟩
    unfold write?
    split
    · rfl
    · refine ⟨location, rfl, ?_⟩
      simp [Disk.putAll, Disk.put, Disk.writeBytes_of_target? htarget, Except.toOption]
  | none =>
    unfold emit at h
    unfold linked
    split at h
    · next hblank =>
      cases h
      rw [if_pos hblank, if_pos hblank]
      exact ⟨rfl, rfl⟩
    · obtain ⟨error, herror⟩ := Disk.exists_error_of_target? htarget (Text.encodeUtf8 text)
      obtain ⟨_, _, hwrite, -⟩ := run_bind_eq_ok h
      rw [Files.write, Job.run_change, ← file, herror] at hwrite
      cases hwrite

/-- Pages take turns: each has one, in order, at which its own bundle is made and written. -/
inductive Turns (kind : BundleKind) : List Trail → List String → Session → Session → Prop
  | done (session : Session) : Turns kind [] [] session session
  | turn {trail : Trail} {trails : List Trail} {text : String} {texts : List String}
      {start made written last : Session}
      (hmade : (kind.finished trail).run.run start = (.ok text, made))
      (hwritten : kind.Writes trail.page text made.disk written.disk)
      (hothers : Turns kind trails texts written last) :
      Turns kind (trail :: trails) (text :: texts) start last

theorem turns_of_mapM {items : List (Trail × String)} {start last : Session} {amended : List String}
    (h : (items.mapM fun item => kind.bundlePage item.1.page (item.1.pages.flatMap kind.globals)
      item.2).run.run start = (.ok amended, last)) :
    ∃ texts, kind.Turns (items.map Prod.fst) texts start last ∧ texts.length = items.length ∧
      amended = (items.zip texts).map fun made => kind.linked made.1.1.page made.2 made.1.2 := by
  induction items generalizing start amended with
  | nil =>
    cases h
    exact ⟨[], .done _, rfl, rfl⟩
  | cons item items ih =>
    rw [List.mapM_cons, bundlePage_eq] at h
    obtain ⟨linked, written, hpage, h⟩ := run_bind_eq_ok h
    obtain ⟨others, later, hothers, h⟩ := run_bind_eq_ok h
    cases h
    obtain ⟨text, made, hmade, hemit⟩ := run_bind_eq_ok hpage
    obtain ⟨hwrites, rfl⟩ := writes_of_emit hemit
    obtain ⟨texts, hturns, hlength, rfl⟩ := ih hothers
    exact ⟨text :: texts, .turn hmade hwrites hturns, congrArg (· + 1) hlength, rfl⟩

/-- A stage makes the bundle of each page once, and changes each page by its own link only. -/
theorem turns_of_bundlePages {layout : Layout} {html amended : List String} {start last : Session}
    (h : (kind.bundlePages layout html).run.run start = (.ok amended, last)) :
    html.length = layout.tree.trails.length ∧
    ∃ texts, kind.Turns layout.tree.trails texts start last ∧
      texts.length = layout.tree.trails.length ∧
      amended = ((layout.tree.trails.zip html).zip texts).map fun made =>
        kind.linked made.1.1.page made.2 made.1.2 := by
  have hpages : layout.pages.length = layout.tree.trails.length := by
    rw [Layout.pages, ← PageTree.map_page_trails, List.length_map]
  rw [bundlePages] at h
  by_cases hcount : html.length = layout.pages.length
  · rw [if_neg (not_not_intro hcount), PageTree.gathered_eq, List.zip_map_left,
      List.mapM_map] at h
    obtain ⟨texts, hturns, hlength, hamended⟩ := turns_of_mapM h
    rw [Layout.map_fst_zip_trails hcount] at hturns
    rw [List.length_zip, hcount, hpages, Nat.min_self] at hlength
    exact ⟨hcount.trans hpages, texts, hturns, hlength, hamended⟩
  · rw [if_pos hcount] at h
    cases h

/-- Each page is amended with the text of its own bundle. -/
theorem amends_of_bundlePages {layout : Layout} {html texts amended : List String}
    (hhtml : html.length = layout.tree.trails.length)
    (htexts : texts.length = layout.tree.trails.length)
    (hamended : amended = ((layout.tree.trails.zip html).zip texts).map fun made =>
      kind.linked made.1.1.page made.2 made.1.2)
    {position : Nat} {trail : Trail} (htrail : layout.tree.trails[position]? = some trail) :
    ∃ before text after, html[position]? = some before ∧ texts[position]? = some text ∧
      amended[position]? = some after ∧ kind.Amends trail.page text before after := by
  obtain ⟨hlt, -⟩ := List.getElem?_eq_some_iff.mp htrail
  obtain ⟨before, hbefore⟩ : ∃ before, html[position]? = some before :=
    ⟨_, List.getElem?_eq_getElem (hhtml ▸ hlt)⟩
  obtain ⟨text, htext⟩ : ∃ text, texts[position]? = some text :=
    ⟨_, List.getElem?_eq_getElem (htexts ▸ hlt)⟩
  have hmade : ((layout.tree.trails.zip html).zip texts)[position]?
      = some ((trail, before), text) :=
    List.getElem?_zip_eq_some.mpr ⟨List.getElem?_zip_eq_some.mpr ⟨htrail, hbefore⟩, htext⟩
  refine ⟨before, text, _, hbefore, htext, ?_, amends_linked trail.page text before⟩
  rw [hamended, List.getElem?_map, hmade]
  rfl

/-! ### Bundles that stay the same -/

/-- The bundles have the texts given, and making them changes nothing, however many bundles of
these pages have been written already. -/
def Unchanging (kind : BundleKind) (trails : List Trail) (text : Trail → String) (disk : Disk) :
    Prop :=
  ∀ trail ∈ trails, ∀ writes : List (Path × List UInt8),
    (∀ write ∈ writes, ∃ other ∈ trails, write.1 = kind.file other.page) → ∀ console,
      ∃ later, (kind.finished trail).run.run ⟨disk.putAll writes, console⟩
        = (.ok (text trail), ⟨disk.putAll writes, later⟩)

theorem Writes.eq_putAll {page : Page} {text : String} {before after : Disk}
    (h : kind.Writes page text before after) :
    after = before.putAll (kind.write? page text).toList := by
  unfold Writes at h
  unfold write?
  split at h
  · next hblank =>
    rw [if_pos hblank]
    exact h
  · next htext =>
    obtain ⟨location, htarget, rfl⟩ := h
    rw [if_neg htext]
    simp [Disk.putAll, Disk.put, Disk.writeBytes_of_target? htarget, Except.toOption]

theorem Turns.of_unchanging {all trails : List Trail} {text : Trail → String} {disk : Disk}
    (hsame : kind.Unchanging all text disk) {texts : List String} {start last : Session}
    (hturns : kind.Turns trails texts start last) (hall : ∀ trail ∈ trails, trail ∈ all)
    {writes : List (Path × List UInt8)} (hstart : start.disk = disk.putAll writes)
    (hwrites : ∀ write ∈ writes, ∃ other ∈ all, write.1 = kind.file other.page) :
    texts = trails.map text ∧ last.disk = disk.putAll (writes ++
      trails.filterMap fun trail => kind.write? trail.page (text trail)) := by
  induction hturns generalizing writes with
  | done session =>
    rw [List.filterMap_nil, List.append_nil]
    exact ⟨rfl, hstart⟩
  | @turn trail trails found texts start made written last hmade hwritten hothers ih =>
    obtain ⟨later, hrun⟩ := hsame trail (hall trail List.mem_cons_self) writes hwrites start.console
    rw [← hstart, hmade] at hrun
    cases hrun
    have hdisk := hwritten.eq_putAll
    rw [hstart, Disk.putAll, Disk.putAll, ← List.foldl_append, ← Disk.putAll] at hdisk
    obtain ⟨rfl, hlast⟩ := ih (fun other hother => hall other (List.mem_cons_of_mem _ hother))
      hdisk (fun write hwrite => by
        rcases List.mem_append.mp hwrite with hwrite | hwrite
        · exact hwrites write hwrite
        · rw [Option.mem_toList, write?] at hwrite
          split at hwrite
          · cases hwrite
          · cases hwrite
            exact ⟨trail, hall trail List.mem_cons_self, rfl⟩)
    refine ⟨rfl, ?_⟩
    rw [hlast, List.filterMap_cons]
    cases kind.write? trail.page (text trail) with
    | none => rw [Option.toList_none, List.append_nil]
    | some write => rw [Option.toList_some, List.append_assoc, List.singleton_append]

/-- The kind of bundles that are written as they are read. -/
def plain (kind : BundleKind) : BundleKind :=
  { kind with transform := fun _ text => .ok text }

/-- Bundles made of files do not change as long as none is written over one of these files. -/
theorem unchanging_of_reads {files : Mount → List Path}
    {own : Disk → Mount → Except Failure String} (h : kind.plain.Reads files own)
    {trails : List Trail} {text : Trail → String} {disk : Disk}
    (hwritable : kind.Writable files trails disk)
    (htexts : ∀ trail ∈ trails, ∃ raw, kind.text own disk trail = .ok raw ∧
      kind.transform trail.page.directory raw = .ok (text trail)) :
    kind.Unchanging trails text disk := by
  intro trail htrail writes hwrites console
  obtain ⟨raw, hraw, htransform⟩ := htexts trail htrail
  have hcontents : kind.contents trail.page (trail.pages.flatMap kind.globals)
      = Job.reading fun disk => kind.text own disk trail :=
    (kind.contents_eq _ _).trans ((kind.plain.contents_eq _ _).symm.trans (h.contents_eq trail))
  have hsame : (kind.text own (disk.putAll writes) trail).toOption
      = (kind.text own disk trail).toOption := by
    refine h.toOption_text fun source hsource => Files.toOption_read_putAll fun write hwrite => ?_
    obtain ⟨other, hother, hfile⟩ := hwrites write hwrite
    rw [hfile]
    exact hwritable.apart other hother trail htrail source hsource
  rw [hraw] at hsame
  refine ⟨console, ?_⟩
  rw [finished, hcontents, run_bind, Job.run_reading, toOption_eq_some_iff.mp hsame]
  dsimp only
  rw [htransform]
  rfl

end BundleKind

/-! ### Both stages -/

namespace Compiler

theorem answers_of_mapM {compiler : Compiler} {pages : List Page} {html : List String}
    {cache later : Cache}
    (h : (pages.mapM fun page =>
      ExceptT.adapt (Failure.within ("failed to compile page " ++ ticked page.name))
        (compiler.compile page.mount)).run.run cache = (.ok html, later)) :
    compiler.answers (pages.map Page.mount) cache = html.map Except.ok := by
  induction pages generalizing cache html with
  | nil =>
    cases h
    rfl
  | cons page pages ih =>
    rw [List.mapM_cons] at h
    obtain ⟨first, middle, hfirst, h⟩ := run_bind_eq_ok h
    obtain ⟨others, _, hothers, h⟩ := run_bind_eq_ok h
    cases h
    rw [run_adapt] at hfirst
    rcases hrun : (compiler.compile page.mount).run.run cache with ⟨failure | markup, found⟩
    · rw [hrun] at hfirst
      cases hfirst
    · rw [hrun] at hfirst
      cases hfirst
      rw [List.map_cons, answers, hrun, ih hothers]
      rfl

/-- The markup of pages is what the compiler answers to the calls for them, one after another. -/
theorem answers_of_compilePages {compiler : Compiler} {compiled : Pages .compiled}
    {cache later : Cache} (h : compiler.compilePages.run.run cache = (.ok compiled, later)) :
    compiler.answers (compiler.layout.pages.map Page.mount) cache
      = compiled.html.map Except.ok := by
  obtain ⟨html, _, hpages, hlast⟩ := run_bind_eq_ok h
  cases hlast
  exact answers_of_mapM hpages

end Compiler

namespace Layout

/-- The page at each position is changed by the links to its own bundles and by nothing else. At
either stage every page has one turn, at which its bundle is made and, unless it is blank, written;
where making bundles does not depend on the ones that are written already, they are what they are
at the beginning of the stage. -/
theorem pages_amended {σ : Type} {root : Mount} {output : Path} {registry : Registry σ}
    {session walked start middle last : Session} {layout : Layout}
    (hwalk : (walk root output registry).run.run session = (.ok layout, walked))
    {compiler : Compiler} (hlayout : compiler.layout = layout) {cache later : Compiler.Cache}
    {compiled : Pages .compiled}
    (hcompile : compiler.compilePages.run.run cache = (.ok compiled, later))
    {styles : StyleOptions} {styled : Pages .styled}
    (hstyles : (bundleStyles styles layout compiled).run.run start = (.ok styled, middle))
    {scripts : ScriptOptions} {scripted : Pages .scripted}
    (hscripts : (bundleScripts scripts layout styled).run.run middle = (.ok scripted, last)) :
    ∃ styleTexts scriptTexts : List String,
      (styles.bundleKind layout).Turns layout.tree.trails styleTexts start middle ∧
      scripts.bundleKind.Turns layout.tree.trails scriptTexts middle last ∧
      scripted.html.length = layout.pages.length ∧
      (∀ (position : Nat) (node : Numbered),
        (layout.tree.numbered 0)[position]? = some node →
        ∃ (trail : Trail) (markup style between script amended : String),
          layout.tree.trails[position]? = some trail ∧ trail.page = node.page ∧
          compiled.html[position]? = some markup ∧ styled.html[position]? = some between ∧
          scripted.html[position]? = some amended ∧
          styleTexts[position]? = some style ∧ scriptTexts[position]? = some script ∧
          (compiler.answers (layout.pages.map Page.mount) cache)[position]? = some (.ok markup) ∧
          (compiler.KeysDetermine root → Compiler.Sound compiler root cache →
            compiler.compileAfresh node.page.mount = .ok markup) ∧
          (styles.bundleKind layout).Amends node.page style markup between ∧
          scripts.bundleKind.Amends node.page script between amended) ∧
      (∀ text, (styles.bundleKind layout).Unchanging layout.tree.trails text start.disk →
        styleTexts = layout.tree.trails.map text ∧
        middle.disk = start.disk.putAll (layout.tree.trails.filterMap fun trail =>
          (styles.bundleKind layout).write? trail.page (text trail))) ∧
      ∀ text, scripts.bundleKind.Unchanging layout.tree.trails text middle.disk →
        scriptTexts = layout.tree.trails.map text ∧
        last.disk = middle.disk.putAll (layout.tree.trails.filterMap fun trail =>
          scripts.bundleKind.write? trail.page (text trail)) := by
  obtain ⟨_, _, hstyles, hstyled⟩ := run_bind_eq_ok hstyles
  cases hstyled
  obtain ⟨_, _, hscripts, hscripted⟩ := run_bind_eq_ok hscripts
  cases hscripted
  obtain ⟨hcompiled, styleTexts, hstyleTurns, hstyleLength, hbetween⟩ :=
    BundleKind.turns_of_bundlePages hstyles
  obtain ⟨hstyled, scriptTexts, hscriptTurns, hscriptLength, hamended⟩ :=
    BundleKind.turns_of_bundlePages hscripts
  have htrails : layout.tree.trails.map Trail.page = layout.pages :=
    PageTree.map_page_trails layout.tree
  refine ⟨styleTexts, scriptTexts, hstyleTurns, hscriptTurns, ?_, ?_, ?_, ?_⟩
  · rw [hamended, List.length_map, List.length_zip, List.length_zip, hstyled, hscriptLength,
      Nat.min_self, Nat.min_self, ← htrails, List.length_map]
  · intro position node hnode
    have hpage : layout.pages[position]? = some node.page := by
      rw [pages, ← PageTree.map_page_numbered 0, List.getElem?_map, hnode]
      rfl
    have htrail := hpage
    rw [← htrails, List.getElem?_map] at htrail
    obtain ⟨trail, htrail, hsame⟩ := Option.map_eq_some_iff.mp htrail
    obtain ⟨markup, style, between, hmarkup, hstyle, hfirst, hlinked⟩ :=
      BundleKind.amends_of_bundlePages hcompiled hstyleLength hbetween htrail
    obtain ⟨second, script, amended, hsecond, hscript, hlast, hscripted⟩ :=
      BundleKind.amends_of_bundlePages hstyled hscriptLength hamended htrail
    cases hfirst.symm.trans hsecond
    rw [hsame] at hlinked hscripted
    have hanswers := Compiler.answers_of_compilePages hcompile
    rw [hlayout] at hanswers
    have hanswer : (compiler.answers (layout.pages.map Page.mount) cache)[position]?
        = some (.ok markup) := by
      rw [hanswers, List.getElem?_map, hmarkup]
      rfl
    refine ⟨trail, markup, style, between, script, amended, htrail, hsame, hmarkup, hfirst, hlast,
      hstyle, hscript, hanswer, ?_, hlinked, hscripted⟩
    intro hkeys hsound
    have hreaches : ∀ mount ∈ layout.pages.map Page.mount, root.Reaches mount := by
      intro mount hmount
      obtain ⟨page, hmem, rfl⟩ := List.mem_map.mp hmount
      rw [pages, (pageNames_of_walk hwalk).1] at hmem
      exact PageTree.reaches_of_mem_pages root output hmem
    rw [Compiler.answers_of_sound hkeys hreaches hsound, List.getElem?_map, List.getElem?_map,
      hpage] at hanswer
    exact Option.some.inj hanswer
  · intro text hsame
    exact hstyleTurns.of_unchanging hsame (fun _ htrail => htrail)
      (show start.disk = start.disk.putAll [] from rfl) (by simp)
  · intro text hsame
    exact hscriptTurns.of_unchanging hsame (fun _ htrail => htrail)
      (show middle.disk = middle.disk.putAll [] from rfl) (by simp)

/-! ### Bundles of files -/

section Unchanging

variable {layout : Layout} {transform : Path → String → Except Failure String}
  {text : Trail → String} {disk : Disk}

/-- Style bundles do not change without a preprocessor, as long as none is written over a file that
they are made of. -/
theorem unchanging_styles
    (hwritable : (StyleOptions.bundleKind { transform } layout).Writable
      (fun mount => mount.declaration.externalStyles) layout.tree.trails disk)
    (htexts : ∀ trail ∈ layout.tree.trails, ∃ raw, layout.styleText disk trail = .ok raw ∧
      transform trail.page.directory raw = .ok (text trail)) :
    (StyleOptions.bundleKind { transform } layout).Unchanging layout.tree.trails text disk := by
  have hreads : (StyleOptions.bundleKind { transform } layout).plain.Reads
      (fun mount => mount.declaration.externalStyles) layout.ownStyles := reads_styles layout
  exact BundleKind.unchanging_of_reads hreads hwritable htexts

/-- Script bundles do not change as long as none is written over a file that they are made of. -/
theorem unchanging_scripts {position : Config.ScriptPosition}
    (hwritable : (ScriptOptions.bundleKind { position, transform }).Writable
      (fun mount => mount.declaration.externalScripts) layout.tree.trails disk)
    (htexts : ∀ trail ∈ layout.tree.trails, ∃ raw, scriptText disk trail = .ok raw ∧
      transform trail.page.directory raw = .ok (text trail)) :
    (ScriptOptions.bundleKind { position, transform }).Unchanging layout.tree.trails text disk := by
  have hreads : (ScriptOptions.bundleKind { position, transform }).plain.Reads
      (fun mount => mount.declaration.externalScripts)
      (fun disk mount => Files.readAll disk mount.declaration.externalScripts) :=
    reads_scripts position
  exact BundleKind.unchanging_of_reads hreads hwritable htexts

end Unchanging

/-! ### Two pages that share their styles -/

section Leaflet

/-- A page without a head. -/
def leaf : Mount :=
  .mk ⟨"docs", ⟨"docs.html"⟩, none, [], [], [], [], none⟩ none [] []

/-- A page with styles for all pages, and a page below it. -/
def leaflet : Mount :=
  .mk ⟨"index", ⟨"home.html"⟩, none, [], [], [⟨"/reset.css"⟩], [], none⟩ none [] [leaf]

def leafletLayout : Layout :=
  ⟨PageTree.ofMount ⟨"out"⟩ leaflet,
    [(Key.of "index" ⟨"home.html"⟩, ⟨"0"⟩), (Key.of "docs" ⟨"docs.html"⟩, ⟨"1"⟩)]⟩

/-- The files of the leaflet. -/
def leafletFiles : Disk where
  entries :=
    [(["home.html"], .file (Text.encodeUtf8 "<head></head>")),
      (["docs.html"], .file (Text.encodeUtf8 "<p></p>")),
      (["reset.css"], .file (Text.encodeUtf8 "i {}"))]
  workDir := []

/-- The files of the leaflet, and the directories of its pages. -/
def leafletDisk : Disk :=
  (leafletFiles.set ["out"] .directory).set ["out", "docs"] .directory

theorem run_walk_leaflet :
    (walk leaflet ⟨"out"⟩ (Registry.new sequentialIds 0)).run.run ⟨leafletFiles, []⟩
      = (.ok leafletLayout, ⟨leafletDisk, []⟩) := by
  have hout : leafletFiles.makeDirectories ⟨"out"⟩
      = (none, leafletFiles.set ["out"] .directory) := by
    have hplace : leafletFiles.Names ⟨"out"⟩ ⟨[], ["out"], false⟩ [] "out" :=
      ⟨rfl, Disk.walk.eq_1 .., rfl, by decide, by decide, by decide⟩
    exact Disk.makeDirectories_of_free hplace rfl
  have hdocs : (leafletFiles.set ["out"] .directory).makeDirectories
      ((Path.mk "out").join ⟨"docs"⟩) = (none, leafletDisk) := by
    have hplace : (leafletFiles.set ["out"] .directory).Names ((Path.mk "out").join ⟨"docs"⟩)
        ⟨[], ["out", "docs"], false⟩ ["out"] "docs" :=
      ⟨rfl, (Disk.walk_reach_directory (by decide) (by decide) (by decide) rfl).trans
        (Disk.walk.eq_1 ..), rfl, by decide, by decide, by decide⟩
    exact Disk.makeDirectories_of_free hplace rfl
  have hleaf : (visit ((Path.mk "out").join ⟨leaf.name⟩) leaf [Key.of "index" ⟨"home.html"⟩]).run.run
      ⟨leafletFiles.set ["out"] .directory, []⟩
        = (.ok [Key.of "docs" ⟨"docs.html"⟩, Key.of "index" ⟨"home.html"⟩], ⟨leafletDisk, []⟩) :=
    run_visit_leaf (by decide) hdocs
  have hvisit : (visit ⟨"out"⟩ leaflet []).run.run ⟨leafletFiles, []⟩
      = (.ok [Key.of "docs" ⟨"docs.html"⟩, Key.of "index" ⟨"home.html"⟩], ⟨leafletDisk, []⟩) := by
    rw [leaflet, run_visit List.not_mem_nil hout]
    exact run_visitChildren (by decide) List.not_mem_nil hleaf
  have hassign : assignAll (Registry.new sequentialIds 0)
      (scopeOrder (PageTree.ofMount ⟨"out"⟩ leaflet).pages [])
        = .ok ⟨sequentialIds, 2, leafletLayout.scopes, [⟨"1"⟩, ⟨"0"⟩]⟩ := rfl
  rw [walk, run_bind, hvisit]
  dsimp only
  rw [hassign]
  rfl

theorem read_leafletDisk {path : Path} {name text : String}
    (hroute : leafletDisk.route path = .ok ⟨[], [name], false⟩)
    (hhere : name ≠ ".") (hup : name ≠ "..") (hshort : ¬ Disk.maxName < name.utf8ByteSize)
    (hfile : leafletDisk.get? [name] = some (.file (Text.encodeUtf8 text))) :
    Files.read leafletDisk path = .ok text :=
  Files.read_eq_ok_iff.mpr
    (Disk.readText_of_walk hroute (Disk.walk_reach_file hhere hup hshort hfile))

def leafletCompiler : Compiler :=
  ⟨leafletLayout, none, leafletDisk⟩

theorem run_compilePages_leaflet :
    ∃ later, leafletCompiler.compilePages.run.run []
      = (.ok ⟨["<head></head>", "<p></p>"]⟩, later) := by
  have hfirst : (leafletCompiler.compile leaflet).run.run []
      = (.ok "<head></head>", [(Compiler.cacheKey leaflet, "<head></head>")]) :=
    Compiler.run_compile_plain rfl (read_leafletDisk rfl (by decide) (by decide) (by decide) rfl) rfl
      rfl
  have hsecond : (leafletCompiler.compile leaf).run.run
        [(Compiler.cacheKey leaflet, "<head></head>")]
      = (.ok "<p></p>", [(Compiler.cacheKey leaf, "<p></p>"),
          (Compiler.cacheKey leaflet, "<head></head>")]) :=
    Compiler.run_compile_plain rfl (read_leafletDisk rfl (by decide) (by decide) (by decide) rfl) rfl
      (by decide)
  have hpages : leafletCompiler.layout.pages
      = [⟨leaflet, ⟨"out"⟩⟩, ⟨leaf, (Path.mk "out").join ⟨"docs"⟩⟩] := rfl
  rw [Compiler.compilePages, hpages]
  simp only [List.mapM_cons, List.mapM_nil, run_bind, run_adapt, hfirst, hsecond, Except.mapError]
  exact ⟨_, rfl⟩

/-- The ways to the two pages. -/
theorem trails_leaflet : leafletLayout.tree.trails
    = [⟨[], ⟨leaflet, ⟨"out"⟩⟩⟩,
      ⟨[⟨leaflet, ⟨"out"⟩⟩], ⟨leaf, (Path.mk "out").join ⟨"docs"⟩⟩⟩] :=
  rfl

theorem target?_index {path : Path} {name : String} (hname : name ∈ ["index.css", "index.js"])
    (hroute : leafletDisk.route path = .ok ⟨[], ["out", name], false⟩) :
    leafletDisk.target? path = some ["out", name] := by
  rw [Disk.target?, Disk.locate, hroute]
  change Disk.Spot.vacant? (leafletDisk.walk .write _ _ _ _) = _
  simp only [List.mem_cons, List.not_mem_nil, or_false] at hname
  rcases hname with rfl | rfl
  all_goals
    rw [Disk.walk_directory (by decide) (by decide) (by decide) rfl,
      Disk.vacant?_walk_nothing (by decide) (by decide) (by decide) rfl]
    rfl

theorem target?_docs {path : Path} {name : String} (hname : name ∈ ["docs.css", "docs.js"])
    (hroute : leafletDisk.route path = .ok ⟨[], ["out", "docs", name], false⟩) :
    leafletDisk.target? path = some ["out", "docs", name] := by
  rw [Disk.target?, Disk.locate, hroute]
  change Disk.Spot.vacant? (leafletDisk.walk .write _ _ _ _) = _
  simp only [List.mem_cons, List.not_mem_nil, or_false] at hname
  rcases hname with rfl | rfl
  all_goals
    rw [Disk.walk_directory (by decide) (by decide) (by decide) rfl,
      Disk.walk_directory (by decide) (by decide) (by decide) rfl,
      Disk.vacant?_walk_nothing (by decide) (by decide) (by decide) rfl]
    rfl

theorem read_leafletStyles : Files.read leafletDisk ⟨"/reset.css"⟩ = .ok "i {}" :=
  read_leafletDisk rfl (by decide) (by decide) (by decide) rfl

theorem styleText_leaflet : ∀ trail ∈ leafletLayout.tree.trails,
    leafletLayout.styleText leafletDisk trail = .ok "i {}" := by
  have hshared : Files.readAll leafletDisk [⟨"/reset.css"⟩] = .ok "i {}" := by
    rw [Files.readAll, List.mapM_cons, read_leafletStyles]
    change Except.ok (String.join ["i {}"]) = _
    rw [String.join_cons, String.join_nil, String.append_empty]
  intro trail htrail
  rw [trails_leaflet] at htrail
  simp only [List.mem_cons, List.not_mem_nil, or_false] at htrail
  rcases htrail with rfl | rfl
  · rw [styleText, Mount.visited_eq_singleton followTags rfl]
    change (Files.readAll leafletDisk [⟨"/reset.css"⟩] >>= _) = _
    rw [hshared]
    rfl
  · rw [styleText, Mount.visited_eq_singleton followTags rfl]
    change (Files.readAll leafletDisk [⟨"/reset.css"⟩] >>= _) = _
    rw [hshared]
    rfl

theorem writable_styles_leaflet : (StyleOptions.bundleKind {} leafletLayout).Writable
    (fun mount => mount.declaration.externalStyles) leafletLayout.tree.trails leafletDisk := by
  refine BundleKind.writable_of_new ?_ ?_
  · intro trail htrail
    rw [trails_leaflet] at htrail
    simp only [List.mem_cons, List.not_mem_nil, or_false] at htrail
    rcases htrail with rfl | rfl
    · exact ⟨["out", "index.css"], target?_index (by decide) rfl, rfl⟩
    · exact ⟨["out", "docs", "docs.css"], target?_docs (by decide) rfl, rfl⟩
  · intro trail htrail source hsource
    have hreset : source = ⟨"/reset.css"⟩ := by
      rw [trails_leaflet] at htrail
      simp only [List.mem_cons, List.not_mem_nil, or_false] at htrail
      rw [BundleKind.sources, List.mem_append] at hsource
      rcases htrail with rfl | rfl
      all_goals
        rw [Mount.visited_eq_singleton _ rfl] at hsource
        simpa [Trail.pages, StyleOptions.bundleKind, Page.declaration, Mount.declaration, leaflet,
          leaf] using hsource
    rw [hreset]
    exact ⟨_, read_leafletStyles⟩

theorem scriptText_leaflet (disk : Disk) : ∀ trail ∈ leafletLayout.tree.trails,
    scriptText disk trail = .ok "" := by
  intro trail htrail
  rw [trails_leaflet] at htrail
  simp only [List.mem_cons, List.not_mem_nil, or_false] at htrail
  rcases htrail with rfl | rfl
  all_goals
    rw [scriptText, Mount.visited_eq_singleton Mount.followAll rfl]
    rfl

theorem writable_scripts_leaflet : (ScriptOptions.bundleKind {}).Writable
    (fun mount => mount.declaration.externalScripts) leafletLayout.tree.trails leafletDisk := by
  refine BundleKind.writable_of_new ?_ ?_
  · intro trail htrail
    rw [trails_leaflet] at htrail
    simp only [List.mem_cons, List.not_mem_nil, or_false] at htrail
    rcases htrail with rfl | rfl
    · exact ⟨["out", "index.js"], target?_index (by decide) rfl, rfl⟩
    · exact ⟨["out", "docs", "docs.js"], target?_docs (by decide) rfl, rfl⟩
  · intro trail htrail source hsource
    rw [trails_leaflet] at htrail
    simp only [List.mem_cons, List.not_mem_nil, or_false] at htrail
    rw [BundleKind.sources, List.mem_append] at hsource
    rcases htrail with rfl | rfl
    all_goals
      rw [Mount.visited_eq_singleton _ rfl] at hsource
      simp [Trail.pages, ScriptOptions.bundleKind, Page.declaration, Mount.declaration, leaflet,
        leaf] at hsource

/-- The style bundles of the leaflet, and where they are written. -/
def leafletBundles : List (Path × List UInt8) :=
  [((Path.mk "out").join ⟨"index.css"⟩, Text.encodeUtf8 "i {}"),
    (((Path.mk "out").join ⟨"docs"⟩).join ⟨"docs.css"⟩, Text.encodeUtf8 "i {}")]

theorem run_bundleStyles_leaflet :
    ∃ console, (bundleStyles {} leafletLayout ⟨["<head></head>", "<p></p>"]⟩).run.run
        ⟨leafletDisk, []⟩
      = (.ok ⟨["<head><link rel=\"stylesheet\" href=\"index.css\"></head>", "<p></p>"]⟩,
        ⟨leafletDisk.putAll leafletBundles, console⟩) := by
  have htexts : leafletLayout.tree.trails.mapM (leafletLayout.styleText leafletDisk)
      = .ok ["i {}", "i {}"] := by
    have hindex := styleText_leaflet _ (by rw [trails_leaflet]; exact List.mem_cons_self)
    have hdocs := styleText_leaflet _ (by
      rw [trails_leaflet]
      exact List.mem_cons_of_mem _ List.mem_cons_self)
    rw [trails_leaflet, List.mapM_cons, List.mapM_cons, hindex, hdocs]
    rfl
  obtain ⟨console, hrun⟩ := (bundles_of_reads (reads_styles leafletLayout) leafletLayout).all
    ["<head></head>", "<p></p>"] ⟨leafletDisk, []⟩ _ rfl writable_styles_leaflet htexts
  refine ⟨console, ?_⟩
  rw [bundleStyles, run_bind, hrun]
  rfl

theorem run_bundleScripts_leaflet (html : List String) (hcount : html.length = 2)
    (console : List String) :
    ∃ later, (bundleScripts {} leafletLayout ⟨html⟩).run.run
        ⟨leafletDisk.putAll leafletBundles, console⟩
      = (.ok ⟨html⟩, ⟨leafletDisk.putAll leafletBundles, later⟩) := by
  obtain ⟨index, docs, rfl⟩ : ∃ index docs, html = [index, docs] := by
    simpa [List.length_eq_two] using hcount
  have htexts : leafletLayout.tree.trails.mapM (scriptText (leafletDisk.putAll leafletBundles))
      = .ok ["", ""] := by
    have hindex := scriptText_leaflet (leafletDisk.putAll leafletBundles) _
      (by rw [trails_leaflet]; exact List.mem_cons_self)
    have hdocs := scriptText_leaflet (leafletDisk.putAll leafletBundles) _ (by
      rw [trails_leaflet]
      exact List.mem_cons_of_mem _ List.mem_cons_self)
    rw [trails_leaflet, List.mapM_cons, List.mapM_cons, hindex, hdocs]
    rfl
  obtain ⟨later, hrun⟩ := (bundles_of_reads (reads_scripts .body) leafletLayout).all
    [index, docs] ⟨leafletDisk.putAll leafletBundles, console⟩ _ rfl
    (writable_scripts_leaflet.putAll leafletBundles) htexts
  refine ⟨later, ?_⟩
  rw [bundleScripts, run_bind, hrun]
  rfl

/-- The pages of the leaflet have the same styles. The root page has a place for the link, and the
page below it has none. Neither of them has scripts. -/
theorem leaflet_amended :
    ∃ later middle last, leafletCompiler.compilePages.run.run []
        = (.ok ⟨["<head></head>", "<p></p>"]⟩, later) ∧
      (bundleStyles {} leafletLayout ⟨["<head></head>", "<p></p>"]⟩).run.run ⟨leafletDisk, []⟩
        = (.ok ⟨["<head><link rel=\"stylesheet\" href=\"index.css\"></head>", "<p></p>"]⟩,
          middle) ∧
      (bundleScripts {} leafletLayout
          ⟨["<head><link rel=\"stylesheet\" href=\"index.css\"></head>", "<p></p>"]⟩).run.run middle
        = (.ok ⟨["<head><link rel=\"stylesheet\" href=\"index.css\"></head>", "<p></p>"]⟩, last) ∧
      (StyleOptions.bundleKind {} leafletLayout).Turns leafletLayout.tree.trails ["i {}", "i {}"]
        ⟨leafletDisk, []⟩ middle ∧
      (ScriptOptions.bundleKind {}).Turns leafletLayout.tree.trails ["", ""] middle last ∧
      middle.disk = leafletDisk.putAll leafletBundles ∧ last.disk = middle.disk := by
  obtain ⟨later, hcompile⟩ := run_compilePages_leaflet
  obtain ⟨console, hstyles⟩ := run_bundleStyles_leaflet
  obtain ⟨_, hscripts⟩ := run_bundleScripts_leaflet
    ["<head><link rel=\"stylesheet\" href=\"index.css\"></head>", "<p></p>"] rfl console
  have hstyleTexts : (StyleOptions.bundleKind {} leafletLayout).Unchanging
      leafletLayout.tree.trails (fun _ => "i {}") leafletDisk :=
    unchanging_styles writable_styles_leaflet
      fun trail htrail => ⟨_, styleText_leaflet trail htrail, rfl⟩
  have hscriptTexts : (ScriptOptions.bundleKind {}).Unchanging leafletLayout.tree.trails
      (fun _ => "") (leafletDisk.putAll leafletBundles) :=
    unchanging_scripts (writable_scripts_leaflet.putAll leafletBundles)
      fun trail htrail => ⟨_, scriptText_leaflet _ trail htrail, rfl⟩
  obtain ⟨_, _, hstyleTurns, hscriptTurns, -, -, hstyled, hscripted⟩ :=
    pages_amended run_walk_leaflet rfl hcompile hstyles hscripts
  obtain ⟨rfl, hmiddle⟩ := hstyled _ hstyleTexts
  obtain ⟨rfl, hlast⟩ := hscripted _ hscriptTexts
  exact ⟨later, _, _, hcompile, hstyles, hscripts, hstyleTurns, hscriptTurns, hmiddle, hlast⟩

end Leaflet

end Layout

end SiteTree
