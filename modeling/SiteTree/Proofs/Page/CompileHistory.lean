import SiteTree.Proofs.Page.CompileCache

/-!
# What a compiler remembers

A call adds to the cache what it compiles and leaves all that is there, whether it succeeds or fails.
What is embedded in a mount can have the cache key of the mount; then its entry is replaced when the mount
is finished. Neither of them was in the cache when the call was made.

* `Compiler.keepsCache_compile` — one call, by the recursion over imports.
* `Compiler.extends_foldl` — a history of calls and of changes to the files.
* `Compiler.cache_kept` — what was answered once is answered for good.
-/

namespace SiteTree.Compiler

/-! ### Caches that grow -/

/-- Everything in one cache is in the other, with the same markup. -/
def Extends (cache later : Cache) : Prop :=
  ∀ key html, cache.lookup key = some html → later.lookup key = some html

theorem Extends.refl (cache : Cache) : Extends cache cache :=
  fun _ _ h => h

theorem Extends.trans {first second third : Cache} (hfirst : Extends first second)
    (hsecond : Extends second third) : Extends first third :=
  fun key html h => hsecond key html (hfirst key html h)

/-- A new entry under a key that was not there at first, whatever has come under it since. -/
theorem Extends.cons {cache later : Cache} (h : Extends cache later) {key : CacheKey}
    (hnew : cache.lookup key = none) (html : String) : Extends cache ((key, html) :: later) := by
  intro other found hfound
  rw [Disk.lookup_cons_ite, if_neg]
  · exact h other found hfound
  · intro heq
    rw [eq_of_beq heq, hnew] at hfound
    cases hfound

/-- However the step ends, all that was in the cache is there. -/
def KeepsCache {α : Type} (step : Compilation α) : Prop :=
  ∀ cache, Extends cache (step.run.run cache).2

section KeepsCache

variable {α β : Type}

theorem keepsCache_pure (value : α) : KeepsCache (pure value) :=
  fun cache => .refl cache

theorem keepsCache_lift (result : Except Failure α) : KeepsCache (lift result) := by
  intro cache
  rw [run_lift]
  exact .refl cache

theorem KeepsCache.bind {step : Compilation α} {next : α → Compilation β} (h : KeepsCache step)
    (hnext : ∀ value, KeepsCache (next value)) : KeepsCache (step >>= next) := by
  intro cache
  have hlater := h cache
  rw [run_bind]
  rcases hstep : step.run.run cache with ⟨failure | value, later⟩
  · rw [hstep] at hlater
    exact hlater
  · rw [hstep] at hlater
    exact hlater.trans (hnext value later)

theorem KeepsCache.adapt {step : Compilation α} (h : KeepsCache step)
    (context : Failure → Failure) : KeepsCache (ExceptT.adapt context step) := by
  intro cache
  rw [run_adapt]
  exact h cache

theorem keepsCache_mapM {γ : Type} {step : γ → Compilation α} {items : List γ}
    (h : ∀ item ∈ items, KeepsCache (step item)) : KeepsCache (items.mapM step) := by
  induction items with
  | nil => exact keepsCache_pure []
  | cons item items ih =>
    rw [List.mapM_cons]
    refine (h item List.mem_cons_self).bind fun value => ?_
    have hothers := ih fun other hother => h other (List.mem_cons_of_mem _ hother)
    exact hothers.bind fun values => keepsCache_pure (value :: values)

end KeepsCache

/-! ### One call -/

section Call

variable (compiler : Compiler)

mutual

theorem keepsCache_compile : ∀ mount, KeepsCache (compiler.compile mount)
  | .mk declaration overrides imports children => by
    intro cache
    have hembed := (keepsCache_lift (compiler.withScopeClass
      (.mk declaration overrides imports children))).bind (keepsCache_embed imports) cache
    rw [run_compile]
    split
    · exact .refl cache
    · next hnew =>
      generalize (lift _ >>= compiler.embed imports).run.run cache = run at hembed
      rcases run with ⟨failure | html, later⟩
      · exact hembed
      · exact hembed.cons hnew html

theorem keepsCache_embed : ∀ mounts html, KeepsCache (compiler.embed mounts html)
  | [], html => by
    rw [embed]
    exact keepsCache_pure html
  | mount :: mounts, html => by
    rw [embed]
    cases mount.declaration.selector with
    | none => exact keepsCache_embed mounts html
    | some selector =>
      exact ((keepsCache_compile mount).adapt _).bind fun fragment => keepsCache_embed mounts _

end

theorem keepsCache_compilePages : KeepsCache compiler.compilePages := by
  have hpages : KeepsCache (compiler.layout.pages.mapM fun page =>
      ExceptT.adapt (Failure.within ("failed to compile page " ++ ticked page.name))
        (compiler.compile page.mount)) :=
    keepsCache_mapM fun page _ => (keepsCache_compile compiler page.mount).adapt _
  exact hpages.bind fun html => keepsCache_pure (Pages.mk html)

end Call

/-! ### Histories -/

/-- The files and the cache at one moment. -/
structure Moment where
  disk : Disk
  cache : Cache

/-- What can happen between two moments. -/
inductive Event where
  /-- the files are changed, in whatever way -/
  | edit (disk : Disk)
  | compile (mount : Mount)
  | compilePages

section History

variable (compiler : Compiler)

/-- The compiler, as it finds the files at a moment. -/
def facing (moment : Moment) : Compiler :=
  { compiler with disk := moment.disk }

/-- The moment after an event. A call that fails leaves a cache as well. -/
def after (moment : Moment) : Event → Moment
  | .edit disk => { moment with disk }
  | .compile mount =>
    { moment with cache := (((compiler.facing moment).compile mount).run.run moment.cache).2 }
  | .compilePages =>
    { moment with cache := ((compiler.facing moment).compilePages.run.run moment.cache).2 }

/-- How a call is answered at a moment. -/
def answerAt (moment : Moment) (mount : Mount) : Except Failure String :=
  (((compiler.facing moment).compile mount).run.run moment.cache).1

theorem extends_after (moment : Moment) (event : Event) :
    Extends moment.cache (compiler.after moment event).cache := by
  cases event with
  | edit disk => exact .refl moment.cache
  | compile mount => exact keepsCache_compile (compiler.facing moment) mount moment.cache
  | compilePages => exact keepsCache_compilePages (compiler.facing moment) moment.cache

theorem extends_foldl (moment : Moment) (events : List Event) :
    Extends moment.cache (events.foldl compiler.after moment).cache := by
  induction events generalizing moment with
  | nil => exact .refl moment.cache
  | cons event events ih =>
    rw [List.foldl_cons]
    exact (extends_after compiler moment event).trans (ih _)

theorem answerAt_of_lookup {moment : Moment} {mount : Mount} {html : String}
    (h : moment.cache.lookup (cacheKey mount) = some html) :
    compiler.answerAt moment mount = .ok html := by
  cases mount with
  | mk declaration overrides imports children => rw [answerAt, run_compile, h]

/-- A call, whether it succeeds or fails, leaves every entry of the cache as it was. If it is answered
with markup, this is the entry of the mount from then on, and whatever is compiled and whichever
files are changed afterwards, every call for the same component with the same values is answered
with this markup. -/
theorem cache_kept (moment : Moment) (mount : Mount) :
    (∀ key html, moment.cache.lookup key = some html →
      (compiler.after moment (.compile mount)).cache.lookup key = some html) ∧
    ∀ html, compiler.answerAt moment mount = .ok html →
      (compiler.after moment (.compile mount)).cache.lookup (cacheKey mount) = some html ∧
      ∀ (events : List Event) (other : Mount), cacheKey other = cacheKey mount →
        compiler.answerAt (events.foldl compiler.after (compiler.after moment (.compile mount)))
          other = .ok html := by
  refine ⟨extends_after compiler moment (.compile mount), fun html hanswer => ?_⟩
  have hentry : (compiler.after moment (.compile mount)).cache.lookup (cacheKey mount) = some html :=
    lookup_of_compile moment.cache hanswer
  refine ⟨hentry, fun events other hkey => answerAt_of_lookup compiler ?_⟩
  rw [hkey]
  exact extends_foldl compiler _ events _ _ hentry

end History

/-- A leaf that was compiled before its file was deleted, and before a box could not be compiled for
want of its own. -/
theorem leaf_outlives_its_file :
    (boxCompiler "box").answerAt ⟨boxDisk, []⟩ (box "box" "leaf" []) = .ok "<i></i>" ∧
      (boxCompiler "box").answerAt
        ([.edit ⟨[], []⟩, .compile (box "box" "b" [])].foldl (boxCompiler "box").after
          ((boxCompiler "box").after ⟨boxDisk, []⟩ (.compile (box "box" "leaf" []))))
        (box "box" "leaf" []) = .ok "<i></i>" := by
  have hread : Files.read boxDisk (box "box" "leaf" []).declaration.template = .ok "<i></i>" :=
    read_boxDisk "leaf.html" rfl (by decide) (by decide) (by decide) rfl
  have hanswer : (boxCompiler "box").answerAt ⟨boxDisk, []⟩ (box "box" "leaf" []) = .ok "<i></i>" :=
    congrArg Prod.fst (run_compile_plain rfl hread rfl rfl)
  obtain ⟨-, hkept⟩ := cache_kept (boxCompiler "box") ⟨boxDisk, []⟩ (box "box" "leaf" [])
  exact ⟨hanswer, (hkept "<i></i>" hanswer).2 _ _ rfl⟩

end SiteTree.Compiler
