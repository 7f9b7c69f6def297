/-!
# Runs that can fail

A step that can fail and keeps a state is run from a state: the run ends with a value or a
failure, and with the state that the step leaves in either case.
-/

namespace SiteTree

variable {ε σ α β : Type}

theorem run_bind (step : ExceptT ε (StateM σ) α) (next : α → ExceptT ε (StateM σ) β) (state : σ) :
    (step >>= next).run.run state
      = match step.run.run state with
        | (.ok value, later) => (next value).run.run later
        | (.error failure, later) => (.error failure, later) := by
  rw [ExceptT.run_bind, StateT.run_bind]
  rcases step.run.run state with ⟨_ | value, later⟩
  · rfl
  · rfl

theorem run_adapt (context : ε → ε) (step : ExceptT ε (StateM σ) α) (state : σ) :
    (ExceptT.adapt context step).run.run state
      = ((step.run.run state).1.mapError context, (step.run.run state).2) := by
  change (Except.mapError context <$> step.run).run state = _
  rw [StateT.run_map]
  rfl

theorem run_tryCatch (step : ExceptT ε (StateM σ) α) (handle : ε → ExceptT ε (StateM σ) α)
    (state : σ) :
    (tryCatch step handle).run.run state
      = match step.run.run state with
        | (.ok value, later) => (.ok value, later)
        | (.error failure, later) => (handle failure).run.run later := by
  rw [ExceptT.run_tryCatch, StateT.run_bind]
  rcases step.run.run state with ⟨_ | value, later⟩
  · rfl
  · rfl

/-- Where one step after another succeeds, each of them does. -/
theorem run_bind_eq_ok {step : ExceptT ε (StateM σ) α} {next : α → ExceptT ε (StateM σ) β}
    {state last : σ} {result : β} (h : (step >>= next).run.run state = (.ok result, last)) :
    ∃ value later, step.run.run state = (.ok value, later) ∧
      (next value).run.run later = (.ok result, last) := by
  rw [run_bind] at h
  rcases hstep : step.run.run state with ⟨failure | value, later⟩
  · rw [hstep] at h
    cases h
  · rw [hstep] at h
    exact ⟨value, later, rfl, h⟩

/-! ### What can go wrong -/

/-- If the result is a failure, it is one that is allowed. -/
def FailsOnly (allowed : ε → Prop) (result : Except ε α) : Prop :=
  ∀ failure, result = .error failure → allowed failure

/-- Every run of the step fails in an allowed way, if it fails. -/
def StepFailsOnly (allowed : ε → Prop) (step : ExceptT ε (StateM σ) α) : Prop :=
  ∀ state, FailsOnly allowed (step.run.run state).1

section FailsOnly

variable {allowed : ε → Prop}

theorem failsOnly_ok (value : α) : FailsOnly allowed (.ok value : Except ε α) :=
  nofun

theorem failsOnly_error {failure : ε} (h : allowed failure) :
    FailsOnly allowed (.error failure : Except ε α) := by
  intro other hother
  cases hother
  exact h

theorem FailsOnly.bind {result : Except ε α} {next : α → Except ε β}
    (h : FailsOnly allowed result) (hnext : ∀ value, FailsOnly allowed (next value)) :
    FailsOnly allowed (result >>= next) := by
  cases result with
  | error failure => exact failsOnly_error (h failure rfl)
  | ok value => exact hnext value

theorem failsOnly_mapM {γ : Type} {read : γ → Except ε α} {items : List γ}
    (h : ∀ item ∈ items, FailsOnly allowed (read item)) :
    FailsOnly allowed (items.mapM read) := by
  induction items with
  | nil => exact failsOnly_ok []
  | cons item items ih =>
    rw [List.mapM_cons]
    refine (h item List.mem_cons_self).bind fun value => ?_
    exact (ih fun other hother => h other (List.mem_cons_of_mem _ hother)).bind
      fun values => failsOnly_ok (value :: values)

theorem stepFailsOnly_pure (value : α) :
    StepFailsOnly allowed (pure value : ExceptT ε (StateM σ) α) :=
  fun _ => failsOnly_ok value

theorem stepFailsOnly_throw {failure : ε} (h : allowed failure) :
    StepFailsOnly allowed (throw failure : ExceptT ε (StateM σ) α) :=
  fun _ => failsOnly_error h

theorem StepFailsOnly.bind {step : ExceptT ε (StateM σ) α} {next : α → ExceptT ε (StateM σ) β}
    (h : StepFailsOnly allowed step) (hnext : ∀ value, StepFailsOnly allowed (next value)) :
    StepFailsOnly allowed (step >>= next) := by
  intro state
  have hstep := h state
  rw [run_bind]
  generalize step.run.run state = run at hstep
  rcases run with ⟨failure | value, later⟩
  · exact failsOnly_error (hstep failure rfl)
  · exact hnext value later

theorem StepFailsOnly.adapt {step : ExceptT ε (StateM σ) α} {context : ε → ε}
    (h : StepFailsOnly allowed step)
    (hcontext : ∀ failure, allowed failure → allowed (context failure)) :
    StepFailsOnly allowed (ExceptT.adapt context step) := by
  intro state
  have hstep := h state
  rw [run_adapt]
  cases hresult : (step.run.run state).1 with
  | error failure => exact failsOnly_error (hcontext failure (hstep failure hresult))
  | ok value => exact failsOnly_ok value

/-- What is caught does not matter for a step that throws something of its own. -/
theorem stepFailsOnly_tryCatch {step : ExceptT ε (StateM σ) α}
    {handle : ε → ExceptT ε (StateM σ) α} (h : ∀ failure, StepFailsOnly allowed (handle failure)) :
    StepFailsOnly allowed (tryCatch step handle) := by
  intro state
  rw [run_tryCatch]
  rcases step.run.run state with ⟨failure | value, later⟩
  · exact h failure later
  · exact failsOnly_ok value

theorem stepFailsOnly_mapM {γ : Type} {step : γ → ExceptT ε (StateM σ) α} {items : List γ}
    (h : ∀ item ∈ items, StepFailsOnly allowed (step item)) :
    StepFailsOnly allowed (items.mapM step) := by
  induction items with
  | nil => exact stepFailsOnly_pure []
  | cons item items ih =>
    rw [List.mapM_cons]
    refine (h item List.mem_cons_self).bind fun value => ?_
    exact (ih fun other hother => h other (List.mem_cons_of_mem _ hother)).bind
      fun values => stepFailsOnly_pure (value :: values)

end FailsOnly

/-! ### What can come out -/

/-- If the result is a value, it is one that is allowed. -/
def GivesOnly (allowed : α → Prop) (result : Except ε α) : Prop :=
  ∀ value, result = .ok value → allowed value

section GivesOnly

variable {allowed : α → Prop}

theorem givesOnly_ok {value : α} (h : allowed value) :
    GivesOnly allowed (.ok value : Except ε α) := by
  intro other hother
  cases hother
  exact h

theorem givesOnly_error (failure : ε) : GivesOnly allowed (.error failure : Except ε α) :=
  nofun

theorem GivesOnly.bind {result : Except ε α} {next : α → Except ε β} {last : β → Prop}
    (h : GivesOnly allowed result) (hnext : ∀ value, allowed value → GivesOnly last (next value)) :
    GivesOnly last (result >>= next) := by
  cases result with
  | error failure => exact givesOnly_error failure
  | ok value => exact hnext value (h value rfl)

theorem GivesOnly.map {result : Except ε α} {f : α → β} {last : β → Prop}
    (h : GivesOnly allowed result) (hf : ∀ value, allowed value → last (f value)) :
    GivesOnly last (result.map f) := by
  cases result with
  | error failure => exact givesOnly_error failure
  | ok value => exact givesOnly_ok (hf value (h value rfl))

/-- Nothing is asked of what comes out. -/
theorem givesOnly_any (result : Except ε α) : GivesOnly (fun _ => True) result :=
  fun _ _ => trivial

theorem givesOnly_mapM {γ : Type} {read : γ → Except ε α} {items : List γ}
    (h : ∀ item ∈ items, GivesOnly allowed (read item)) :
    GivesOnly (fun values => ∀ value ∈ values, allowed value) (items.mapM read) := by
  induction items with
  | nil => exact givesOnly_ok nofun
  | cons item items ih =>
    rw [List.mapM_cons]
    refine (h item List.mem_cons_self).bind fun value hvalue => ?_
    refine (ih fun other hother => h other (List.mem_cons_of_mem _ hother)).bind
      fun values hvalues => givesOnly_ok ?_
    exact List.forall_mem_cons.mpr ⟨hvalue, hvalues⟩

end GivesOnly

/-! ### Results without their failures -/

theorem toOption_eq_some_iff {result : Except ε α} {value : α} :
    result.toOption = some value ↔ result = .ok value := by
  cases result with
  | error failure => simp [Except.toOption]
  | ok found => simp [Except.toOption]

theorem exists_error_of_toOption {result : Except ε α} (h : result.toOption = none) :
    ∃ failure, result = .error failure := by
  cases result with
  | error failure => exact ⟨failure, rfl⟩
  | ok value => cases h

theorem toOption_bind (result : Except ε α) (next : α → Except ε β) :
    (result >>= next).toOption = result.toOption.bind fun value => (next value).toOption := by
  cases result with
  | error failure => rfl
  | ok value => rfl

theorem exists_of_bind_eq_ok {result : Except ε α} {next : α → Except ε β} {last : β}
    (h : result >>= next = .ok last) : ∃ value, result = .ok value ∧ next value = .ok last := by
  cases result with
  | error failure => cases h
  | ok value => exact ⟨value, rfl, h⟩

theorem bind_eq_error {result : Except ε α} {next : α → Except ε β} {error : ε}
    (h : result >>= next = .error error) :
    result = .error error ∨ ∃ value, result = .ok value ∧ next value = .error error := by
  cases result with
  | error failure =>
    cases h
    exact .inl rfl
  | ok value => exact .inr ⟨value, rfl, h⟩

theorem toOption_mapM_congr {γ : Type} {first second : γ → Except ε α} {items : List γ}
    (h : ∀ item ∈ items, (first item).toOption = (second item).toOption) :
    (items.mapM first).toOption = (items.mapM second).toOption := by
  induction items with
  | nil => rfl
  | cons item items ih =>
    simp only [List.mapM_cons, toOption_bind, h item List.mem_cons_self,
      ih fun other hother => h other (List.mem_cons_of_mem _ hother)]

/-- A list of results is there if each of them is, and then they are what the steps give. -/
theorem mapM_congr_of_ok {γ : Type} {first second : γ → Except ε α} {items : List γ}
    {results : List α} (h : items.mapM first = .ok results)
    (hsecond : ∀ item ∈ items, ∀ result, first item = .ok result → second item = .ok result) :
    items.mapM second = .ok results := by
  induction items generalizing results with
  | nil => exact h
  | cons item items ih =>
    rw [List.mapM_cons] at h ⊢
    obtain ⟨result, hresult, h⟩ := exists_of_bind_eq_ok h
    obtain ⟨others, hothers, h⟩ := exists_of_bind_eq_ok h
    rw [hsecond item List.mem_cons_self result hresult,
      ih hothers fun other hmem => hsecond other (List.mem_cons_of_mem _ hmem)]
    exact h

theorem exists_ok_of_mapM {γ : Type} {step : γ → Except ε α} {items : List γ} {results : List α}
    (h : items.mapM step = .ok results) {item : γ} (hitem : item ∈ items) :
    ∃ result, step item = .ok result := by
  induction items generalizing results with
  | nil => cases hitem
  | cons first items ih =>
    rw [List.mapM_cons] at h
    obtain ⟨result, hresult, h⟩ := exists_of_bind_eq_ok h
    obtain ⟨others, hothers, -⟩ := exists_of_bind_eq_ok h
    rcases List.mem_cons.mp hitem with rfl | hitem
    · exact ⟨result, hresult⟩
    · exact ih hothers hitem

theorem exists_of_mem_mapM {γ : Type} {step : γ → Except ε α} {items : List γ} {results : List α}
    (h : items.mapM step = .ok results) {result : α} (hresult : result ∈ results) :
    ∃ item ∈ items, step item = .ok result := by
  have hgives : GivesOnly (fun results => ∀ result ∈ results, ∃ item ∈ items, step item = .ok result)
      (items.mapM step) := givesOnly_mapM fun item hitem value hvalue => ⟨item, hitem, hvalue⟩
  exact hgives results h result hresult

/-- Steps of which one fails: those before it do not. -/
theorem exists_of_mapM_eq_error {γ : Type} {step : γ → Except ε α} {items : List γ} {error : ε}
    (h : items.mapM step = .error error) :
    ∃ before item after, items = before ++ item :: after ∧ step item = .error error ∧
      ∀ earlier ∈ before, ∃ result, step earlier = .ok result := by
  induction items with
  | nil => cases h
  | cons item items ih =>
    rw [List.mapM_cons] at h
    rcases bind_eq_error h with hitem | ⟨result, hitem, h⟩
    · exact ⟨[], item, items, rfl, hitem, nofun⟩
    · rcases bind_eq_error h with hitems | ⟨results, -, h⟩
      · obtain ⟨before, found, after, rfl, hfound, hbefore⟩ := ih hitems
        exact ⟨item :: before, found, after, rfl, hfound,
          List.forall_mem_cons.mpr ⟨⟨result, hitem⟩, hbefore⟩⟩
      · cases h

end SiteTree
