import SiteTree.Job
import SiteTree.Proofs.Outcome

/-!
# Laws of jobs

What the basic jobs do to a session, and what they can fail with. A job that only reads is the look
at the disk that it takes; such jobs can be put together before the disk is known. What a job keeps
true of the disk, and whether it succeeds, can be told from its steps.

* `Job.reading_bind`, `Job.mapM_reading` — looks that follow one another are one look.
* `Job.Keeps`, `Job.Gives`, `Job.Fails` — what jobs do to the disk, step by step.
-/

namespace SiteTree.Job

variable {α β : Type}

/-! ### Basic jobs -/

theorem ext {first second : Job α}
    (h : ∀ session, first.run.run session = second.run.run session) : first = second :=
  funext h

theorem run_ofExcept (result : Except Failure α) (session : Session) :
    (Job.ofExcept result).run.run session = (result, session) := by
  cases result with
  | ok value => rfl
  | error failure => rfl

theorem run_disk (session : Session) :
    Job.disk.run.run session = (.ok session.disk, session) :=
  rfl

theorem run_change (step : Disk → Except DiskError Disk) (refused : DiskError → Failure)
    (session : Session) :
    (change step refused).run.run session
      = match step session.disk with
        | .ok disk => (.ok (), { session with disk })
        | .error error => (.error (refused error), session) := by
  rw [change, run_bind, run_disk]
  dsimp only
  cases step session.disk with
  | ok disk => rfl
  | error error => rfl

theorem run_changeAnyway (steps : Disk → Option DiskError × Disk) (refused : DiskError → Failure)
    (session : Session) :
    (changeAnyway steps refused).run.run session
      = (match (steps session.disk).1 with
          | none => .ok ()
          | some error => .error (refused error),
        { session with disk := (steps session.disk).2 }) := by
  rw [changeAnyway, run_bind, run_disk]
  dsimp only
  rcases steps session.disk with ⟨_ | error, disk⟩
  · rfl
  · rfl

/-! ### Jobs that only read -/

/-- Looks something up on the disk. -/
def reading (read : Disk → Except Failure α) : Job α := do
  Job.ofExcept (read (← Job.disk))

theorem run_reading (read : Disk → Except Failure α) (session : Session) :
    (reading read).run.run session = (read session.disk, session) := by
  rw [reading, run_bind, run_disk]
  exact run_ofExcept _ session

theorem reading_bind (read : Disk → Except Failure α) (next : α → Disk → Except Failure β) :
    (reading read >>= fun value => reading (next value))
      = reading fun disk => read disk >>= fun value => next value disk := by
  refine ext fun session => ?_
  rw [run_bind, run_reading, run_reading]
  cases read session.disk with
  | error failure => rfl
  | ok value => exact run_reading _ session

theorem pure_eq_reading (value : α) : (pure value : Job α) = reading fun _ => .ok value :=
  ext fun session => (run_reading (fun _ => .ok value) session).symm

theorem mapM_reading {γ : Type} (read : Disk → γ → Except Failure α) (items : List γ) :
    (items.mapM fun item => reading fun disk => read disk item)
      = reading fun disk => items.mapM (read disk) := by
  induction items with
  | nil => exact pure_eq_reading []
  | cons item items ih =>
    simp only [List.mapM_cons, ih, pure_eq_reading, reading_bind]
    rfl

/-! ### What jobs can fail with -/

section FailsOnly

variable {allowed : Failure → Prop}

theorem stepFailsOnly_ofExcept {result : Except Failure α} (h : FailsOnly allowed result) :
    StepFailsOnly allowed (ofExcept result) := by
  intro session
  rw [run_ofExcept]
  exact h

theorem stepFailsOnly_disk : StepFailsOnly allowed disk :=
  fun session => failsOnly_ok session.disk

theorem stepFailsOnly_reading {read : Disk → Except Failure α}
    (h : ∀ disk, FailsOnly allowed (read disk)) : StepFailsOnly allowed (reading read) :=
  stepFailsOnly_disk.bind fun disk => stepFailsOnly_ofExcept (h disk)

theorem stepFailsOnly_log (module message : String) :
    StepFailsOnly allowed (log module message) :=
  fun _ => failsOnly_ok ()

theorem stepFailsOnly_change (step : Disk → Except DiskError Disk) {refused : DiskError → Failure}
    (h : ∀ error, allowed (refused error)) : StepFailsOnly allowed (change step refused) := by
  intro session
  rw [run_change]
  split
  · exact failsOnly_ok ()
  · exact failsOnly_error (h _)

end FailsOnly

/-! ### What jobs leave true -/

/-- Does a disk with a property still have it after the job, however the job ends? -/
def Keeps (property : Disk → Prop) (job : Job α) : Prop :=
  ∀ session, property session.disk → property (job.run.run session).2.disk

section Keeps

variable {property : Disk → Prop}

theorem keeps_pure (value : α) : Keeps property (pure value : Job α) :=
  fun _ h => h

theorem keeps_throw (failure : Failure) : Keeps property (throw failure : Job α) :=
  fun _ h => h

theorem keeps_ofExcept (result : Except Failure α) : Keeps property (ofExcept result) := by
  intro session h
  rw [run_ofExcept]
  exact h

theorem keeps_log (module message : String) : Keeps property (log module message) :=
  fun _ h => h

/-- What comes next can rely on what is known of the answer. -/
theorem Keeps.bind {step : Job α} {next : α → Job β} (h : Keeps property step)
    (hnext : ∀ session value later, property session.disk →
      step.run.run session = (.ok value, later) → Keeps property (next value)) :
    Keeps property (step >>= next) := by
  intro session hsession
  have hlater := h session hsession
  rw [run_bind]
  rcases hstep : step.run.run session with ⟨failure | value, later⟩
  · rw [hstep] at hlater
    exact hlater
  · rw [hstep] at hlater
    exact hnext session value later hsession hstep later hlater

theorem Keeps.andThen {step : Job α} {next : α → Job β} (h : Keeps property step)
    (hnext : ∀ value, Keeps property (next value)) : Keeps property (step >>= next) :=
  h.bind fun _ value _ _ _ => hnext value

theorem keeps_disk_bind {next : Disk → Job α}
    (h : ∀ disk, property disk → Keeps property (next disk)) :
    Keeps property (disk >>= next) := by
  intro session hsession
  rw [run_bind, run_disk]
  exact h session.disk hsession session hsession

theorem keeps_reading (read : Disk → Except Failure α) : Keeps property (reading read) :=
  keeps_disk_bind fun disk _ => keeps_ofExcept (read disk)

theorem Keeps.within {job : Job α} (h : Keeps property job) (context : String) :
    Keeps property (job.within context) := by
  intro session hsession
  rw [Job.within, run_adapt]
  exact h session hsession

theorem keeps_change {step : Disk → Except DiskError Disk} (refused : DiskError → Failure)
    (h : ∀ disk after, property disk → step disk = .ok after → property after) :
    Keeps property (change step refused) := by
  intro session hsession
  rw [run_change]
  cases hstep : step session.disk with
  | ok disk => exact h session.disk disk hsession hstep
  | error error => exact hsession

theorem keeps_changeAnyway {steps : Disk → Option DiskError × Disk} (refused : DiskError → Failure)
    (h : ∀ disk, property disk → property (steps disk).2) :
    Keeps property (changeAnyway steps refused) := by
  intro session hsession
  rw [run_changeAnyway]
  exact h session.disk hsession

theorem keeps_mapM {γ : Type} {step : γ → Job α} {items : List γ}
    (h : ∀ item ∈ items, Keeps property (step item)) : Keeps property (items.mapM step) := by
  induction items with
  | nil => exact keeps_pure []
  | cons item items ih =>
    rw [List.mapM_cons]
    refine (h item List.mem_cons_self).andThen fun value => ?_
    exact (ih fun other hother => h other (List.mem_cons_of_mem _ hother)).andThen
      fun values => keeps_pure (value :: values)

theorem keeps_forIn {γ : Type} {body : γ → PUnit → Job (ForInStep PUnit)} {items : List γ}
    (h : ∀ item ∈ items, Keeps property (body item ⟨⟩)) :
    Keeps property (forIn items PUnit.unit body) := by
  induction items with
  | nil => exact keeps_pure PUnit.unit
  | cons item items ih =>
    rw [List.forIn_cons]
    refine (h item List.mem_cons_self).andThen fun answer => ?_
    cases answer with
    | done value => exact keeps_pure value
    | yield value => exact ih fun other hother => h other (List.mem_cons_of_mem _ hother)

end Keeps

/-! ### Jobs that succeed -/

/-- The job succeeds on a disk and leaves another one, whatever was written to the console before. -/
def Gives (job : Job α) (before : Disk) (value : α) (after : Disk) : Prop :=
  ∀ console, ∃ later, job.run.run ⟨before, console⟩ = (.ok value, ⟨after, later⟩)

section Gives

variable {before middle after : Disk} {value : α}

theorem gives_pure (value : α) (disk : Disk) : Gives (pure value) disk value disk :=
  fun console => ⟨console, rfl⟩

theorem gives_log (module message : String) (disk : Disk) :
    Gives (log module message) disk () disk :=
  fun _ => ⟨_, rfl⟩

theorem Gives.bind {step : Job α} {next : α → Job β} {result : β} (h : Gives step before value middle)
    (hnext : Gives (next value) middle result after) : Gives (step >>= next) before result after := by
  intro console
  obtain ⟨console, hstep⟩ := h console
  rw [run_bind, hstep]
  exact hnext console

theorem gives_disk_bind {next : Disk → Job α} (h : Gives (next before) before value after) :
    Gives (disk >>= next) before value after := by
  intro console
  rw [run_bind, run_disk]
  exact h console

theorem gives_ofExcept {result : Except Failure α} (h : result = .ok value) (disk : Disk) :
    Gives (ofExcept result) disk value disk := by
  intro console
  rw [run_ofExcept, h]
  exact ⟨console, rfl⟩

theorem Gives.within {job : Job α} (h : Gives job before value after) (context : String) :
    Gives (job.within context) before value after := by
  intro console
  obtain ⟨console, hrun⟩ := h console
  rw [Job.within, run_adapt, hrun]
  exact ⟨console, rfl⟩

theorem gives_change {step : Disk → Except DiskError Disk} (refused : DiskError → Failure)
    (h : step before = .ok after) : Gives (change step refused) before () after := by
  intro console
  rw [run_change, h]
  exact ⟨console, rfl⟩

theorem gives_changeAnyway {steps : Disk → Option DiskError × Disk} (refused : DiskError → Failure)
    (h : steps before = (none, after)) : Gives (changeAnyway steps refused) before () after := by
  intro console
  rw [run_changeAnyway, h]
  exact ⟨console, rfl⟩

/-- A loop succeeds if each turn does, given what the turns before it leave true. -/
theorem gives_forIn {γ : Type} {body : γ → PUnit → Job (ForInStep PUnit)} {items : List γ}
    (holds : List γ → Disk → Prop)
    (hturn : ∀ done item rest disk, items = done ++ item :: rest → holds done disk →
      ∃ later, Gives (body item ⟨⟩) disk (.yield ⟨⟩) later ∧ holds (done ++ [item]) later)
    (hstart : holds [] before) :
    ∃ after, Gives (forIn items PUnit.unit body) before PUnit.unit after ∧ holds items after := by
  have hloop : ∀ done rest disk, items = done ++ rest → holds done disk →
      ∃ after, Gives (forIn rest PUnit.unit body) disk PUnit.unit after ∧ holds items after := by
    intro done rest
    induction rest generalizing done with
    | nil =>
      intro disk hitems hdone
      rw [hitems, List.append_nil]
      exact ⟨disk, gives_pure _ disk, hdone⟩
    | cons item rest ih =>
      intro disk hitems hdone
      obtain ⟨later, hbody, hlater⟩ := hturn done item rest disk hitems hdone
      obtain ⟨after, hrest, hafter⟩ := ih (done ++ [item]) later (by simp [hitems]) hlater
      rw [List.forIn_cons]
      exact ⟨after, hbody.bind hrest, hafter⟩
  exact hloop [] items before rfl hstart

/-- What comes behind a step that succeeds is run on the disk that the step leaves. -/
theorem Gives.exists_run {step : Job α} {next : α → Job β} {session last : Session}
    {result : Except Failure β} (h : Gives step session.disk value middle)
    (hrun : (step >>= next).run.run session = (result, last)) :
    ∃ console, (next value).run.run ⟨middle, console⟩ = (result, last) := by
  obtain ⟨console, hstep⟩ := h session.console
  rw [run_bind, hstep] at hrun
  exact ⟨console, hrun⟩

/-- The job fails on a disk, whatever was written to the console before. -/
def Fails (job : Job α) (disk : Disk) : Prop :=
  ∀ console, ∃ failure later, job.run.run ⟨disk, console⟩ = (.error failure, later)

theorem fails_ofExcept {result : Except Failure α} {failure : Failure} (h : result = .error failure)
    (disk : Disk) : Fails (ofExcept result) disk := by
  intro console
  rw [run_ofExcept, h]
  exact ⟨failure, _, rfl⟩

theorem fails_change {step : Disk → Except DiskError Disk} (refused : DiskError → Failure)
    {error : DiskError} (h : step before = .error error) : Fails (change step refused) before := by
  intro console
  rw [run_change, h]
  exact ⟨_, _, rfl⟩

theorem fails_changeAnyway {steps : Disk → Option DiskError × Disk} (refused : DiskError → Failure)
    {error : DiskError} (h : (steps before).1 = some error) :
    Fails (changeAnyway steps refused) before := by
  intro console
  rw [run_changeAnyway]
  dsimp only
  rw [h]
  exact ⟨_, _, rfl⟩

theorem Fails.bind {step : Job α} (h : Fails step before) (next : α → Job β) :
    Fails (step >>= next) before := by
  intro console
  obtain ⟨failure, later, hstep⟩ := h console
  rw [run_bind, hstep]
  exact ⟨failure, later, rfl⟩

/-- What fails on every disk fails whatever comes before it. -/
theorem fails_bind {next : α → Job β} (step : Job α) (h : ∀ value disk, Fails (next value) disk)
    (disk : Disk) : Fails (step >>= next) disk := by
  intro console
  rw [run_bind]
  rcases step.run.run ⟨disk, console⟩ with ⟨_ | value, ⟨later, lines⟩⟩
  · exact ⟨_, _, rfl⟩
  · exact h value later lines

theorem Gives.bind_fails {step : Job α} {next : α → Job β} (h : Gives step before value middle)
    (hnext : Fails (next value) middle) : Fails (step >>= next) before := by
  intro console
  obtain ⟨console, hstep⟩ := h console
  rw [run_bind, hstep]
  exact hnext console

theorem fails_disk_bind {next : Disk → Job α} (h : Fails (next before) before) :
    Fails (disk >>= next) before := by
  intro console
  rw [run_bind, run_disk]
  exact h console

/-- What a loop leaves true when it succeeds, if each turn fails or leaves it true. -/
theorem holds_of_forIn {γ : Type} {body : γ → PUnit → Job (ForInStep PUnit)} {items : List γ}
    (holds : List γ → Disk → Prop)
    (hturn : ∀ done item rest disk, items = done ++ item :: rest → holds done disk →
      Fails (body item ⟨⟩) disk ∨
        ∃ later, Gives (body item ⟨⟩) disk (.yield ⟨⟩) later ∧ holds (done ++ [item]) later)
    {session last : Session} {value : PUnit} (hstart : holds [] session.disk)
    (hrun : (forIn items PUnit.unit body).run.run session = (.ok value, last)) :
    holds items last.disk := by
  have hloop : ∀ done rest (session : Session), items = done ++ rest → holds done session.disk →
      (forIn rest PUnit.unit body).run.run session = (.ok value, last) → holds items last.disk := by
    intro done rest
    induction rest generalizing done with
    | nil =>
      intro session hitems hdone hrun
      cases hrun
      rwa [hitems, List.append_nil]
    | cons item rest ih =>
      intro session hitems hdone hrun
      rw [List.forIn_cons] at hrun
      rcases hturn done item rest session.disk hitems hdone with hfails | ⟨later, hbody, hlater⟩
      · obtain ⟨failure, later, hfail⟩ := hfails.bind _ session.console
        rw [hfail] at hrun
        cases hrun
      · obtain ⟨console, hrest⟩ := hbody.exists_run hrun
        exact ih (done ++ [item]) ⟨later, console⟩ (by simp [hitems]) hlater hrest
  exact hloop [] items session rfl hstart hrun

end Gives

end SiteTree.Job
