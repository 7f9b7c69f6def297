import SiteTree.Build
import SiteTree.Proofs.Job

/-!
# Steps of a build

A step does to the disk what its job does. It says so on the console, and its failures name it.
-/

namespace SiteTree

theorem Job.run_log (module message : String) (session : Session) :
    (Job.log module message).run.run session
      = (.ok (), { session with
          console := session.console ++ [Console.line false module message] }) :=
  rfl

namespace Build

variable {α : Type}

/-- What is said before a step is taken. -/
def announced (module name : String) (session : Session) : Session :=
  { session with
    console := session.console ++ [Console.line false module (name ++ "...")] }

/-- A step ends as its job does, with other lines on the console. -/
theorem exists_run_step (module name : String) (job : Job α) (session : Session) :
    ∃ console, (step module name job).run.run session
      = ((job.run.run (announced module name session)).1.mapError
          (Failure.within ("failed step '" ++ name ++ "'")),
        { (job.run.run (announced module name session)).2 with console }) := by
  have hannounced : (Job.log module (name ++ "...")).run.run session
      = (.ok (), announced module name session) := rfl
  rw [step, run_bind, hannounced]
  dsimp only
  rw [run_bind, run_tryCatch]
  rcases job.run.run (announced module name session) with ⟨failure | value, later⟩
  · exact ⟨_, rfl⟩
  · exact ⟨_, rfl⟩

/-- What was there before a step shows only in what its job does. -/
theorem run_step_congr {module name : String} {job : Job α} {first second : Session}
    (h : job.run.run (announced module name first) = job.run.run (announced module name second)) :
    (step module name job).run.run first = (step module name job).run.run second := by
  have hannounced : ∀ session, (Job.log module (name ++ "...")).run.run session
      = (.ok (), announced module name session) := fun _ => rfl
  rw [step, run_bind, run_bind, hannounced, hannounced]
  dsimp only
  rw [run_bind, run_bind, run_tryCatch, run_tryCatch, h]

theorem disk_step (module name : String) (job : Job α) (session : Session) :
    ((step module name job).run.run session).2.disk
      = (job.run.run (announced module name session)).2.disk := by
  obtain ⟨console, hrun⟩ := exists_run_step module name job session
  rw [hrun]

theorem keeps_step {property : Disk → Prop} {job : Job α} (h : Job.Keeps property job)
    (module name : String) : Job.Keeps property (step module name job) := by
  intro session hsession
  rw [disk_step]
  exact h (announced module name session) hsession

theorem gives_step {job : Job α} {before after : Disk} {value : α}
    (h : Job.Gives job before value after) (module name : String) :
    Job.Gives (step module name job) before value after := by
  intro console
  obtain ⟨later, hrun⟩ := exists_run_step module name job ⟨before, console⟩
  obtain ⟨_, hjob⟩ := h (console ++ [Console.line false module (name ++ "...")])
  rw [announced, hjob] at hrun
  exact ⟨later, hrun⟩

theorem fails_step {job : Job α} {disk : Disk} (h : Job.Fails job disk) (module name : String) :
    Job.Fails (step module name job) disk := by
  intro console
  obtain ⟨later, hrun⟩ := exists_run_step module name job ⟨disk, console⟩
  obtain ⟨failure, ended, hjob⟩ := h (console ++ [Console.line false module (name ++ "...")])
  rw [announced, hjob] at hrun
  exact ⟨_, _, hrun⟩

theorem run_of_step {module name : String} {job : Job α} {session later : Session} {value : α}
    (h : (step module name job).run.run session = (.ok value, later)) :
    ∃ ended, job.run.run (announced module name session) = (.ok value, ended) ∧
      ended.disk = later.disk := by
  obtain ⟨console, hrun⟩ := exists_run_step module name job session
  rw [hrun] at h
  generalize job.run.run (announced module name session) = run at h
  obtain ⟨_ | result, ended⟩ := run
  · cases h
  · cases h
    exact ⟨ended, rfl, rfl⟩

end Build

end SiteTree
