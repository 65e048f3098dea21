import Marginalia.Proofs.Console.Stream

/-! Calls that keep their failures from the caller. Such a call does to the destination what the
call that reports to its caller would have done in its place, in every state of the logger and so
all along a run, and the failure is named in a diagnostic instead. -/
namespace Marginalia.Console

namespace Call

/-- The call with the same record that has its level for its own. -/
def muted (c : Call) : Call := .ofLevel c.level c.message c.now

/-- The call with the same record that tells its caller of failures. -/
def told (c : Call) : Call := .log c.level c.message c.now

end Call

/-- What a step that reports by diagnostics has in common with a step that reports to its caller,
and what it does with the failure. -/
structure Step.Mutes (level : Level) (muted told : Step) : Prop where
  calls : muted.calls = told.calls
  accepted : muted.accepted = told.accepted
  crashed : muted.answer = .crashed ↔ told.answer = .crashed
  /-- Whatever does not crash returns as if nothing had failed. -/
  done : muted.answer = .done ↔ told.answer ≠ .crashed
  /-- A failure becomes one diagnostic, which names the level and the error; there is no other. -/
  dropped : muted.dropped.map Dropped.text =
    match told.answer with
    | .failed e => some ("dropped " ++ level.name ++ " record: " ++ e.logMessage)
    | _ => none

namespace Logger

theorem mutes_call (l : Logger) (level : Level) (message : String) (now : Moment) :
    Step.Mutes level (l.call (.ofLevel level message now)).1
      (l.call (.log level message now)).1 := by
  rw [call_ofLevel_eq]
  constructor
  case calls => exact Step.calls_mute
  case accepted => exact Step.accepted_mute
  case crashed => exact Step.answer_mute_eq_crashed_iff
  case done =>
    exact Step.answer_mute_eq_done_iff (congrArg Step.answer (l.step_log level message now))
  case dropped =>
    rw [step_log]
    obtain ⟨_, _, ending, _⟩ := l.delivery (.log level message now)
    cases ending <;> simp [Step.mute, Ending.answer, Dropped.text]

/-- Whether failures are told does not change what is left behind. -/
theorem call_muted_snd (l : Logger) (c : Call) : (l.call c.muted).2 = (l.call c.told).2 := by
  rw [Call.muted, call_ofLevel_eq, Call.told]

theorem mutes_run (l : Logger) (calls : List Call) :
    (l.run (calls.map Call.muted)).2 = (l.run (calls.map Call.told)).2 ∧
      List.Forall₂ (fun c (steps : Step × Step) => Step.Mutes c.level steps.1 steps.2) calls
        ((l.run (calls.map Call.muted)).1.zip (l.run (calls.map Call.told)).1) := by
  induction calls generalizing l with
  | nil => exact ⟨rfl, .nil⟩
  | cons c calls ih =>
    -- Both ways leave the same logger for the calls that follow.
    rw [List.map_cons, List.map_cons, run_cons, run_cons, List.zip_cons_cons, call_muted_snd]
    obtain ⟨hstate, hsteps⟩ := ih (l.call c.told).2
    exact ⟨hstate, .cons (l.mutes_call c.level c.message c.now) hsteps⟩

/-- An error that ends the process does before all that an error does which does not. -/
theorem error_quit (l : Logger) (message : String) (now : Moment) :
    let last := l.error true message now
    let step := l.error false message now
    last.2 = step.2 ∧ last.1.calls = step.1.calls ∧ last.1.accepted = step.1.accepted ∧
      last.1.dropped = step.1.dropped ∧
      (last.1.answer = .crashed ↔ step.1.answer = .crashed) ∧
      (last.1.answer = .exited 1 ↔ step.1.answer = .done) := by
  have hmutes := l.mutes_call .error message now
  intro last step
  have hlast : last = (step.1.quit, step.2) := rfl
  have hdone : step.1.answer = .done ↔ step.1.answer ≠ .crashed :=
    hmutes.done.trans (not_congr hmutes.crashed).symm
  rw [hlast, hdone, Step.quit]
  split_ifs with hcrashed
  · simp [hcrashed]
  · simp [hcrashed]

/-- A call that reports by diagnostics makes the same calls on the destination as the call that
reports to its caller, has the same bytes accepted, leaves the same logger behind, crashes with it
and otherwise returns; it emits one diagnostic, with the error that the other returns, when that
one fails, and else none. It does so in every state of the logger, and at every point of a run. -/
theorem run_mutes_failures (l : Logger) :
    (∀ level message now,
      let muted := l.call (.ofLevel level message now)
      let told := l.call (.log level message now)
      muted.2 = told.2 ∧ Step.Mutes level muted.1 told.1) ∧
    ∀ calls : List Call,
      let muted := l.run (calls.map Call.muted)
      let told := l.run (calls.map Call.told)
      muted.2 = told.2 ∧
        List.Forall₂ (fun c (steps : Step × Step) => Step.Mutes c.level steps.1 steps.2) calls
          (muted.1.zip told.1) := by
  constructor
  · intro level message now
    refine ⟨?_, l.mutes_call level message now⟩
    rw [call_ofLevel_eq]
  · intro calls
    exact l.mutes_run calls

end Logger

end Marginalia.Console
