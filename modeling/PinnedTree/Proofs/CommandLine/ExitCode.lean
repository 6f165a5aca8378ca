import PinnedTree.CommandLine.Run
import PinnedTree.Proofs.Trace

namespace PinnedTree

inductive Cause.IsConfig : Cause → Prop
  | plain (e : ConfigError) : IsConfig (.config e)
  | wrapped (e : ConfigError) : IsConfig (.sync (.config e))

namespace Failure

def origin : Failure → Cause
  | .ofCause cause => cause
  | .inContext _ inner => inner.origin

variable {cause : Cause}

theorem undecided_behind (undecided : cause.exitCode? = none) {behind : Cause}
    (listed : behind ∈ cause.causes) : behind.exitCode? = none := by
  cases cause with
  | text message =>
    obtain rfl := List.mem_singleton.mp listed
    rfl
  | io fault =>
    obtain rfl := List.mem_singleton.mp listed
    rfl
  | config error => cases undecided
  | sync error => cases error <;> cases undecided
  | fetch error =>
    -- only two of these errors have a source, and a source is a fault or a text
    cases error with
    | io source | git source =>
      obtain rfl | rfl := by simpa [Cause.causes] using listed
      · rfl
      · rfl
    | _ =>
      obtain rfl := List.mem_singleton.mp listed
      rfl

theorem causes_head (cause : Cause) : cause.causes.head? = some cause := by
  cases cause with
  | config error => cases error <;> rfl
  | sync error => cases error <;> rfl
  | fetch error => cases error <;> rfl
  | text message => rfl
  | io fault => rfl

theorem exitCode_ofCause (cause : Cause) :
    (ofCause cause).exitCode = cause.exitCode?.getD exitError := by
  obtain ⟨rest, whole⟩ := List.head?_eq_some_iff.mp (causes_head cause)
  cases decided : cause.exitCode? with
  | some code => simp [exitCode, causes, whole, decided]
  | none =>
    have none : cause.causes.findSome? Cause.exitCode? = none :=
      List.findSome?_eq_none_iff.mpr fun behind listed => undecided_behind decided listed
    simp [exitCode, causes, none]

theorem exitCode_inContext (context : String) (inner : Failure) :
    (inContext context inner).exitCode = inner.exitCode := rfl

theorem exitCode_origin (failure : Failure) : failure.exitCode = (ofCause failure.origin).exitCode := by
  induction failure with
  | ofCause cause => rfl
  | inContext context inner ih => rw [exitCode_inContext, ih, origin]

theorem exitCode?_eq_config : cause.exitCode? = some exitConfigError ↔ cause.IsConfig := by
  constructor
  · intro decided
    cases cause with
    | config error => exact .plain error
    | sync error =>
      cases error with
      | config error => exact .wrapped error
      | state | locked | stateFile | pool => cases decided
    | text | io | fetch => cases decided
  · rintro (⟨error⟩ | ⟨error⟩) <;> rfl

theorem exitCode?_cases (cause : Cause) : cause.exitCode? = some exitConfigError ∨
    cause.exitCode? = some exitError ∨ cause.exitCode? = none := by
  cases cause with
  | sync error => cases error <;> simp [Cause.exitCode?]
  | _ => simp [Cause.exitCode?]

theorem exitCode_cases (failure : Failure) :
    (failure.exitCode = exitConfigError ∧ failure.origin.IsConfig) ∨
    (failure.exitCode = exitError ∧ ¬ failure.origin.IsConfig) := by
  rw [exitCode_origin, exitCode_ofCause, ← exitCode?_eq_config]
  rcases exitCode?_cases failure.origin with decided | decided | decided <;> rw [decided]
  · exact .inl ⟨rfl, rfl⟩
  · exact .inr ⟨rfl, by decide⟩
  · exact .inr ⟨rfl, by decide⟩

theorem not_exitCode_le_one (failure : Failure) : ¬ failure.exitCode ≤ 1 := by
  rcases exitCode_cases failure with ⟨code, -⟩ | ⟨code, -⟩ <;> rw [code] <;> decide

end Failure

namespace CommandLine

variable {terminal : Terminal} {checkout : Checkout} {options : SyncOptions}

def TellsReports {α : Type} (command : StateM World Result) (run : Action SyncError α) : Prop :=
  ∀ w, (command.run w).1.code ≤ 1 ↔ ∃ report, (run.exec w).1 = .ok report

abbrev syncIn (checkout : Checkout) (options : SyncOptions) : Action SyncError SyncReport :=
  sync checkout.root checkout.table options Backend.standard fun _ => pure ()

theorem runSync_code (w : World) : ((runSync terminal checkout options).run w).1.code =
    match ((syncIn checkout options).exec w).1 with
    | .error e => (Failure.ofCause (.sync e)).exitCode
    | .ok report => if report.isSuccess then exitSuccess else exitFailure := by
  have here : (get : StateM World World) w = (w, w) := rfl
  rcases ran : (syncIn checkout options).exec w with ⟨e | report, w'⟩
  · have ended : (syncIn checkout options).run w = (.error e, w') := ran
    simp only [runSync, StateT.run, bind, StateT.bind, here, ended]
    rfl
  · have ended : (syncIn checkout options).run w = (.ok report, w') := ran
    simp only [runSync, StateT.run, bind, StateT.bind, here, ended]
    rfl

theorem TellsReports.of_ends {α : Type} {run : Action SyncError α} {command : StateM World Result}
    (fails : ∀ {w w' : World} {e : SyncError}, run.run w = (.error e, w') →
      (command.run w).1.code = (Failure.ofCause (.sync e)).exitCode)
    (ends : ∀ {w w' : World} {report : α}, run.run w = (.ok report, w') →
      (command.run w).1.code ≤ 1) : TellsReports command run := by
  intro w
  rcases ran : run.exec w with ⟨e | report, w'⟩
  · rw [fails ran]
    exact iff_of_false (Failure.not_exitCode_le_one _) (by simp)
  · exact iff_of_true (ends ran) ⟨report, rfl⟩

theorem tellsReports_runSync :
    TellsReports (runSync terminal checkout options) (syncIn checkout options) := by
  refine .of_ends (fun {w w' e} ended => ?_) (fun {w w' report} ended => ?_)
  · have ran : (syncIn checkout options).exec w = (.error e, w') := ended
    rw [runSync_code, ran]
  · have ran : (syncIn checkout options).exec w = (.ok report, w') := ended
    rw [runSync_code, ran]
    dsimp only
    split <;> decide

theorem tellsReports_runStatus (only : List String) :
    TellsReports (runStatus terminal checkout only)
      (syncIn checkout { optionsFor checkout true none only with parallelism := 1 }) := by
  refine .of_ends (fun ended => ?_) (fun ended => ?_)
  · simp only [runStatus, StateT.run, bind, StateT.bind, ended]
    rfl
  · simp only [runStatus, StateT.run, bind, StateT.bind, ended]
    exact Nat.zero_le 1

theorem tellsReports_runPrune (dryRun : Bool) :
    TellsReports (runPrune terminal checkout dryRun)
      (prune checkout.root checkout.table dryRun) := by
  refine .of_ends (fun ended => ?_) (fun ended => ?_)
  · simp only [runPrune, StateT.run, bind, StateT.bind, ended]
    rfl
  · simp only [runPrune, StateT.run, bind, StateT.bind, ended]
    exact Nat.zero_le 1

end CommandLine

/-- An error has the code of the cause that was put into contexts: one code for what is wrong with the
table or the settings, by itself or as the reason of a run error, and one for all else. Neither is a code
of a run with a report, so the code of a command tells whether there was one. -/
theorem exitCode_classifies :
    (∀ failure : Failure,
      failure.exitCode = (Failure.ofCause failure.origin).exitCode ∧
      (failure.exitCode = 2 ↔ failure.origin.IsConfig) ∧
      (failure.exitCode = 3 ↔ ¬ failure.origin.IsConfig) ∧
      failure.exitCode ≠ 0 ∧ failure.exitCode ≠ 1) ∧
    ∀ (terminal : Terminal) (checkout : CommandLine.Checkout),
      (∀ options, CommandLine.TellsReports (CommandLine.runSync terminal checkout options)
        (CommandLine.syncIn checkout options)) ∧
      (∀ only, CommandLine.TellsReports (CommandLine.runStatus terminal checkout only)
        (CommandLine.syncIn checkout
          { CommandLine.optionsFor checkout true none only with parallelism := 1 })) ∧
      ∀ dryRun, CommandLine.TellsReports (CommandLine.runPrune terminal checkout dryRun)
        (prune checkout.root checkout.table dryRun) := by
  constructor
  · intro failure
    refine ⟨Failure.exitCode_origin failure, ?_⟩
    rcases failure.exitCode_cases with ⟨code, config⟩ | ⟨code, other⟩
    · simp [code, config, exitConfigError]
    · simp [code, other, exitError]
  · intro terminal checkout
    exact ⟨fun options => CommandLine.tellsReports_runSync,
      fun only => CommandLine.tellsReports_runStatus only,
      fun dryRun => CommandLine.tellsReports_runPrune dryRun⟩

end PinnedTree
