import PinnedTree.Proofs.Answer
import PinnedTree.Sync

namespace PinnedTree.Sync

open PinnedTree.Action

def Internal (e : SyncError) : Prop := ∀ fault, e ≠ .config fault

section Internal

variable {root : Location} {plan : Plan} {table : PinTable} {options : SyncOptions}
  {observer : Observer} {adopt : Bool}

theorem internal_state {path : String} (fault : IoFault) : Internal (.state path fault) := by
  intro _ impossible
  cases impossible

theorem tell_failsAs {ε : Type} {kind : ε → Prop} (event : Event) :
    (tell observer event : Action ε Unit).FailsAs kind := by
  intro w e impossible
  cases impossible

theorem ensure_failsAs : (Layout.ensure root).FailsAs Internal :=
  (FailsAs.reporting internal_state _).bind fun _ => FailsAs.reporting internal_state _

theorem lock_failsAs : (Layout.lock root).FailsAs Internal := by
  unfold Layout.lock
  refine ensure_failsAs.bind fun _ => (FailsAs.reporting internal_state _).bind fun _ =>
    (FailsAs.reporting internal_state _).bind fun locked => ?_
  split
  · refine FailsAs.bind (failsAs_throw ?_) fun _ => FailsAs.reporting internal_state _
    intro _ impossible
    cases impossible
  · exact FailsAs.reporting internal_state _

theorem whileLocked_failsAs {α : Type} {body : Action SyncError α} (inside : body.FailsAs Internal) :
    (Layout.whileLocked root body).FailsAs Internal := by
  unfold Layout.whileLocked
  refine lock_failsAs.bind fun _ => inside.tried fun result only => FailsAs.bind ?_ fun _ => ?_
  · intro w e impossible
    cases impossible
  · cases result with
    | ok value => exact failsAs_pure
    | error e => exact failsAs_throw (only e rfl)

theorem runPin_failsAs {p : PlannedPin} : (runPin root adopt observer p).FailsAs Internal := by
  have finish : ∀ outcome, (do
      tell observer (.finished (entryReport p outcome))
      return entryReport p outcome : Action SyncError EntryReport).FailsAs Internal := fun outcome =>
    (tell_failsAs _).bind fun _ => failsAs_pure
  have any : (execute root adopt p).FailsAs fun _ => True := fun _ _ _ => trivial
  unfold runPin
  refine (tell_failsAs _).bind fun _ => any.tried fun result _ => ?_
  cases result with
  | ok outcome => exact finish outcome
  | error e => exact finish (failure e)

theorem runPins_failsAs {order : List Nat} :
    (runPins plan adopt observer order).FailsAs Internal := by
  induction order with
  | nil => exact failsAs_pure
  | cons i rest ih =>
    rw [runPins]
    split
    · exact ih
    · exact runPin_failsAs.bind fun _ => ih.bind fun _ => failsAs_pure

theorem record_failsAs {report : SyncReport} : (record root table report).FailsAs Internal := by
  refine (failsAs_query ?_).bind fun state => ensure_failsAs.bind fun _ =>
    FailsAs.reporting internal_state _
  intro d e failed fault
  unfold RunState.load at failed
  dsimp only at failed
  split at failed
  · cases failed
  · split at failed
    · cases failed
      exact internal_state _ fault
    · split at failed <;> cases failed
      rintro ⟨⟩

theorem carryOut_failsAs : (carryOut plan table options observer).FailsAs Internal :=
  whileLocked_failsAs <| (FailsAs.reporting internal_state _).bind fun _ =>
    (tell_failsAs _).bind fun _ => runPins_failsAs.bind fun _ => record_failsAs.bind fun _ =>
      failsAs_pure

theorem foresee_failsAs {pins : List PlannedPin} : (foresee observer pins).FailsAs Internal := by
  induction pins with
  | nil => exact failsAs_pure
  | cons p rest ih => exact (tell_failsAs _).bind fun _ => ih.bind fun _ => failsAs_pure

theorem exec_refused {backends : List Backend} {w : World} {fault : ConfigError}
    (refused : ((sync root table options backends observer).exec w).1 = .error (.config fault)) :
    ((sync root table options backends observer).exec w).2 = w := by
  unfold PinnedTree.sync at refused ⊢
  by_cases idle : options.parallelism = 0
  · rw [if_pos idle]
    rfl
  rw [if_neg idle] at refused ⊢
  have asked := exec_query
    (Plan.build · root table backends options.filter options.adoptUnmanaged) w
  have planned : (reporting SyncError.config (query
      (Plan.build · root table backends options.filter options.adoptUnmanaged))).exec w
        = ((Plan.build w.disk root table backends options.filter
            options.adoptUnmanaged).mapError SyncError.config, w) := by
    rw [exec_reporting, asked]
  cases made : Plan.build w.disk root table backends options.filter options.adoptUnmanaged with
  | error cause =>
    rw [made] at planned
    rw [exec_bind, planned]
    rfl
  | ok plan =>
    rw [made] at planned
    have onward : Internal (.config fault) := by
      rw [exec_bind_ok planned] at refused
      split at refused
      · exact FailsAs.bind (tell_failsAs _) (fun _ => foresee_failsAs.bind fun _ => failsAs_pure)
          w _ refused
      · exact carryOut_failsAs w _ refused
    exact absurd rfl (onward fault)

end Internal

end PinnedTree.Sync
