import PinnedTree.Proofs.Files
import PinnedTree.Sync

namespace PinnedTree

def World.Stopping (w : World) : Prop := w.token.isTripped = true

namespace Action

variable {ε ε' α β : Type} {w : World}

def Lasting (action : Action ε α) : Prop := ∀ w, w.Stopping → (action.exec w).2.Stopping

theorem Lasting.bind {x : Action ε α} {f : α → Action ε β} (first : x.Lasting)
    (next : ∀ a, (f a).Lasting) : (x >>= f).Lasting := by
  intro w stopping
  have after := first w stopping
  rw [exec_bind]
  rcases ran : x.exec w with ⟨fault | a, w'⟩
  · rwa [ran] at after
  · rw [ran] at after
    exact next a w' after

theorem lasting_pure (a : α) : (pure a : Action ε α).Lasting := fun _ stopping => stopping

theorem lasting_throw (e : ε) : (throw e : Action ε α).Lasting := fun _ stopping => stopping

theorem lasting_query (f : Disk → Except ε α) : (query f).Lasting := fun w stopping => by
  rwa [exec_query]

theorem lasting_observe (f : Disk → α) : (observe f : Action ε α).Lasting :=
  fun _ stopping => stopping

theorem lasting_announce (event : Event) : (announce event : Action ε Unit).Lasting :=
  fun _ stopping => stopping

theorem lasting_isCancelled : (isCancelled : Action ε Bool).Lasting := fun w stopping => by
  change w.token.afterPoll.isTripped = true
  rwa [CancelToken.afterPoll_of_tripped stopping]

theorem performed_token (steps : List Step) (w : World) :
    (steps.foldl World.perform w).token = w.token := by
  induction steps generalizing w with
  | nil => rfl
  | cons step rest ih => exact ih (w.perform step)

theorem lasting_change (f : Disk → Except ε (List Step)) : (change f).Lasting := fun w stopping => by
  rw [exec_change]
  cases f w.disk with
  | error fault => exact stopping
  | ok steps =>
    change (steps.foldl World.perform w).token.isTripped = true
    rwa [performed_token]

theorem lasting_changeOnce (f : Disk → Except ε Step) : (changeOnce f).Lasting :=
  fun w stopping => by
    rw [exec_changeOnce]
    cases f w.disk with
    | error fault => exact stopping
    | ok step => exact stopping

theorem Lasting.outcome {action : Action ε α} (lasting : action.Lasting) :
    (Action.outcome action : Action ε' (Except ε α)).Lasting := fun w stopping => by
  rw [exec_outcome]
  exact lasting w stopping

theorem Lasting.ignoringFailure {action : Action ε Unit} (lasting : action.Lasting) :
    (Action.ignoringFailure action : Action ε' Unit).Lasting := fun w stopping => by
  rw [exec_ignoringFailure]
  exact lasting w stopping

theorem Lasting.reporting {f : ε → ε'} {action : Action ε α} (lasting : action.Lasting) :
    (Action.reporting f action).Lasting := fun w stopping => by
  rw [exec_reporting]
  exact lasting w stopping

theorem Lasting.seeing {f : Disk → β} {next : β → Action ε α} (lasting : ∀ b, (next b).Lasting) :
    (observe f >>= next).Lasting := (lasting_observe f).bind lasting

/-- An action that does not take a request to stop back, and gives up for one only if it was made. -/
structure Heeding (action : Action FetchError α) : Prop where
  lasting : action.Lasting
  honest : ∀ w, (action.exec w).1 = .error .cancelled → (action.exec w).2.Stopping

theorem Heeding.bind {x : Action FetchError α} {f : α → Action FetchError β} (first : x.Heeding)
    (next : ∀ a, (f a).Heeding) : (x >>= f).Heeding where
  lasting := first.lasting.bind fun a => (next a).lasting
  honest w gave := by
    have before := first.honest w
    rw [exec_bind] at gave ⊢
    rcases ran : x.exec w with ⟨fault | a, w'⟩
    · simp only [ran] at before gave ⊢
      exact before (congrArg Except.error (Except.error.inj gave))
    · simp only [ran] at gave ⊢
      exact (next a).honest w' gave

theorem Lasting.heeding {action : Action FetchError α} (lasting : action.Lasting)
    (other : ∀ w, (action.exec w).1 ≠ .error .cancelled) : action.Heeding :=
  ⟨lasting, fun w gave => absurd gave (other w)⟩

theorem heeding_pure (a : α) : (pure a : Action FetchError α).Heeding :=
  (lasting_pure a).heeding fun _ impossible => by cases impossible

theorem heeding_query {f : Disk → Except FetchError α} (other : ∀ d, f d ≠ .error .cancelled) :
    (query f).Heeding := (lasting_query f).heeding fun w => by
  rw [exec_query]
  exact other w.disk

theorem heeding_announce (event : Event) : (announce event : Action FetchError Unit).Heeding :=
  (lasting_announce event).heeding fun _ impossible => by cases impossible

theorem lasting_poll : Backend.poll.Lasting := lasting_isCancelled.bind fun seen => by
  cases seen with
  | true => exact lasting_throw _
  | false => exact lasting_pure ()

theorem heeding_poll : Backend.poll.Heeding where
  lasting := lasting_poll
  honest w gave := by
    cases tripped : w.token.isTripped with
    | true => exact lasting_poll w tripped
    | false =>
      have asked : (isCancelled : Action FetchError Bool).exec w
          = (.ok false, { w with token := w.token.afterPoll }) := by
        rw [← tripped]
        rfl
      rw [Backend.poll, exec_bind_ok asked] at gave
      cases gave

theorem Lasting.reported {f : ε → FetchError} {action : Action ε α} (lasting : action.Lasting)
    (other : ∀ e, f e ≠ .cancelled) : (Action.reporting f action).Heeding := by
  refine lasting.reporting.heeding fun w gave => ?_
  rw [exec_reporting] at gave
  cases answer : (action.exec w).1 with
  | error e =>
    simp only [answer, Except.mapError, Except.error.injEq] at gave
    exact other e gave
  | ok a => simp [answer, Except.mapError] at gave

theorem heeding_throw {e : FetchError} (other : e ≠ .cancelled) :
    (throw e : Action FetchError α).Heeding := (lasting_throw e).heeding fun _ same =>
  other (Except.error.inj same)

theorem heeding_outcome {action : Action ε α} (lasting : action.Lasting) :
    (Action.outcome action : Action FetchError (Except ε α)).Heeding :=
  lasting.outcome.heeding fun w impossible => by
    rw [exec_outcome] at impossible
    cases impossible

theorem heeding_ignoringFailure {action : Action ε Unit} (lasting : action.Lasting) :
    (Action.ignoringFailure action : Action FetchError Unit).Heeding :=
  lasting.ignoringFailure.heeding fun w impossible => by
    rw [exec_ignoringFailure] at impossible
    cases impossible

theorem heeding_get {next : World → Action FetchError α} (heeding : ∀ w, (next w).Heeding) :
    (get >>= next).Heeding where
  lasting w := (heeding w).lasting w
  honest w := (heeding w).honest w

theorem heeding_observe (f : Disk → α) : (observe f : Action FetchError α).Heeding :=
  (lasting_observe f).heeding fun _ impossible => by cases impossible

theorem Heeding.tried {x : Action FetchError α} {after : Action FetchError Unit}
    {answer : Except FetchError α → Action FetchError β} (heeding : x.Heeding)
    (cleared : after.Heeding) (succeeds : ∀ a, (answer (.ok a)).Heeding)
    (fails : ∀ e, answer (.error e) = throw e) :
    (Action.outcome x >>= fun r => after >>= fun _ => answer r).Heeding where
  lasting := heeding.lasting.outcome.bind fun r => cleared.lasting.bind fun _ => by
    cases r with
    | ok a => exact (succeeds a).lasting
    | error e => exact fails e ▸ lasting_throw e
  honest w gave := by
    have tried : (Action.outcome x : Action FetchError _).exec w
        = (.ok (x.exec w).1, (x.exec w).2) := exec_outcome x w
    have first := heeding.honest w
    rw [exec_bind_ok tried, exec_bind] at gave ⊢
    rcases ran : x.exec w with ⟨r, w'⟩
    rcases ends : after.exec w' with ⟨fault | ⟨⟩, w''⟩
    · have second := cleared.honest w'
      simp only [ran, ends] at second gave ⊢
      exact second (congrArg Except.error (Except.error.inj gave))
    · have second := cleared.lasting w'
      simp only [ran, ends] at first second gave ⊢
      cases r with
      | ok a => exact (succeeds a).honest w'' gave
      | error e =>
        rw [fails] at gave ⊢
        exact second (first (congrArg Except.error (Except.error.inj gave)))

end Action

open PinnedTree.Action

namespace Files

theorem lasting_makeLast (l : Location) : (makeLast l).Lasting := by
  refine (lasting_changeOnce _).outcome.bind ?_
  rintro (fault | ⟨⟩)
  · refine .seeing fun there => ?_
    cases there with
    | true => exact lasting_pure ()
    | false => exact lasting_throw fault
  · exact lasting_pure ()

theorem lasting_makeDirsFrom (ls : List Location) : (makeDirsFrom ls).Lasting := by
  induction ls with
  | nil => exact lasting_throw _
  | cons l above ih =>
    rw [makeDirsFrom]
    split
    · exact lasting_pure ()
    refine (lasting_changeOnce _).outcome.bind fun r => ?_
    split
    · exact lasting_pure ()
    · exact ih.bind fun _ => lasting_makeLast l
    · refine .seeing fun there => ?_
      split
      · exact lasting_pure ()
      · exact lasting_throw _

theorem lasting_makeDirs (l : Location) : (makeDirs l).Lasting := lasting_makeDirsFrom _

theorem lasting_makeParents (l : Location) : (makeParents l).Lasting := by
  unfold makeParents
  split
  · exact lasting_makeDirs _
  · exact lasting_pure ()

theorem lasting_makeTemporary (l : Location) : (makeTemporary l).Lasting :=
  .seeing fun _ => (lasting_changeOnce _).reporting.bind fun _ => lasting_pure _

theorem lasting_isLocked (l : Location) : (isLocked l).Lasting := fun w stopping => by
  rwa [exec_isLocked]

theorem lasting_hold (l : Location) : (hold l).Lasting := fun w stopping => by
  rw [exec_hold]
  split
  · exact stopping
  · exact stopping

end Files

theorem Marker.lasting_write (marker : Marker) (l : Location) : (marker.write l).Lasting := by
  refine Lasting.reporting ((Files.lasting_makeTemporary l).bind fun temporary =>
    (lasting_changeOnce _).bind fun _ => (lasting_change _).outcome.bind ?_)
  rintro (fault | ⟨⟩)
  · exact (lasting_changeOnce _).ignoringFailure.bind fun _ => lasting_throw _
  · exact lasting_pure ()

namespace Layout

theorem lasting_makeDir (l : Location) : (makeDir l).Lasting := (Files.lasting_makeDirs l).reporting

theorem lasting_lock (root : Location) : (lock root).Lasting := by
  refine ((lasting_makeDir _).bind fun _ => lasting_makeDir _).bind fun _ => ?_
  refine Lasting.bind (Lasting.reporting (.seeing fun found => ?_)) fun _ =>
    (Files.lasting_isLocked _).reporting.bind fun held => ?_
  · split
    · split
      · exact lasting_throw _
      · exact lasting_pure ()
    · exact lasting_changeOnce _
  · cases held with
    | true => exact (lasting_throw _).bind fun _ => (Files.lasting_hold _).reporting
    | false => exact (Files.lasting_hold _).reporting

end Layout

namespace Recovery

theorem lasting_putBack (backup : Location) (journal : Journal) : (putBack backup journal).Lasting := by
  refine .seeing fun held => .seeing fun taken => ?_
  split
  · exact (Files.lasting_makeParents _).bind fun _ => (lasting_change _).bind fun _ => lasting_pure _
  · exact lasting_pure _

theorem lasting_followJournals (directory : Location) (names : List String) :
    (followJournals directory names).Lasting := by
  induction names with
  | nil => exact lasting_pure 0
  | cons name rest ih =>
    rw [followJournals]
    split
    · refine .seeing fun found => ?_
      have next : ∀ restored : Bool, (do
          Files.removeFile (directory / name)
          return (← followJournals directory rest) + (if restored then 1 else 0)
            : Action IoFault Nat).Lasting := fun restored =>
        (lasting_changeOnce _).bind fun _ => ih.bind fun _ => lasting_pure _
      split
      · exact (lasting_putBack _ _).bind next
      · exact (lasting_pure false).bind next
    · exact ih

theorem lasting_removeDirs (directory : Location) (names : List String) :
    (removeDirs directory names).Lasting := by
  induction names with
  | nil => exact lasting_pure ()
  | cons name rest ih =>
    refine .seeing fun isDir => ?_
    split
    · exact (lasting_change _).bind fun _ => ih
    · exact ih

theorem lasting_removeEverything (directory : Location) (names : List String) :
    (removeEverything directory names).Lasting := by
  induction names with
  | nil => exact lasting_pure ()
  | cons name rest ih =>
    refine .seeing fun isDir => ?_
    split
    · exact (lasting_change _).bind fun _ => ih
    · exact (lasting_changeOnce _).bind fun _ => ih

theorem lasting_recover (root : Location) : (recover root).Lasting := by
  have cleared : ∀ restored : Nat, (do
      if ← observe (·.leadsToDir (Layout.staging root)) then
        removeEverything (Layout.staging root) (← query (·.list (Layout.staging root)))
      return restored : Action IoFault Nat).Lasting := by
    refine fun restored => .seeing fun isDir => ?_
    split
    · exact (lasting_query _).bind fun names => (lasting_removeEverything _ names).bind fun _ =>
        lasting_pure _
    · exact lasting_pure _
  refine .seeing fun isDir => ?_
  split
  · exact (lasting_query _).bind fun names => (lasting_followJournals _ names).bind fun _ =>
      (lasting_query _).bind fun names => (lasting_removeDirs _ names).bind fun _ =>
        (lasting_pure _).bind cleared
  · exact (lasting_pure 0).bind cleared

end Recovery

def Backend.Heeds (backend : Backend) : Prop := ∀ request, (backend.fetch request).Heeding

namespace Transaction

theorem lasting_moveAside (job : Job) (backup journal : Location) :
    (moveAside job backup journal).Lasting := by
  have rest : (do
      step [] (Files.writeText journal (journalText job.pin.id job.destination))
      step [.removeFile journal] (Files.rename job.destination backup)
      return [.rename backup job.destination, .removeFile journal] : Action Broken (List Undo)).Lasting :=
    (lasting_change _).reporting.bind fun _ => (lasting_change _).reporting.bind fun _ => lasting_pure _
  refine .seeing fun stands => ?_
  split
  · exact (lasting_change _).reporting.bind fun _ => rest
  · exact rest

theorem lasting_carryOver (backup destination : Location) (undo : List Undo)
    (nested : List (List String)) : (carryOver backup destination undo nested).Lasting := by
  induction nested generalizing undo with
  | nil => exact lasting_pure undo
  | cons names rest ih =>
    refine .seeing fun old => .seeing fun new => ?_
    split
    · exact ih undo
    · exact (Files.lasting_makeParents _).reporting.bind fun _ =>
        (lasting_change _).reporting.bind fun _ => ih _

theorem lasting_swap (job : Job) (staging backup journal : Location) :
    (swap job staging backup journal).Lasting := by
  refine (Files.lasting_makeParents _).reporting.bind fun _ => .seeing fun replaced => ?_
  cases replaced with
  | true => exact (lasting_moveAside _ _ _).bind fun _ => (lasting_change _).reporting.bind fun _ =>
      (lasting_carryOver _ _ _ _).bind fun _ => lasting_pure ()
  | false => exact (lasting_pure []).bind fun _ => (lasting_change _).reporting.bind fun _ =>
      lasting_pure ()

theorem heeding_rollBack (undo : List Undo) : (rollBack undo).Heeding := by
  induction undo with
  | nil => exact heeding_pure ()
  | cons first rest ih =>
    cases first with
    | rename source target => exact (heeding_ignoringFailure (lasting_change _)).bind fun _ => ih
    | removeFile l => exact (heeding_ignoringFailure (lasting_changeOnce _)).bind fun _ => ih

theorem heeding_discard (l : Location) : (discard l).Heeding := by
  refine (heeding_observe _).bind fun stands => ?_
  split
  · exact heeding_ignoringFailure (lasting_change _)
  · exact heeding_pure ()

theorem lasting_prepare (staging : Location) : (prepare staging).Lasting := by
  refine .seeing fun stands => ?_
  split
  · exact (lasting_change _).bind fun _ => Files.lasting_makeDirs _
  · exact Files.lasting_makeDirs _

theorem heeding_stage {job : Job} (heeds : job.backend.Heeds)
    (staging : Location) : (stage job staging).Heeding := by
  refine (heeding_observe _).bind fun asked => (heeding_announce _).bind fun _ =>
    (heeds asked).bind fun _ => heeding_poll.bind fun _ => ?_
  exact heeding_get fun _ => (Marker.lasting_write _ _).reported (by simp)

theorem heeding_swapIn (root : Location) (job : Job) (slot : String) (staging : Location) :
    (swapIn root job slot staging).Heeding := by
  refine (heeding_outcome (lasting_swap _ _ _ _)).bind ?_
  rintro (broken | ⟨⟩)
  · exact (heeding_rollBack _).bind fun _ => heeding_throw (by simp)
  · exact (heeding_discard _).bind fun _ => heeding_ignoringFailure (lasting_changeOnce _)

theorem heeding_materialize {job : Job} (heeds : job.backend.Heeds) (root : Location) :
    (materialize root job).Heeding :=
  ((lasting_prepare _).reported (by simp)).bind fun _ =>
    .tried ((heeding_stage heeds _).bind fun _ => heeding_swapIn root job (slotName job.pin.id)
      (Layout.staging root / slotName job.pin.id)) (heeding_discard _) (fun _ => heeding_pure ())
      fun _ => rfl

end Transaction

def Observer.Lasting (observer : Observer) : Prop :=
  ∀ event (w : World), w.Stopping → ((observer event).run w).2.Stopping

namespace Sync

variable {observer : Observer} {root : Location} {adopt : Bool} {p : PlannedPin}

theorem lasting_tell {ε : Type} (lasting : observer.Lasting) (event : Event) :
    (tell observer event : Action ε Unit).Lasting :=
  fun w stopping => lasting event (w.announce event) stopping

theorem reconsider_uncancelled (d : Disk) : reconsider d root adopt p ≠ .error .cancelled := by
  unfold reconsider
  cases Inspection.ofOuter d (p.destination.place root) p.nested with
  | error fault => simp [Except.mapError, bind, Except.bind]
  | ok found =>
    cases decided : decideAction p.pin.id p.pin.revision found adopt with
    | error conflict =>
      cases conflict <;> simp [decided, conflictError, Except.mapError, bind, Except.bind]
    | ok action => simp [decided, Except.mapError, bind, Except.bind]

theorem heeding_execute (heeds : p.backend.Heeds) (root : Location) (adopt : Bool) :
    (execute root adopt p).Heeding := by
  have job : (jobOf root p).backend.Heeds := heeds
  have brought : ∀ outcome : Outcome,
      (do Transaction.materialize root (jobOf root p); return outcome
        : Action FetchError Outcome).Heeding := fun outcome =>
    (Transaction.heeding_materialize job root).bind fun _ => heeding_pure outcome
  refine heeding_poll.bind fun _ => (heeding_query reconsider_uncancelled).bind fun action => ?_
  cases action with
  | current => exact heeding_pure _
  | fetch => exact brought _
  | update old => exact brought _

theorem exec_execute_stopping {w : World} (stopping : w.Stopping) :
    (execute root adopt p).exec w = (.error .cancelled, w) := by
  have asked : (isCancelled : Action FetchError Bool).exec w = (.ok true, w) := by
    have seen : w.token.isTripped = true := stopping
    have same : { w with token := w.token.afterPoll } = w := by
      rw [CancelToken.afterPoll_of_tripped seen]
    rw [← seen]
    exact congrArg (Prod.mk _) same
  have polled : Backend.poll.exec w = (.error .cancelled, w) := by
    rw [Backend.poll, exec_bind_ok asked]
    rfl
  rw [execute, exec_bind, polled]

end Sync

end PinnedTree
