import PinnedTree.Proofs.Sync.Terrain

namespace PinnedTree

def Observer.Passive (observer : Observer) : Prop :=
  ∀ event w, ((observer event).run w).2.disk = w.disk ∧ ((observer event).run w).2.steps = w.steps

namespace Sync

open PinnedTree.Action Transaction

variable {t : Terrain} {d e : Disk} {p : PlannedPin} {w : World} {observer : Observer}
  {adopt : Bool}

theorem tell_ensures {ε : Type} {always : Disk → Prop} (passive : observer.Passive) (event : Event)
    (now : always w.disk) :
    (tell observer event : Action ε Unit).Ensures always (fun r e => r = .ok () ∧ e = w.disk) w := by
  obtain ⟨disk, steps⟩ := passive event (w.announce event)
  exact .still steps disk now ⟨rfl, rfl⟩

def attained : PlannedAction → Outcome
  | .current => .alreadyCurrent
  | .fetch => .fetchedNew
  | .update old => .updated old

namespace Terrain

structure Renewal (t : Terrain) (p : PlannedPin) (d : Disk) (new : DiskPath → Option Node)
    (carried : List (List String)) (e : Disk) : Prop where
  done : (t.site p).Done d new (Site.noteOf (jobOf t.root p)) carried e
  marked : Site.Marked (jobOf t.root p) new
  stocked : t.stock p new

inductive Handled (t : Terrain) (adopt : Bool) (p : PlannedPin) (d e : Disk) : Outcome → Prop
  | current (same : e = d) (found : reconsider d t.root adopt p = .ok .current) :
    Handled t adopt p d e .alreadyCurrent
  | failed {reason : FailureReason} (quiet : (t.site p).Quiet d e) (swept : (t.site p).Swept d e) :
    Handled t adopt p d e (.failed reason)
  | renewed {outcome : Outcome} {new : DiskPath → Option Node} {carried : List (List String)}
    (success : outcome.isFailure = false) (renewal : t.Renewal p d new carried e)
    (swept : (t.site p).Swept d e)
    (found : ∃ action, reconsider d t.root adopt p = .ok action ∧ outcome = attained action)
    (other : outcome ≠ .alreadyCurrent) : Handled t adopt p d e outcome

theorem Handled.found {outcome : Outcome} (handled : t.Handled adopt p d e outcome) :
    outcome.isFailure = true ∨
      ∃ action, reconsider d t.root adopt p = .ok action ∧ outcome = attained action := by
  cases handled with
  | current _ found => exact .inr ⟨.current, found, rfl⟩
  | failed => exact .inl rfl
  | renewed _ _ _ found => exact .inr found

def During (t : Terrain) (p : PlannedPin) (d e : Disk) : Prop :=
  (t.site p).opened.Quiet d e ∨ ∃ new, Site.Marked (jobOf t.root p) new ∧ t.stock p new ∧
    (t.site p).opened.Phase d new (Site.noteOf (jobOf t.root p)) e

def Handling (t : Terrain) (adopt : Bool) (p : PlannedPin) (d e : Disk) : Prop :=
  t.During p d e ∧
    ((t.site p).opened.Quiet d e ∨ ∃ action, reconsider d t.root adopt p = .ok action)

theorem Handling.of_quiet (quiet : (t.site p).Quiet d e) : t.Handling adopt p d e :=
  ⟨.inl quiet.opened, .inl quiet.opened⟩

theorem Orderly.quiet (orderly : t.Orderly d) (p : PlannedPin) : (t.site p).Quiet d d where
  toNear := .refl orderly.sound
  old _ := rfl
  bare _ := .inl rfl
  silent free stands := absurd free stands

theorem Orderly.materialize (orderly : t.Orderly w.disk) (surveyed : t.Surveyed)
    (unlinked : t.Unlinked) (member : p ∈ t.pins) (admits : (t.site p).Admits (jobOf t.root p) w)
    (known : ((t.site p).stagingRun (jobOf t.root p) w).1 = .ok () →
      t.stock p ((t.site p).stagedTree (jobOf t.root p) w)) :
    (materialize t.root (jobOf t.root p)).Ensures (t.During p w.disk)
      (fun r e => (match r with
        | .ok _ => ∃ new carried, t.Renewal p w.disk new carried e
        | .error _ => (t.site p).Quiet w.disk e) ∧ (t.site p).Swept w.disk e) w := by
  have ready := orderly.ready surveyed member
  refine ((ready.materialize_sweeps (t.site_hosts p) admits
    (straightforward unlinked surveyed member known)).weaken ?_).mono ?_
  · rintro e (quiet | ⟨staged, phase⟩)
    · exact .inl quiet
    · exact .inr ⟨_, (ready.stagedTree_whole admits staged).1, known staged, phase⟩
  · rintro (fault | ⟨⟩) e ⟨holds, swept⟩
    · exact ⟨holds, swept⟩
    · obtain ⟨⟨staged, carried, done⟩, -⟩ := holds
      exact ⟨⟨_, carried, done, (ready.stagedTree_whole admits staged).1, known staged⟩, swept⟩

theorem Handled.handling {outcome : Outcome} (handled : t.Handled adopt p d e outcome)
    (orderly : t.Orderly d) : t.Handling adopt p d e := by
  cases handled with
  | current same _ => exact .of_quiet (same ▸ orderly.quiet p)
  | failed quiet _ => exact .of_quiet quiet
  | renewed _ renewal _ found =>
    obtain ⟨action, found, -⟩ := found
    exact ⟨.inr ⟨_, renewal.marked, renewal.stocked,
      Site.Phase.opened (.inr (.inr (.inr ⟨_, renewal.done⟩)))⟩, .inr ⟨action, found⟩⟩

theorem Orderly.execute (orderly : t.Orderly w.disk) (surveyed : t.Surveyed)
    (unlinked : t.Unlinked) (member : p ∈ t.pins) (served : t.Served adopt p w) :
    (execute t.root adopt p).Ensures (t.Handling adopt p w.disk)
      (fun r e => match r with
        | .ok outcome => t.Handled adopt p w.disk e outcome
        | .error _ => (t.site p).Quiet w.disk e ∧ (t.site p).Swept w.disk e) w := by
  have quiet := orderly.quiet p
  have swept : (t.site p).Swept w.disk w.disk := ⟨id, id, .inr (.inl rfl)⟩
  have place : ∀ w' : World, w'.disk = w.disk → w' ∈ working t.root adopt p w →
      ∀ outcome : Outcome, outcome.isFailure = false →
      (∃ action, reconsider w.disk t.root adopt p = .ok action ∧ outcome = attained action) →
      outcome ≠ .alreadyCurrent →
      (do Transaction.materialize t.root (jobOf t.root p)
          return outcome : Action FetchError Outcome).Ensures (t.Handling adopt p w.disk)
        (fun r e => match r with
          | .ok outcome => t.Handled adopt p w.disk e outcome
          | .error _ => (t.site p).Quiet w.disk e ∧ (t.site p).Swept w.disk e) w' := by
    intro w' same works outcome success found other
    have decided : ∃ action, reconsider w.disk t.root adopt p = .ok action :=
      found.imp fun _ both => both.1
    obtain ⟨admits, known⟩ := served w' works
    have moved := (same ▸ orderly : t.Orderly w'.disk).materialize surveyed unlinked member admits known
    rw [same] at moved
    refine (moved.weaken fun e during => ⟨during, .inr decided⟩).bind ?_ fun _ _ holds => holds
    rintro ⟨⟩ w'' ⟨⟨new, carried, renewal⟩, swept⟩
    have handled : t.Handled adopt p w.disk w''.disk outcome :=
      .renewed success renewal swept found other
    exact ensures_pure (handled.handling orderly) handled
  unfold Sync.execute
  refine (Backend.poll_ensures.weaken fun e same => .of_quiet (same ▸ quiet)).bind_exec ?_ ?_
  · rintro ⟨⟩ polled same
    generalize ran : Backend.poll.exec w = run at polled same
    obtain ⟨_, w₁⟩ := run
    cases polled
    change w₁.disk = w.disk at same
    have works : ∀ action, reconsider w.disk t.root adopt p = .ok action → action ≠ .current →
        w₁ ∈ working t.root adopt p w := by
      intro action decided other
      rw [← same] at decided
      cases action with
      | current => exact absurd rfl other
      | fetch | update => simp [working, ran, decided]
    have asked : (query (reconsider · t.root adopt p)).exec w₁
        = (reconsider w.disk t.root adopt p, w₁) := by
      rw [exec_query, same]
    cases found : reconsider w.disk t.root adopt p with
    | error fault =>
      rw [found] at asked
      have answered : (query (reconsider · t.root adopt p)).Ensures (t.Handling adopt p w.disk)
          (fun r e => r = .error fault ∧ e = w.disk) w₁ :=
        .of_exec asked (.of_quiet (same ▸ quiet)) ⟨rfl, same⟩
      refine answered.bind (by simp) ?_
      rintro _ e ⟨-, rfl⟩
      exact ⟨quiet, swept⟩
    | ok action =>
      rw [found] at asked
      refine Ensures.of_exec_eq (exec_bind_ok asked) rfl rfl ?_
      cases action with
      | current => exact ensures_pure (.of_quiet (same ▸ quiet)) (.current same found)
      | fetch =>
        exact place w₁ same (works _ found (by simp)) .fetchedNew rfl ⟨_, found, rfl⟩ (by simp)
      | update old =>
        exact place w₁ same (works _ found (by simp)) (.updated old) rfl ⟨_, found, rfl⟩ (by simp)
  · rintro fault e rfl
    exact ⟨quiet, swept⟩

theorem Orderly.runPin (orderly : t.Orderly w.disk) (surveyed : t.Surveyed)
    (unlinked : t.Unlinked) (passive : observer.Passive) (member : p ∈ t.pins)
    (served : t.Served adopt p (Visit.of t.root adopt observer p w).start) :
    (runPin t.root adopt observer p).Ensures (t.Handling adopt p w.disk)
      (fun r e => ∃ outcome, r = .ok (entryReport p outcome) ∧ t.Handled adopt p w.disk e outcome)
      w := by
  have quiet := orderly.quiet p
  have finish : ∀ (w' : World) (outcome : Outcome), t.Handled adopt p w.disk w'.disk outcome →
      (do tell observer (.finished (entryReport p outcome))
          return entryReport p outcome : Action SyncError EntryReport).Ensures
        (t.Handling adopt p w.disk)
        (fun r e => ∃ outcome, r = .ok (entryReport p outcome) ∧
          t.Handled adopt p w.disk e outcome) w' := by
    intro w' outcome handled
    have now := handled.handling orderly
    refine (tell_ensures passive _ now).bind ?_ (by simp)
    rintro ⟨⟩ w'' ⟨-, same⟩
    exact ensures_pure (same ▸ now) ⟨outcome, rfl, same ▸ handled⟩
  unfold Sync.runPin
  refine (tell_ensures passive _ (.of_quiet quiet)).bind_exec ?_ (by simp)
  rintro ⟨⟩ - ⟨-, same⟩
  change t.Served adopt p ((tell observer (.started p.pin.id) : Action SyncError Unit).exec w).2
    at served
  generalize ((tell observer (.started p.pin.id) : Action SyncError Unit).exec w).2 = w₁
    at served same ⊢
  have executed : (Sync.execute t.root adopt p).Ensures (t.Handling adopt p w₁.disk) _ w₁ :=
    (same ▸ orderly : t.Orderly w₁.disk).execute surveyed unlinked member served
  rw [same] at executed
  refine executed.tried (same ▸ orderly.sound) ?_
  rintro (fault | outcome) w₂ - - holds
  · exact finish w₂ _ (.failed holds.1 holds.2)
  · exact finish w₂ _ holds

end Terrain

end Sync

end PinnedTree
