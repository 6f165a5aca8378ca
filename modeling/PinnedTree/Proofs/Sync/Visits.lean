import PinnedTree.Proofs.Cancellation
import PinnedTree.Proofs.Layout
import PinnedTree.Proofs.Report
import PinnedTree.Proofs.Transaction.Materialize

namespace PinnedTree.Sync

open PinnedTree.Action

/-- What happened to a pin: the worlds in which its execution began and ended, and how it ended; and
the world in which new content came to be put together, unless there was nothing to do about it. -/
structure Visit where
  pin : PlannedPin
  start : World
  work : Option World
  ended : World
  outcome : Outcome

def working (root : Location) (adopt : Bool) (p : PlannedPin) (w : World) : Option World :=
  match Backend.poll.exec w with
  | (.error _, _) => none
  | (.ok _, w') =>
    match reconsider w'.disk root adopt p with
    | .error _ | .ok .current => none
    | .ok .fetch | .ok (.update _) => some w'

def siteOf (root : Location) (top : DiskPath) (p : PlannedPin) : Transaction.Site where
  root := root
  top := top
  slot := Transaction.slotName p.pin.id
  dest := p.destination.names
  nested := p.nested
  shared := false

def outcomeOf : Except FetchError Outcome → Outcome
  | .ok outcome => outcome
  | .error e => failure e

namespace Visit

def row (visit : Visit) : EntryReport := entryReport visit.pin visit.outcome

def of (root : Location) (adopt : Bool) (observer : Observer) (p : PlannedPin) (w : World) : Visit :=
  let start := ((tell observer (.started p.pin.id) : Action SyncError Unit).exec w).2
  let ran := (execute root adopt p).exec start
  ⟨p, start, working root adopt p start, ran.2, outcomeOf ran.1⟩

/-- Asked in a visit, the backend leaves nothing changed beside the directory that it is given. -/
def Tidy (root : Location) (top : DiskPath) (visit : Visit) : Prop :=
  ∀ w ∈ visit.work, (siteOf root top visit.pin).Admits (jobOf root visit.pin) w

def brought (root : Location) (top : DiskPath) (visit : Visit) : Option (DiskPath → Option Node) :=
  visit.work.bind fun w =>
    match ((siteOf root top visit.pin).stagingRun (jobOf root visit.pin) w).1 with
    | .ok _ => some ((siteOf root top visit.pin).stagedTree (jobOf root visit.pin) w)
    | .error _ => none

theorem mem_brought {top : DiskPath} {visit : Visit} {root : Location}
    {new : DiskPath → Option Node} : new ∈ visit.brought root top ↔ ∃ w ∈ visit.work,
      ((siteOf root top visit.pin).stagingRun (jobOf root visit.pin) w).1 = .ok () ∧
        (siteOf root top visit.pin).stagedTree (jobOf root visit.pin) w = new := by
  simp only [brought, Option.mem_def, Option.bind_eq_some_iff]
  refine exists_congr fun w => and_congr_right fun _ => ?_
  rcases ((siteOf root top visit.pin).stagingRun (jobOf root visit.pin) w).1 with _ | ⟨⟩ <;> simp

/-- What is put together stands at some of these paths, and is no link. -/
def Brings (root : Location) (top : DiskPath) (paths : List DiskPath) (visit : Visit) : Prop :=
  ∀ w ∈ visit.work, ∀ entry ∈ ((siteOf root top visit.pin).stagingRun (jobOf root visit.pin) w).2.disk.nodes,
    (siteOf root top visit.pin).staged <+: entry.1 →
      entry.1.drop (siteOf root top visit.pin).staged.length ∈ paths ∧
        (entry.2 matches .link _) = false

instance (root : Location) (top : DiskPath) (paths : List DiskPath) (visit : Visit) :
    Decidable (visit.Brings root top paths) :=
  inferInstanceAs (Decidable (∀ w ∈ visit.work, ∀ entry ∈ ((siteOf root top visit.pin).stagingRun
    (jobOf root visit.pin) w).2.disk.nodes, (siteOf root top visit.pin).staged <+: entry.1 →
      entry.1.drop (siteOf root top visit.pin).staged.length ∈ paths ∧
        (entry.2 matches .link _) = false))

theorem Brings.mem {root : Location} {top : DiskPath} {paths : List DiskPath} {visit : Visit}
    {new : DiskPath → Option Node} {r : DiskPath} {node : Node} (brings : visit.Brings root top paths)
    (brought : new ∈ visit.brought root top) (stands : new r = some node) :
    r ∈ paths ∧ ∀ target, node ≠ .link target := by
  obtain ⟨w, works, -, rfl⟩ := mem_brought.mp brought
  have listed := (Disk.look_eq_some_iff (by
    simp [Transaction.Site.staged, Transaction.Site.stagingNames])).mp stands
  obtain ⟨among, leaf⟩ := brings w works _ listed (List.prefix_append _ r)
  rw [List.drop_left] at among
  refine ⟨among, ?_⟩
  rintro target rfl
  cases leaf

def next (observer : Observer) (visit : Visit) : World :=
  ((tell observer (.finished visit.row) : Action SyncError Unit).exec visit.ended).2

end Visit

def visits (root : Location) (adopt : Bool) (observer : Observer) : List PlannedPin → World → List Visit
  | [], _ => []
  | p :: rest, w =>
    let visit := Visit.of root adopt observer p w
    visit :: visits root adopt observer rest (visit.next observer)

def leaving (observer : Observer) : List Visit → World → World
  | [], w => w
  | visit :: rest, _ => leaving observer rest (visit.next observer)

variable {root : Location} {adopt : Bool} {observer : Observer} {plan : Plan} {table : PinTable}
  {options : SyncOptions} {backends : List Backend} {w w' : World} {report : SyncReport}
  {pins : List PlannedPin} {visit : Visit}

theorem exec_runPin (p : PlannedPin) (w : World) : (runPin root adopt observer p).exec w
    = (.ok (Visit.of root adopt observer p w).row,
      (Visit.of root adopt observer p w).next observer) := by
  generalize started : ((tell observer (.started p.pin.id) : Action SyncError Unit).exec w).2 = w₁
  have told : (tell observer (.started p.pin.id) : Action SyncError Unit).exec w = (.ok (), w₁) :=
    Prod.ext rfl started
  have tried : (outcome (execute root adopt p) : Action SyncError _).exec w₁ = (.ok _, _) :=
    exec_outcome (execute root adopt p) w₁
  rw [runPin, exec_bind_ok told, exec_bind_ok tried]
  rcases ran : (execute root adopt p).exec w₁ with ⟨fault | outcome, w₂⟩
  · simp only [Visit.of, Visit.next, Visit.row, started, ran]
    rfl
  · simp only [Visit.of, Visit.next, Visit.row, started, ran]
    rfl

theorem exec_runPins (order : List Nat) (w : World) : (runPins plan adopt observer order).exec w
    = (.ok ((visits plan.root adopt observer (order.filterMap (plan.pins[·]?)) w).map Visit.row),
      leaving observer (visits plan.root adopt observer (order.filterMap (plan.pins[·]?)) w) w) := by
  induction order generalizing w with
  | nil => rfl
  | cons i rest ih =>
    rw [runPins]
    cases found : plan.pins[i]? with
    | none =>
      rw [List.filterMap_cons_none found]
      exact ih w
    | some p =>
      rw [List.filterMap_cons_some found]
      refine (exec_bind_ok (exec_runPin p w)).trans ((exec_bind_ok (ih _)).trans ?_)
      rfl

def opening (plan : Plan) (observer : Observer) : Action SyncError Unit := do
  Layout.lock plan.root
  let _ ← reporting (SyncError.state (Layout.directory plan.root).text) (Recovery.recover plan.root)
  tell observer (.began plan.pins.length)

def opened (plan : Plan) (observer : Observer) (w : World) : World :=
  ((opening plan observer).exec w).2

def tour (plan : Plan) (options : SyncOptions) (observer : Observer) (w : World) : List Visit :=
  visits plan.root options.adoptUnmanaged observer
    ((options.schedule plan.groups).filterMap (plan.pins[·]?)) (opened plan observer w)

/-- The visits of a run. A dry one makes none, nor one that cannot be planned or opened. -/
def journey (root : Location) (table : PinTable) (options : SyncOptions) (backends : List Backend)
    (observer : Observer) (w : World) : List Visit :=
  if options.parallelism = 0 ∨ options.dryRun then [] else
    match Plan.build w.disk root table backends options.filter options.adoptUnmanaged with
    | .error _ => []
    | .ok plan =>
      match ((opening plan observer).exec w).1 with
      | .ok _ => tour plan options observer w
      | .error _ => []

theorem journey_eq (busy : options.parallelism ≠ 0) (real : options.dryRun = false)
    (build : Plan.build w.disk root table backends options.filter options.adoptUnmanaged = .ok plan)
    (opens : ((opening plan observer).exec w).1 = .ok ()) :
    journey root table options backends observer w = tour plan options observer w := by
  simp [journey, busy, real, build, opens]

theorem carryOut_ok (ran : (carryOut plan table options observer).exec w = (.ok report, w')) :
    (opening plan observer).exec w = (.ok (), opened plan observer w) ∧
      report = .ofEntries false ((tour plan options observer w).map Visit.row) ∧
      ∃ w₁, (record plan.root table report).exec
          (leaving observer (tour plan options observer w) (opened plan observer w)) = (.ok (), w₁) ∧
        w'.disk = w₁.disk := by
  obtain ⟨w₁, w₂, locked, ran, same⟩ := Layout.whileLocked_ok ran
  rcases recovered : (reporting (SyncError.state (Layout.directory plan.root).text)
    (Recovery.recover plan.root)).exec w₁ with ⟨fault | n, w₃⟩
  · rw [exec_bind, recovered] at ran
    cases ran
  rw [exec_bind_ok recovered] at ran
  generalize began : ((tell observer (.began plan.pins.length) : Action SyncError Unit).exec w₃).2
    = w₄ at ran
  have told : (tell observer (.began plan.pins.length) : Action SyncError Unit).exec w₃ = (.ok (), w₄) :=
    Prod.ext rfl began
  have opens : (opening plan observer).exec w = (.ok (), w₄) := by
    rw [opening, exec_bind_ok locked, exec_bind_ok recovered]
    exact told
  obtain rfl : opened plan observer w = w₄ := by
    rw [opened, opens]
  rw [exec_bind_ok told, exec_bind_ok (exec_runPins _ _), ← tour, exec_bind] at ran
  rcases recorded : (record plan.root table (.ofEntries false
    ((tour plan options observer w).map Visit.row))).exec
      (leaving observer (tour plan options observer w) (opened plan observer w))
    with ⟨fault | ⟨⟩, w₅⟩
  · rw [recorded] at ran
    cases ran
  · rw [recorded] at ran
    cases ran
    exact ⟨opens, rfl, w₂, recorded, same⟩

/-- The visits of a run that is no dry one, and the world that it leaves if its report lists what came
of them in some order. -/
def replay (root : Location) (table : PinTable) (options : SyncOptions) (backends : List Backend)
    (observer : Observer) (listed : List EntryReport) (w : World) : Option (List Visit × World) :=
  match Plan.build w.disk root table backends options.filter options.adoptUnmanaged with
  | .error _ => none
  | .ok plan =>
    match (opening plan observer).exec w with
    | (.error _, _) => none
    | (.ok _, w₁) =>
      let visits := visits plan.root options.adoptUnmanaged observer
        ((options.schedule plan.groups).filterMap (plan.pins[·]?)) w₁
      match (record plan.root table ⟨false, listed⟩).exec (leaving observer visits w₁) with
      | (.error _, _) => none
      | (.ok _, w₂) => some (visits, ((Layout.unlock plan.root).exec w₂).2)

theorem exec_of_replay {listed : List EntryReport} {made : List Visit} (busy : options.parallelism ≠ 0)
    (real : options.dryRun = false)
    (replayed : replay root table options backends observer listed w = some (made, w'))
    (perm : listed.Perm (made.map Visit.row)) (ordered : listed.Pairwise fun a b => a.id < b.id) :
    (PinnedTree.sync root table options backends observer).exec w = (.ok ⟨false, listed⟩, w') ∧
      journey root table options backends observer w = made := by
  unfold replay at replayed
  cases build : Plan.build w.disk root table backends options.filter options.adoptUnmanaged with
  | error fault => simp [build] at replayed
  | ok plan =>
    simp only [build] at replayed
    rcases opens : (opening plan observer).exec w with ⟨fault | ⟨⟩, w₁⟩
    · simp [opens] at replayed
    simp only [opens] at replayed
    rcases written : (record plan.root table ⟨false, listed⟩).exec (leaving observer
      (visits plan.root options.adoptUnmanaged observer
        ((options.schedule plan.groups).filterMap (plan.pins[·]?)) w₁) w₁) with ⟨fault | ⟨⟩, w₂⟩
    · simp [written] at replayed
    simp only [written, Option.some.injEq, Prod.mk.injEq] at replayed
    obtain ⟨rfl, rfl⟩ := replayed
    have planned : (reporting SyncError.config (query (Plan.build · root table backends options.filter
        options.adoptUnmanaged))).exec w = (.ok plan, w) := by
      rw [exec_reporting, exec_query, build]
      rfl
    have sorted := SyncReport.ofEntries_of_ordered false perm ordered
    have toured : journey root table options backends observer w = tour plan options observer w :=
      journey_eq busy real build (congrArg Prod.fst opens)
    have began : opened plan observer w = w₁ := congrArg Prod.snd opens
    rcases locked : (Layout.lock plan.root).exec w with ⟨fault | ⟨⟩, w₃⟩
    · rw [opening, exec_bind, locked] at opens
      cases opens
    rcases recovered : (reporting (SyncError.state (Layout.directory plan.root).text)
      (Recovery.recover plan.root)).exec w₃ with ⟨fault | n, w₄⟩
    · rw [opening, exec_bind_ok locked, exec_bind, recovered] at opens
      cases opens
    rw [opening, exec_bind_ok locked, exec_bind_ok recovered] at opens
    have carried : (carryOut plan table options observer).exec w
        = (.ok ⟨false, listed⟩, ((Layout.unlock plan.root).exec w₂).2) := by
      unfold carryOut
      apply Layout.exec_whileLocked_unlocks locked
      refine (exec_bind_ok recovered).trans ((exec_bind_ok opens).trans ?_)
      refine (exec_bind_ok (exec_runPins _ _)).trans ?_
      rw [sorted]
      exact (exec_bind_ok written).trans rfl
    constructor
    · rw [PinnedTree.sync, if_neg busy, exec_bind_ok planned, if_neg (by simp [real]), carried]
    · rw [toured, tour, began]

/-- A run is known by its replay: that its visits come to some lines, and what holds of them and of the
world at the end. -/
theorem exec_sync {rows listed : List EntryReport} {P : List Visit → World → Prop}
    [∀ made w, Decidable (P made w)] (busy : options.parallelism ≠ 0) (real : options.dryRun = false)
    (replayed : (replay root table options backends observer listed w).any (fun replayed =>
      replayed.1.map Visit.row = rows ∧ P replayed.1 replayed.2) = true)
    (perm : listed.Perm rows) (ordered : listed.Pairwise fun a b => a.id < b.id) :
    ∃ w', (PinnedTree.sync root table options backends observer).exec w = (.ok ⟨false, listed⟩, w') ∧
      P (journey root table options backends observer w) w' := by
  obtain ⟨⟨made, w'⟩, ran, checked⟩ := (Option.any_eq_true _ _).mp replayed
  obtain ⟨rfl, holds⟩ := of_decide_eq_true checked
  obtain ⟨whole, toured⟩ := exec_of_replay busy real ran perm ordered
  exact ⟨w', whole, toured ▸ holds⟩

theorem sync_plan (ran : (PinnedTree.sync root table options backends observer).exec w = (.ok report, w')) :
    ∃ plan, Plan.build w.disk root table backends options.filter options.adoptUnmanaged = .ok plan ∧
      (if options.dryRun then do
        tell observer (.began plan.pins.length)
        return SyncReport.ofEntries true (← foresee observer plan.pins)
      else carryOut plan table options observer).exec w = (.ok report, w') := by
  unfold PinnedTree.sync at ran
  by_cases idle : options.parallelism = 0
  · rw [if_pos idle] at ran
    cases ran
  rw [if_neg idle] at ran
  have asked : (reporting SyncError.config (query (Plan.build · root table backends options.filter
      options.adoptUnmanaged))).exec w = ((Plan.build w.disk root table backends options.filter
        options.adoptUnmanaged).mapError SyncError.config, w) := by
    rw [exec_reporting, exec_query]
  cases made : Plan.build w.disk root table backends options.filter options.adoptUnmanaged with
  | error cause =>
    rw [made] at asked
    rw [exec_bind, asked] at ran
    cases ran
  | ok plan =>
    rw [made] at asked
    rw [exec_bind_ok asked] at ran
    exact ⟨plan, rfl, ran⟩

theorem sync_ok (real : options.dryRun = false)
    (ran : (PinnedTree.sync root table options backends observer).exec w = (.ok report, w')) :
    ∃ plan, Plan.build w.disk root table backends options.filter options.adoptUnmanaged = .ok plan ∧
      (carryOut plan table options observer).exec w = (.ok report, w') := by
  obtain ⟨plan, build, ran⟩ := sync_plan ran
  exact ⟨plan, build, by simpa [real] using ran⟩

theorem journey_of_ok (real : options.dryRun = false)
    (build : Plan.build w.disk root table backends options.filter options.adoptUnmanaged = .ok plan)
    (ran : (PinnedTree.sync root table options backends observer).exec w = (.ok report, w')) :
    journey root table options backends observer w = tour plan options observer w := by
  obtain ⟨plan', build', carried⟩ := sync_ok real ran
  cases build.symm.trans build'
  refine journey_eq ?_ real build (congrArg Prod.fst (carryOut_ok carried).1)
  intro idle
  unfold PinnedTree.sync at ran
  rw [if_pos idle] at ran
  cases ran

theorem visits_pins (pins : List PlannedPin) (w : World) :
    (visits root adopt observer pins w).map (·.pin) = pins := by
  induction pins generalizing w with
  | nil => rfl
  | cons p rest ih =>
    rw [visits, List.map_cons, ih]
    rfl

theorem tour_pins (w : World) : (tour plan options observer w).map (·.pin)
    = (options.schedule plan.groups).filterMap (plan.pins[·]?) :=
  visits_pins _ _

theorem mem_visits (member : visit ∈ visits root adopt observer pins w) :
    ∃ p ∈ pins, ∃ w, visit = .of root adopt observer p w := by
  induction pins generalizing w with
  | nil => cases member
  | cons p rest ih =>
    rcases List.mem_cons.mp member with rfl | later
    · exact ⟨p, List.mem_cons_self, w, rfl⟩
    · obtain ⟨q, listed, w', same⟩ := ih later
      exact ⟨q, List.mem_cons_of_mem _ listed, w', same⟩

end PinnedTree.Sync
