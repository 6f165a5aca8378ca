import PinnedTree.Proofs.CommandLine.ExitCode
import PinnedTree.Proofs.Report
import PinnedTree.Proofs.Sync.Stopping

namespace PinnedTree

def Outcome.Fits (dryRun : Bool) : Outcome → Prop
  | .alreadyCurrent => True
  | .wouldFetch | .wouldUpdate _ => dryRun = true
  | .fetchedNew | .updated _ | .failed _ => dryRun = false

def PinTable.selected (table : PinTable) (filter : Option IdFilter) : List Pin :=
  table.pins.filter fun pin => filter.all (·.matches? pin.id)

/-- A line about a pin of a table: it has the id and the revision of the pin, the plain form of the path
of its destination, and the name of the backend that is the first for its locator. -/
structure EntryReport.Describes (backends : List Backend) (pin : Pin) (entry : EntryReport) : Prop where
  id : entry.id = pin.id
  destination : ∃ destination, Destination.parse pin.destination = .ok destination ∧
    entry.destination = destination.text
  revision : entry.revision = pin.revision
  backend : ∃ backend, Backend.resolve? backends pin.locator = some backend ∧
    entry.backend = backend.name

/-- A report of a run over a table: one line for each pin that the run is about, in the strict order of
their ids, each with what a run of its kind can come to. -/
structure SyncReport.Accounts (table : PinTable) (options : SyncOptions) (backends : List Backend)
    (report : SyncReport) : Prop where
  kind : report.dryRun = options.dryRun
  lines : ∃ pins, pins.Perm (table.selected options.filter) ∧
    List.Forall₂ (EntryReport.Describes backends) pins report.entries
  ordered : report.entries.Pairwise fun a b => a.id < b.id
  fitting : ∀ entry ∈ report.entries, entry.outcome.Fits options.dryRun

namespace Sync

open PinnedTree.Action

variable {root : Location} {adopt : Bool} {observer : Observer} {plan : Plan} {table : PinTable}
  {options : SyncOptions} {backends : List Backend} {placed : List PlacedPin} {w : World}
  {report : SyncReport} {p : PlannedPin} {sequence : List PlannedPin} {rows : List EntryReport}

def Reports (dryRun : Bool) (p : PlannedPin) (row : EntryReport) : Prop :=
  ∃ outcome, row = entryReport p outcome ∧ outcome.Fits dryRun

theorem fits_foreseen (action : PlannedAction) : (foreseen action).Fits true := by
  cases action <;> simp [foreseen, Outcome.Fits]

theorem fits_attained (action : PlannedAction) : (attained action).Fits false := by
  cases action <;> simp [attained, Outcome.Fits]

theorem Visit.of_reports (p : PlannedPin) (w : World) :
    Reports false p (Visit.of root adopt observer p w).row := by
  refine ⟨_, rfl, ?_⟩
  simp only [Visit.of]
  cases answer : ((execute root adopt p).exec
    ((tell observer (.started p.pin.id) : Action SyncError Unit).exec w).2).1 with
  | ok outcome =>
    obtain ⟨action, rfl⟩ := execute_ok answer
    exact fits_attained action
  | error fault => exact rfl

theorem visits_report (pins : List PlannedPin) (w : World) : List.Forall₂ (Reports false) pins
    ((visits root adopt observer pins w).map Visit.row) := by
  induction pins generalizing w with
  | nil => exact .nil
  | cons p rest ih => exact .cons (Visit.of_reports p w) (ih _)

theorem exec_foresee_fst (pins : List PlannedPin) (w : World) :
    ((foresee observer pins).exec w).1
      = .ok (pins.map fun p => entryReport p (foreseen p.action)) := by
  induction pins generalizing w with
  | nil => rfl
  | cons p rest ih =>
    have told : (tell observer (.finished (entryReport p (foreseen p.action)))
      : Action SyncError Unit).exec w = (.ok (), _) := rfl
    rw [foresee, exec_bind_ok told, exec_bind_ok (Prod.ext (ih _) rfl)]
    rfl

theorem sync_reports_plan (pooled : ∀ groups, Groups.Interleaves groups (options.schedule groups))
    (ran : ((sync root table options backends observer).exec w).1 = .ok report) :
    ∃ plan sequence rows,
      Plan.build w.disk root table backends options.filter options.adoptUnmanaged = .ok plan ∧
      sequence.Perm plan.pins ∧ List.Forall₂ (Reports options.dryRun) sequence rows ∧
      report = .ofEntries options.dryRun rows := by
  obtain ⟨plan, build, ran⟩ := sync_plan (Prod.ext ran rfl)
  cases kind : options.dryRun with
  | false =>
    rw [kind] at ran
    obtain ⟨-, rfl, -⟩ := carryOut_ok ran
    exact ⟨plan, _, _, build, (sequence_of_build build (pooled _)).1, visits_report _ _, rfl⟩
  | true =>
    have told : (tell observer (.began plan.pins.length) : Action SyncError Unit).exec w = (.ok (), _) :=
      rfl
    rw [kind, if_pos rfl, exec_bind_ok told,
      exec_bind_ok (Prod.ext (exec_foresee_fst plan.pins _) rfl)] at ran
    obtain rfl : SyncReport.ofEntries true _ = report := Except.ok.inj (congrArg Prod.fst ran)
    refine ⟨plan, plan.pins, _, build, .refl _, ?_, rfl⟩
    exact List.forall₂_map_right_iff.mpr
      (List.forall₂_same.mpr fun p _ => ⟨_, rfl, fits_foreseen p.action⟩)

theorem Reports.describes (valid : table.validate backends = .ok placed) (listed : p.toPlacedPin ∈ placed)
    {dryRun : Bool} {row : EntryReport} (reports : Reports dryRun p row) :
    EntryReport.Describes backends p.pin row := by
  obtain ⟨outcome, rfl, -⟩ := reports
  have parsed := PlacedPin.destinationOf_ok.mp (PinTable.destinationOf_of_valid valid listed)
  exact ⟨rfl, ⟨_, parsed, rfl⟩, rfl, _, (PinTable.validate_ok valid).1.resolved _ listed, rfl⟩

theorem selected_of_plan (valid : table.validate backends = .ok placed)
    (build : Plan.build w.disk root table backends options.filter options.adoptUnmanaged = .ok plan) :
    plan.pins.map (·.pin) = table.selected options.filter ∧ ∀ p ∈ plan.pins, p.toPlacedPin ∈ placed := by
  have chosen := Plan.selected_of_build valid build
  refine ⟨?_, fun p member => ?_⟩
  · have pins : plan.pins.map (·.pin) = (plan.pins.map (·.toPlacedPin)).map (·.pin) := by
      rw [List.map_map]
      rfl
    rw [pins, chosen, PinTable.selected, ← (PinTable.validate_ok valid).2, List.filter_map]
    refine congrArg _ (List.filter_congr fun p _ => ?_)
    cases options.filter <;> rfl
  · exact (List.mem_filter.mp (chosen ▸ List.mem_map_of_mem member)).1

theorem accounts_of_build
    (build : Plan.build w.disk root table backends options.filter options.adoptUnmanaged = .ok plan)
    (perm : sequence.Perm plan.pins) (each : List.Forall₂ (Reports options.dryRun) sequence rows) :
    (SyncReport.ofEntries options.dryRun rows).Accounts table options backends := by
  obtain ⟨placed, valid, -, -⟩ := Plan.build_ok build
  obtain ⟨pins, listed⟩ := selected_of_plan valid build
  have sorted : rows.Perm (SyncReport.ofEntries options.dryRun rows).entries :=
    (SyncReport.entries_perm _ rows).symm
  have ids : rows.map (·.id) = sequence.map (·.pin.id) := by
    rw [← List.forall₂_eq_eq_eq, List.forall₂_map_left_iff, List.forall₂_map_right_iff]
    refine each.flip.imp ?_
    rintro row p ⟨outcome, rfl, -⟩
    rfl
  refine ⟨rfl, ?_, SyncReport.ordered_ofEntries _ ?_, fun entry member => ?_⟩
  · -- the lines are sorted, so the pins have to follow them into that order
    obtain ⟨sequence', perm', each'⟩ : Relation.Comp List.Perm
        (List.Forall₂ (Reports options.dryRun)) sequence
        (SyncReport.ofEntries options.dryRun rows).entries := by
      rw [← List.forall₂_comp_perm_eq_perm_comp_forall₂]
      exact ⟨rows, each, sorted⟩
    have whole := perm'.symm.trans perm
    refine ⟨sequence'.map (·.pin), pins ▸ whole.map _, List.forall₂_map_left_iff.mpr ?_⟩
    obtain ⟨long, pairs⟩ := List.forall₂_iff_zip.mp each'
    refine List.forall₂_iff_zip.mpr ⟨long, fun pair => ?_⟩
    exact (pairs pair).describes valid (listed _ (whole.subset (List.of_mem_zip pair).1))
  · rw [ids]
    exact ((perm.map _).nodup_iff).mpr (ids_of_build valid build)
  · obtain ⟨p, -, outcome, rfl, fits⟩ := forall₂_of_mem each (sorted.mem_iff.mpr member)
    exact fits

/-- A report leaves no pin out that its run is about and lists none twice, its summary counts each line
once, and whether all went well can be told from its lines, from its summary and from the exit code. -/
theorem sync_reports (pooled : ∀ groups, Groups.Interleaves groups (options.schedule groups))
    (ran : ((sync root table options backends observer).exec w).1 = .ok report) :
    report.Accounts table options backends ∧
    (report.summary.current + report.summary.fetched + report.summary.updated
        + report.summary.pending + report.summary.failed = report.entries.length ∧
      report.summary.cancelled ≤ report.summary.failed) ∧
    (report.summary.current = report.labelled "already-current" ∧
      report.summary.fetched = report.labelled "fetched-new" ∧
      report.summary.updated = report.labelled "updated" ∧
      report.summary.pending = report.labelled "would-fetch" + report.labelled "would-update" ∧
      report.summary.failed = report.labelled "failed" ∧
      report.summary.cancelled = (report.entries.map (·.outcome)).count (.failed .cancelled)) ∧
    (report.isSuccess = true ↔ report.failures = []) ∧
    (report.isSuccess = true ↔ report.summary.failed = 0) ∧
    (backends = Backend.standard → (observer = fun _ => pure ()) → ∀ terminal config path,
      ((CommandLine.runSync terminal ⟨root, config, path, table⟩ options).run w).1.code = 0 ↔
        report.isSuccess = true) := by
  obtain ⟨plan, sequence, rows, build, perm, each, rfl⟩ := sync_reports_plan pooled ran
  generalize accounted : SyncReport.ofEntries options.dryRun rows = report at ran
  obtain ⟨current, fetched, updated, pending, failed⟩ := report.summary_labelled
  refine ⟨accounted ▸ accounts_of_build build perm each,
    ⟨report.summary_total, report.cancelled_le_failed⟩,
    ⟨current, fetched, updated, pending, failed, ?_⟩,
    report.isSuccess_iff_failures, report.isSuccess_iff_failed, ?_⟩
  · simp only [SyncReport.summary, SyncReport.count, List.count_eq_countP, List.countP_map]
    exact List.countP_congr fun entry _ => by simp
  · rintro rfl rfl terminal config path
    rw [CommandLine.runSync_code, CommandLine.syncIn, ran]
    cases success : report.isSuccess <;> simp [success, exitSuccess, exitFailure]

def mirroredTable : PinTable := ⟨[⟨"b", "file://m", "r1", "x/b"⟩, ⟨"a", "file://m", "r9", "./x//a"⟩,
  ⟨"c", "file://m", "r1", "c"⟩]⟩

def mirroredDisk : Disk where
  home := []
  nodes := [(["m"], .dir), (["m", "r1"], .dir), (["m", "r1", "f"], .file ⟨#[7]⟩ 0o644), (["root"], .dir)]
  distinct := by decide

def mirroredOptions : SyncOptions := { filter := some ⟨["a", "b"]⟩ }

def missingRow : EntryReport :=
  ⟨"a", "x/a", "r9", "mirror", .failed (.fetch "revision 'r9' not found in file://m")⟩

def mirroredRow : EntryReport := ⟨"b", "x/b", "r1", "mirror", .fetchedNew⟩

def mirroredReport : SyncReport := ⟨false, [missingRow, mirroredRow]⟩

theorem mirroredRun_ran : ((sync (.ofText "root") mirroredTable mirroredOptions Backend.standard
    fun _ => pure ()).exec { disk := mirroredDisk }).1 = .ok mirroredReport := by
  have replayed : (replay (.ofText "root") mirroredTable mirroredOptions Backend.standard
      (fun _ => pure ()) [missingRow, mirroredRow] { disk := mirroredDisk }).any (fun replayed =>
        replayed.1.map Visit.row = [mirroredRow, missingRow] ∧ True) = true := by
    decide +kernel
  obtain ⟨w', ran, -⟩ := exec_sync (P := fun _ _ => True) (by decide) rfl replayed (.swap _ _ _)
    (by decide)
  exact congrArg Prod.fst ran

theorem mirroredRun_reports :
    mirroredReport.Accounts mirroredTable mirroredOptions Backend.standard ∧
    ((CommandLine.runSync {} ⟨.ofText "root", {}, .ofText "t", mirroredTable⟩ mirroredOptions).run
      { disk := mirroredDisk }).1.code ≠ 0 := by
  obtain ⟨accounts, -, -, -, -, code⟩ := sync_reports Groups.interleaves_flatten mirroredRun_ran
  refine ⟨accounts, fun success => ?_⟩
  exact absurd ((code rfl rfl {} {} (.ofText "t")).mp success) (by decide)

end Sync

end PinnedTree
