import PinnedTree.Proofs.Report
import PinnedTree.Proofs.RunState.Saving
import PinnedTree.Proofs.Sync.Pinning

namespace PinnedTree

structure Observer.Patient (observer : Observer) : Prop where
  passive : observer.Passive
  token : ∀ event w, ((observer event).run w).2.token = w.token

namespace Sync

open PinnedTree.Action Transaction

def Calm (d : Disk) (w : World) : Prop := w.disk = d ∧ w.token.pollsLeft = none

variable {d : Disk} {w : World} {observer : Observer}

theorem Calm.tell {ε : Type} (calm : Calm d w) (patient : observer.Patient) (event : Event) :
    ∃ w', (Sync.tell observer event : Action ε Unit).exec w = (.ok (), w') ∧ Calm d w' :=
  ⟨_, rfl, (patient.passive event (w.announce event)).1.trans calm.1,
    (congrArg (·.pollsLeft) (patient.token event (w.announce event))).trans calm.2⟩

theorem Calm.poll (calm : Calm d w) : ∃ w', Backend.poll.exec w = (.ok (), w') ∧ Calm d w' := by
  have untripped : w.token.isTripped = false := by simp [CancelToken.isTripped, calm.2]
  have asked : (isCancelled : Action FetchError Bool).exec w
      = (.ok false, { w with token := w.token.afterPoll }) := by
    rw [← untripped]
    rfl
  refine ⟨{ w with token := w.token.afterPoll }, ?_, calm.1, ?_⟩
  · rw [Backend.poll, exec_bind_ok asked]
    rfl
  · simp [CancelToken.afterPoll, calm.2]

theorem foldl_recordEntry_same {table : PinTable} {state : RunState} {entries : List EntryReport}
    (each : ∀ entry ∈ entries, recordEntry table state entry = state) :
    entries.foldl (recordEntry table) state = state := by
  induction entries with
  | nil => rfl
  | cons entry rest ih =>
    rw [List.forall_mem_cons] at each
    rw [List.foldl_cons, each.1, ih each.2]

namespace Terrain

variable {t : Terrain} {p : PlannedPin} {adopt : Bool} {name : String}

theorem Room.leads (there : t.Room d name) (orderly : t.Orderly d) (plain : IsName name) :
    d.leadsToDir (t.root.below [stateDirectory, name]) = true := by
  obtain ⟨callable, isDir⟩ := there
  have unlinked : ∀ target, d.look (t.own name) ≠ some (.link target) := by simp [isDir]
  exact ((orderly.straight_room plain).leadsToDir orderly.sound unlinked).mpr ⟨callable, isDir⟩

theorem Laid.leads (laid : t.Laid d) (orderly : t.Orderly d) :
    d.leadsToDir (Layout.staging t.root) = true ∧ d.leadsToDir (Layout.backup t.root) = true := by
  rw [Site.staging_room, Site.backup_room]
  exact ⟨laid.staging.leads orderly (by decide), laid.backup.leads orderly (by decide)⟩

theorem Laid.exec_lock (laid : t.Laid w.disk) (orderly : t.Orderly w.disk)
    (free : t.own "lock" ∉ w.locks) :
    (Layout.lock t.root).exec w = (.ok (), { w with locks := t.own "lock" :: w.locks }) := by
  obtain ⟨c, m, found, writable⟩ := Layout.resolve_lock orderly.sited laid.lock
  exact Layout.exec_lock (laid.leads orderly) found writable free

structure Settled (t : Terrain) (state : RunState) (d : Disk) : Prop where
  orderly : t.Orderly d
  laid : t.Laid d
  certifies : ∀ p ∈ t.pins,
    d.Certifies (t.top ++ p.destination.names) p.pin.id p.pin.revision
  callable : ∀ p ∈ t.pins, t.root.Callable (p.destination.names ++ [markerFile])
  loads : RunState.load d t.root = .ok state
  named : t.root.Callable [stateDirectory, "state.toml"]
  file : ∃ mode, d.look (t.own "state.toml") = some (.file state.text.toUTF8 mode) ∧
    mayWrite mode = true
  records : ∀ p ∈ t.pins,
    state.get? p.pin.id = some ⟨p.destination.text, p.pin.revision, p.pin.locator⟩

variable {state : RunState}

theorem Settled.opened (settled : t.Settled state d) (member : p ∈ t.pins) :
    d.Open t.top (p.destination.names ++ [markerFile]) := by
  refine settled.orderly.sound.opened ?_
  rw [← markerPlace_eq]
  exact (settled.certifies p member).stands

theorem Settled.linkStat (settled : t.Settled state d) (surveyed : t.Surveyed)
    (member : p ∈ t.pins) {r : List String} (under : r <+: p.destination.names) (filled : r ≠ []) :
    d.linkStat (t.root.below r) = .ok .dir := by
  have within : r <+: p.destination.names ++ [markerFile] := under.trans (List.prefix_append _ _)
  have short : r ≠ p.destination.names ++ [markerFile] := fun same => by
    have longer := under.length_le
    rw [same, List.length_append, List.length_singleton] at longer
    omega
  have straight := settled.orderly.straight_marker surveyed member
  have callable := settled.callable p member
  obtain ⟨more, whole⟩ := id within
  refine ((straight.above within filled).linkStat_ok settled.orderly.sound _).mpr
    ⟨?_, settled.opened member r within short⟩
  rw [← whole] at callable
  exact callable.of_prefix filled (whole ▸ straight.plain)

theorem Settled.marker (settled : t.Settled state d) (surveyed : t.Surveyed)
    (member : p ∈ t.pins) : ∃ marker, (d.linkStat (p.destination.place t.root) = .ok .dir ∧
      Marker.read d (p.destination.place t.root) = .ok (some marker)) ∧
      marker.id = p.pin.id ∧ marker.revision = p.pin.revision := by
  obtain ⟨marker, read, names⟩ := (settled.certifies p member).read
    (settled.orderly.straight_marker surveyed member) settled.orderly.sound
    (settled.callable p member)
  exact ⟨marker, ⟨settled.linkStat surveyed member (List.prefix_refl _) p.destination.nonempty,
    read⟩, names⟩

def idle (p : PlannedPin) : PlannedPin := { p with action := .current }

theorem Settled.ofPlaced (settled : t.Settled state d) (surveyed : t.Surveyed)
    (member : p ∈ t.pins) : Plan.ofPlaced d t.root t.all adopt p.toPlacedPin
      = .ok (idle p) := by
  obtain ⟨marker, found, id, revision⟩ := settled.marker surveyed member
  have clear := @Plan.checkNoLink_dirs d t.root p.pin [] p.destination.names fun r under filled =>
    settled.linkStat surveyed member under filled
  have inspected : Inspection.ofOuter d (p.destination.place t.root) p.nested
      = .ok (.marked marker) := Inspection.ofOuter_marked.mpr (Inspection.ofPlace_marked.mpr found)
  have decided := (@decideAction_current p.pin.id p.pin.revision _ adopt).mpr
    ⟨marker, rfl, id, revision⟩
  simp only [Plan.ofPlaced, clear, inspected, decided, bind, Except.bind, Except.mapError, pure,
    Except.pure, ← surveyed.nested p member, idle]

theorem Settled.exec_runPin (settled : t.Settled state d) (surveyed : t.Surveyed)
    (member : p ∈ t.pins) (calm : Calm d w) (patient : observer.Patient) :
    ∃ w', (runPin t.root adopt observer (idle p)).exec w
      = (.ok (entryReport p .alreadyCurrent), w') ∧ Calm d w' := by
  obtain ⟨w₁, started, calm₁⟩ := calm.tell (ε := SyncError) patient (.started p.pin.id)
  obtain ⟨w₂, polled, calm₂⟩ := calm₁.poll
  obtain ⟨w₃, finished, calm₃⟩ := calm₂.tell (ε := SyncError) patient
    (.finished (entryReport p .alreadyCurrent))
  have found := settled.marker surveyed member
  have current : reconsider d t.root adopt (idle p) = .ok .current := reconsider_current.mpr found
  have executed : (execute t.root adopt (idle p)).exec w₁ = (.ok .alreadyCurrent, w₂) := by
    have asked : (query (reconsider · t.root adopt (idle p))).exec w₂ = (.ok .current, w₂) := by
      rw [exec_query, calm₂.1, current]
    rw [execute, exec_bind_ok polled, exec_bind_ok asked]
    rfl
  have tried : (outcome (execute t.root adopt (idle p)) : Action SyncError _).exec w₁
      = (.ok (.ok .alreadyCurrent), w₂) := by
    rw [exec_outcome, executed]
  refine ⟨w₃, ?_, calm₃⟩
  refine (exec_bind_ok started).trans ((exec_bind_ok tried).trans ?_)
  change (tell observer (.finished (entryReport p .alreadyCurrent)) >>=
    fun _ => pure (entryReport p .alreadyCurrent)).exec w₂ = _
  exact exec_bind_ok finished

theorem Settled.exec_runPins (settled : t.Settled state d) (surveyed : t.Surveyed)
    (calm : Calm d w) (patient : observer.Patient) (order : List Nat) :
    ∃ w', (runPins ⟨t.root, t.pins.map idle⟩ adopt observer order).exec w
      = (.ok ((order.filterMap (t.pins[·]?)).map (entryReport · .alreadyCurrent)), w') ∧
        Calm d w' := by
  induction order generalizing w with
  | nil => exact ⟨w, rfl, calm⟩
  | cons i rest ih =>
    rw [runPins, List.getElem?_map]
    cases found : t.pins[i]? with
    | none =>
      rw [List.filterMap_cons_none found]
      exact ih calm
    | some p =>
      obtain ⟨w₁, ran, calm₁⟩ : ∃ w', (runPin t.root adopt observer (idle p)).exec w = _ ∧ _ :=
        settled.exec_runPin surveyed (List.mem_of_getElem? found) calm patient
      obtain ⟨w₂, others, calm₂⟩ := ih calm₁
      refine ⟨w₂, ?_, calm₂⟩
      rw [List.filterMap_cons_some found]
      exact (exec_bind_ok ran).trans (exec_bind_ok others)

variable {table : PinTable} {rows : List EntryReport}

theorem Settled.exec_record (settled : t.Settled state w.disk)
    (same : recorded table (.ofEntries false rows) state = state) :
    ((record t.root table (.ofEntries false rows)).exec w).1 = .ok () ∧
      ∀ q, ((record t.root table (.ofEntries false rows)).exec w).2.disk.look q = w.disk.look q := by
  obtain ⟨mode, file, writable⟩ := settled.file
  have straight := settled.orderly.straight_room (show IsName "state.toml" by decide)
  have loaded : (query (RunState.load · t.root)).exec w = (.ok state, w) := by
    rw [exec_query, settled.loads]
  have saved : (state.save t.root).exec w = (reporting
      (SyncError.state (t.root.below [stateDirectory, "state.toml"]).text)
      (Files.write (t.root.below [stateDirectory, "state.toml"]) state.text.toUTF8)).exec w := by
    rw [RunState.save, exec_bind_ok (Layout.exec_ensure (settled.laid.leads settled.orderly)),
      RunState.stateFile_below]
    rfl
  obtain ⟨ok, still⟩ := Files.write_same straight settled.orderly.sound settled.named file writable
  rw [record, exec_bind_ok loaded, same, saved, exec_reporting]
  exact ⟨by rw [ok]; rfl, still⟩

theorem Settled.exec_carryOut (settled : t.Settled state w.disk) (surveyed : t.Surveyed)
    (free : t.own "lock" ∉ w.locks) (untripped : w.token.pollsLeft = none)
    (patient : observer.Patient) {options : SyncOptions}
    (listed : rows = ((options.schedule (Plan.groups ⟨t.root, t.pins.map idle⟩)).filterMap
      (t.pins[·]?)).map (entryReport · .alreadyCurrent))
    (same : recorded table (.ofEntries false rows) state = state) :
    ∃ w', (carryOut ⟨t.root, t.pins.map idle⟩ table options observer).exec w
      = (.ok (.ofEntries false rows), w') ∧ ∀ q, w'.disk.look q = w.disk.look q := by
  have locked := settled.laid.exec_lock settled.orderly free
  generalize here : ({ w with locks := t.own "lock" :: w.locks } : World) = w₁ at locked
  have calm : Calm w.disk w₁ := here ▸ ⟨rfl, untripped⟩
  obtain ⟨n, recovered⟩ := (calm.1 ▸ settled.orderly : t.Orderly w₁.disk).recover
  have cleared : (reporting (SyncError.state (Layout.directory t.root).text)
      (Recovery.recover t.root)).exec w₁ = (.ok n, w₁) := by
    rw [exec_reporting, recovered]
    rfl
  obtain ⟨w₂, began, calm₂⟩ := calm.tell (ε := SyncError) patient
    (.began (t.pins.map idle).length)
  obtain ⟨w₃, ran, calm₃⟩ : ∃ w', (runPins ⟨t.root, t.pins.map idle⟩ options.adoptUnmanaged observer
      (options.schedule (Plan.groups ⟨t.root, t.pins.map idle⟩))).exec w₂ = _ ∧ _ :=
    settled.exec_runPins surveyed calm₂ patient _
  rw [← listed] at ran
  obtain ⟨ok, still⟩ := (calm₃.1 ▸ settled : t.Settled state w₃.disk).exec_record same
  generalize written : (record t.root table (.ofEntries false rows)).exec w₃ = ended at ok still
  obtain ⟨r, w₄⟩ := ended
  cases ok
  obtain ⟨w₅, whole, released⟩ : ∃ w',
      (carryOut ⟨t.root, t.pins.map idle⟩ table options observer).exec w
        = (.ok (SyncReport.ofEntries false rows), w') ∧ w'.disk = w₄.disk := by
    refine Layout.exec_whileLocked locked ?_
    refine (exec_bind_ok cleared).trans ?_
    refine (exec_bind_ok began).trans ?_
    refine (exec_bind_ok ran).trans ?_
    exact (exec_bind_ok written).trans rfl
  exact ⟨w₅, whole, fun q => by rw [released, ← calm₃.1]; exact still q⟩

theorem Settled.recorded (settled : t.Settled state d)
    (tabled : ∀ p ∈ t.pins, table.get? p.pin.id = some p.pin)
    (listed : ∀ row ∈ rows, ∃ p ∈ t.pins, row = entryReport p .alreadyCurrent) :
    recorded table (.ofEntries false rows) state = state := by
  refine foldl_recordEntry_same fun entry member => ?_
  obtain ⟨p, planned, rfl⟩ := listed entry
    ((List.mergeSort_perm _ _).mem_iff.mp (List.mem_filter.mp member).1)
  have found : table.get? (entryReport p .alreadyCurrent).id = some p.pin := tabled p planned
  rw [recordEntry, found]
  exact RunState.insert_same (settled.records p planned)

theorem Accounts.certified {sequence : List PlannedPin} {record : Option Node}
    (accounts : t.Accounts sequence record [] rows d)
    (success : ∀ row ∈ rows, row.outcome.isFailure = false) {p : PlannedPin}
    (member : p ∈ sequence) : ∃ outcome, entryReport p outcome ∈ rows ∧
      d.Certifies (t.top ++ p.destination.names) p.pin.id p.pin.revision := by
  obtain ⟨done, rfl, accounted⟩ := accounts.done
  obtain ⟨row, there, outcome, rfl, certifies⟩ := forall₂_of_mem accounted.flip
    (show p ∈ done by simpa using member)
  exact ⟨outcome, there, certifies (success _ there)⟩

theorem Concluded.settled {report : SyncReport} {sequence : List PlannedPin} {e : Disk}
    (orderly : t.Orderly d)
    (concluded : t.Concluded table (t.Accounts sequence (d.look (t.own "state.toml"))) report e)
    (once : (sequence.map (·.pin.id)).Nodup) (whole : ∀ p ∈ t.pins, p ∈ sequence)
    (callable : ∀ p ∈ t.pins, t.root.Callable (p.destination.names ++ [markerFile]))
    (tabled : ∀ p ∈ t.pins, table.get? p.pin.id = some p.pin)
    (success : report.isSuccess = true) : ∃ state, t.Settled state e := by
  obtain ⟨before, mode, -, loads, file, writable⟩ := concluded.loads orderly fun holds =>
    holds.record
  refine ⟨recorded table report before, ?_⟩
  cases concluded with
  | intro lines _ holds furnished _ named _ _ stood =>
    subst lines
    rw [SyncReport.isSuccess_ofEntries] at success
    have lines := (holds.ended once).1
    refine ⟨furnished.orderly, ?_, fun p member => ?_, callable, loads, named, ⟨mode, file, writable⟩,
      fun p member => ?_⟩
    · exact holds.laid.kept fun name node other => stood _ node (t.own_ne other)
    · obtain ⟨-, -, certifies⟩ := holds.certified success (whole p member)
      refine certifies.congr ?_
      rw [markerPlace_eq]
      exact furnished.elsewhere _ (Layout.outside p.destination [markerFile])
    · obtain ⟨outcome, line, -⟩ := holds.certified success (whole p member)
      exact recorded_mem lines line (success _ line) (tabled p member)

end Terrain

variable {root : Location} {table : PinTable} {options : SyncOptions} {backends : List Backend}
  {top : DiskPath} {placed : List PlacedPin} {report : SyncReport} {plan : Plan} {w : World}
  {visits : List Visit}

theorem Setting.tabled (setting : Setting root table options backends observer top placed w)
    (build : Plan.build w.disk root table backends options.filter options.adoptUnmanaged = .ok plan)
    {p : PlannedPin} (member : p ∈ plan.pins) :
    p.toPlacedPin ∈ placed.filter (Plan.selects options.filter) ∧
      table.get? p.pin.id = some p.pin := by
  obtain ⟨-, selected, -, -⟩ := setting.planned build []
  have listed : p.toPlacedPin ∈ placed.filter (Plan.selects options.filter) :=
    selected ▸ List.mem_map_of_mem member
  exact ⟨listed, PinTable.get?_of_valid setting.valid (List.mem_filter.mp listed).1⟩

theorem Setting.plan_again {e : Disk} {state : RunState}
    (setting : Setting root table options backends observer top placed w)
    (build : Plan.build w.disk root table backends options.filter options.adoptUnmanaged = .ok plan)
    (settled : (Terrain.ofPlan top placed plan visits).Settled state e) :
    Plan.build e root table backends options.filter options.adoptUnmanaged
      = .ok ⟨root, plan.pins.map Terrain.idle⟩ := by
  obtain ⟨rfl, selected, surveyed, -⟩ := setting.planned build visits
  let again (q : PlacedPin) : PlannedPin :=
    ⟨q, .current, q.destination.nestedIn (placed.map (·.destination))⟩
  have idle : ∀ p ∈ plan.pins, again p.toPlacedPin = Terrain.idle p := fun p member => by
    have nested : p.nested = p.destination.nestedIn (placed.map (·.destination)) :=
      surveyed.nested p member
    rw [Terrain.idle, nested]
  have made : ∀ q ∈ placed.filter (Plan.selects options.filter), Plan.ofPlaced e plan.root
      (placed.map (·.destination)) options.adoptUnmanaged q = .ok (again q) := fun q listed => by
    rw [← selected] at listed
    obtain ⟨p, member, rfl⟩ := List.mem_map.mp listed
    rw [idle p member]
    exact settled.ofPlaced surveyed member
  rw [Plan.build_again build setting.valid made, ← selected, List.map_map]
  have same : plan.pins.map (again ∘ (·.toPlacedPin)) = plan.pins.map Terrain.idle :=
    List.map_congr_left idle
  rw [same]

def currentRow (p : PlacedPin) : EntryReport :=
  ⟨p.pin.id, p.destination.text, p.pin.revision, p.backend.name, .alreadyCurrent⟩

section Again

variable {later : World} {watcher : Observer} {schedule : List (List Nat) → List Nat}

/-- A run over a plan whose pins are in place reports all of them as current and leaves everything
as it is. -/
theorem Setting.exec_again {state : RunState}
    (setting : Setting root table options backends observer top placed w)
    (build : Plan.build w.disk root table backends options.filter options.adoptUnmanaged = .ok plan)
    (busy : options.parallelism ≠ 0) (real : options.dryRun = false)
    (settled : (Terrain.ofPlan top placed plan visits).Settled state later.disk)
    (free : top ++ [stateDirectory, "lock"] ∉ later.locks)
    (untripped : later.token.pollsLeft = none) (patient : watcher.Patient)
    (pooled : ∀ groups, Groups.Interleaves groups (schedule groups)) :
    ∃ rows w', (PinnedTree.sync root table { options with schedule } backends watcher).exec later
        = (.ok (.ofEntries false rows), w') ∧
      rows.Perm ((placed.filter (Plan.selects options.filter)).map currentRow) ∧
      ∀ q, w'.disk.look q = later.disk.look q := by
  have again := setting.plan_again build settled
  obtain ⟨rfl, selected, surveyed, -⟩ := setting.planned build visits
  obtain ⟨perm, -⟩ := sequence_of_build build (pooled _)
  have groups : Plan.groups ⟨plan.root, plan.pins.map Terrain.idle⟩ = plan.groups := by
    rw [Plan.groups, List.map_map]
    rfl
  obtain ⟨rows, listed⟩ : ∃ rows, rows = ((schedule plan.groups).filterMap (plan.pins[·]?)).map
      (entryReport · .alreadyCurrent) := ⟨_, rfl⟩
  have same : recorded table (.ofEntries false rows) state = state := by
    refine settled.recorded (fun p member => (setting.tabled build member).2) fun row member => ?_
    rw [listed] at member
    obtain ⟨p, there, rfl⟩ := List.mem_map.mp member
    exact ⟨p, perm.subset there, rfl⟩
  obtain ⟨w', carried, still⟩ : ∃ w', (carryOut ⟨plan.root, plan.pins.map Terrain.idle⟩ table
      { options with schedule } watcher).exec later = (.ok (.ofEntries false rows), w') ∧ _ :=
    settled.exec_carryOut surveyed free untripped patient (groups ▸ listed) same
  have planned : (reporting SyncError.config (query (Plan.build · plan.root table backends
      options.filter options.adoptUnmanaged))).exec later
        = (.ok ⟨plan.root, plan.pins.map Terrain.idle⟩, later) := by
    rw [exec_reporting, exec_query, again]
    rfl
  refine ⟨rows, w', ?_, ?_, still⟩
  · rw [PinnedTree.sync, if_neg busy]
    refine (exec_bind_ok planned).trans ?_
    rw [if_neg (by simp [real])]
    exact carried
  · rw [listed, ← selected, List.map_map]
    exact perm.map _

/-- A run after one that put everything in place reports all its pins as current and leaves
everything as it is, in whatever order it comes to them. -/
theorem sync_settles
    (setting : Setting root table options backends observer top placed w)
    (pooled : ∀ groups, Groups.Interleaves groups (options.schedule groups))
    (markable : Markable root top (placed.filter (Plan.selects options.filter))
      (journey root table options backends observer w) w.disk)
    (callable : ∀ p ∈ placed.filter (Plan.selects options.filter),
      root.Callable (p.destination.names ++ [markerFile]))
    (real : options.dryRun = false)
    (reported : ((sync root table options backends observer).exec w).1 = .ok report)
    (success : report.isSuccess = true)
    (next : later.disk = ((sync root table options backends observer).exec w).2.disk)
    (free : top ++ [stateDirectory, "lock"] ∉ later.locks)
    (untripped : later.token.pollsLeft = none) (patient : watcher.Patient)
    (pooledNext : ∀ groups, Groups.Interleaves groups (schedule groups)) :
    ∃ rows, ((sync root table { options with schedule } backends watcher).exec later).1
        = .ok (.ofEntries false rows) ∧
      rows.Perm ((placed.filter (Plan.selects options.filter)).map currentRow) ∧
      ∀ q, ((sync root table { options with schedule } backends watcher).exec later).2.disk.look q
        = later.disk.look q := by
  obtain ⟨plan, build, concluded⟩ := setting.accounts rfl pooled markable real reported
  obtain ⟨rfl, -, -, orderly⟩ := setting.planned build
    (journey root table options backends observer w)
  obtain ⟨perm, -⟩ := sequence_of_build build (pooled _)
  obtain ⟨state, settled⟩ := concluded.settled orderly
    ((perm.map _).nodup_iff.mpr (ids_of_build setting.valid build)) (fun p member => perm.symm.subset member)
    (fun p member => callable _ (setting.tabled build member).1)
    (fun p member => (setting.tabled build member).2) success
  have busy : options.parallelism ≠ 0 := fun none => by
    rw [sync, if_pos none] at reported
    cases reported
  obtain ⟨rows, w', ran, lines, still⟩ := setting.exec_again build busy real
    (next.symm ▸ settled) free untripped patient pooledNext
  rw [ran]
  exact ⟨rows, rfl, lines, still⟩

end Again

theorem noObserver_patient : noObserver.Patient := ⟨fun _ _ => ⟨rfl, rfl⟩, fun _ _ => rfl⟩

def nestedRun_world : World :=
  ((sync (.ofText "root") nestedTable outerOnly fileBackends noObserver).exec
    { disk := mirrorsDisk }).2

theorem nestedRun_unlocked : ["root"] ++ [stateDirectory, "lock"] ∉ nestedRun_world.locks ∧
    nestedRun_world.token.pollsLeft = none := by
  obtain ⟨w', ran, -, free, untripped⟩ := nestedRun_ran
  have ended : nestedRun_world = w' := by
    rw [nestedRun_world]
    exact congrArg Prod.snd ran
  rw [ended]
  exact ⟨free, untripped⟩

/-- A second run finds the outer pin in place. -/
theorem nestedRun_settles :
    ∃ rows, ((sync (.ofText "root") nestedTable { outerOnly with schedule := List.flatten }
        fileBackends noObserver).exec nestedRun_world).1
          = .ok (.ofEntries false rows) ∧
      rows.Perm (([outerPin, innerPin].filter (Plan.selects outerOnly.filter)).map currentRow) ∧
      ∀ q, ((sync (.ofText "root") nestedTable { outerOnly with schedule := List.flatten }
        fileBackends noObserver).exec nestedRun_world).2.disk.look q
          = nestedRun_world.disk.look q := by
  have callable : ∀ p ∈ [outerPin, innerPin].filter (Plan.selects outerOnly.filter),
      (Location.ofText "root").Callable (p.destination.names ++ [markerFile]) := by
    have only : [outerPin, innerPin].filter (Plan.selects outerOnly.filter) = [outerPin] := rfl
    rw [only]
    intro p member
    obtain rfl := List.mem_singleton.mp member
    unfold Location.Callable
    decide +kernel
  exact sync_settles (w := { disk := mirrorsDisk }) nested_setting Groups.interleaves_flatten
    nestedRun_markable callable rfl nestedRun_reports (by decide) (by rw [nestedRun_world])
    nestedRun_unlocked.1 nestedRun_unlocked.2 noObserver_patient Groups.interleaves_flatten

end Sync

end PinnedTree
