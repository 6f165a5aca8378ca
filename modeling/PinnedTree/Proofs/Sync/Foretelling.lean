import PinnedTree.Proofs.Plan.Inspection
import PinnedTree.Proofs.Report
import PinnedTree.Proofs.Sync.Refusal
import PinnedTree.Proofs.Sync.Repeat

namespace PinnedTree

namespace Sync

open PinnedTree.Action Transaction

/-- The trees of the pins that a run is about stay as they are until the pins are handled. -/
structure Undisturbed (root : Location) (top : DiskPath) (all : List Destination)
    (chosen : List PlacedPin) (visits : List Visit) (d : Disk) : Prop where
  plain : ∀ p ∈ chosen, ∀ target,
    d.look (top ++ (p.destination.names ++ [markerFile])) ≠ some (.link target)
  vacant : ∀ visit ∈ visits, ∀ new ∈ visit.brought root top, ∀ inner ∈ all, ∀ rest,
    inner.names = visit.pin.destination.names ++ rest → rest ≠ [] → new rest = none
  room : ∀ p ∈ chosen, ∀ inner ∈ all, ∀ rest, inner.names = p.destination.names ++ rest →
    rest ≠ [] → d.look (top ++ inner.names) ≠ none →
    root.Callable ([stateDirectory, "backup", slotName p.pin.id] ++ rest)

theorem exec_tell {ε : Type} {observer : Observer} {w : World} (passive : observer.Passive)
    (event : Event) :
    ∃ w', (tell observer event : Action ε Unit).exec w = (.ok (), w') ∧ w'.disk = w.disk :=
  ⟨_, rfl, (passive event (w.announce event)).1⟩

theorem reconsider_planned {d : Disk} {root : Location} {all : List Destination} {adopt : Bool}
    {placed : PlacedPin} {p : PlannedPin} (made : Plan.ofPlaced d root all adopt placed = .ok p) :
    reconsider d root adopt p = .ok p.action := by
  simp only [Plan.ofPlaced, bind, Except.bind, pure, Except.pure] at made
  split at made
  · cases made
  split at made
  · cases made
  rename_i found inspected
  split at made
  · cases made
  rename_i action decided
  cases made
  have seen : Inspection.ofOuter d (placed.destination.place root) (placed.destination.nestedIn all)
      = .ok found := by
    revert inspected
    cases Inspection.ofOuter d _ _ <;> simp [Except.mapError]
  have answer : decideAction placed.pin.id placed.pin.revision found adopt = .ok action := by
    revert decided
    cases decideAction _ _ _ _ <;> simp [Except.mapError]
  simp [reconsider, seen, answer, Except.mapError, bind, Except.bind]

theorem reconsider_of_build {d : Disk} {root : Location} {table : PinTable} {backends : List Backend}
    {filter : Option IdFilter} {adopt : Bool} {plan : Plan}
    (build : Plan.build d root table backends filter adopt = .ok plan) :
    ∀ p ∈ plan.pins, reconsider d plan.root adopt p = .ok p.action := by
  obtain ⟨_, -, rfl, each⟩ := Plan.build_ok build
  intro p member
  obtain ⟨q, -, made⟩ := forall₂_of_mem each member
  exact reconsider_planned made

namespace Terrain

/-- New content has nothing at other destinations, and there is room for what stands there. -/
structure Yields (t : Terrain) (d : Disk) : Prop where
  vacant : ∀ p new, t.stock p new → ∀ inner ∈ t.all, ∀ rest,
    inner.names = p.destination.names ++ rest → rest ≠ [] → new rest = none
  room : ∀ p ∈ t.chosen, ∀ inner ∈ t.all, ∀ rest, inner.names = p.destination.names ++ rest →
    rest ≠ [] → d.look (t.top ++ inner.names) ≠ none →
    t.root.Callable ([stateDirectory, "backup", slotName p.pin.id] ++ rest)

variable {t : Terrain} {p q : PlannedPin} {adopt : Bool} {outcome : Outcome} {d₀ d e : Disk}

theorem Handled.untouched (handled : t.Handled adopt p d e outcome) (orderly : t.Orderly d)
    (surveyed : t.Surveyed) (yields : t.Yields d₀)
    (sound₀ : d₀.Sound) (member : p ∈ t.pins) (memberQ : q ∈ t.pins)
    (apart : ¬ q.destination.names <+: p.destination.names)
    (before : SameTree (t.top ++ q.destination.names) d₀ d) :
    SameTree (t.top ++ q.destination.names) d e := by
  intro r
  have ready := orderly.ready surveyed member
  have near := handled.near orderly.sound
  have chosen : p.toPlacedPin ∈ t.chosen := List.mem_map_of_mem member
  have known := surveyed.destination_mem memberQ
  rw [List.append_assoc]
  by_cases under : p.destination.names <+: q.destination.names ++ r
  · obtain ⟨rest, whole⟩ : p.destination.names <+: q.destination.names :=
      (List.prefix_or_prefix_of_prefix under (List.prefix_append _ r)).resolve_right apart
    have filled : rest ≠ [] := fun none => apart (by simp [← whole, none])
    have place : t.top ++ (q.destination.names ++ r) = (t.site p).destination ++ (rest ++ r) := by
      simp [Site.destination, site, siteOf, ← whole]
    rw [place]
    cases handled with
    | current same => rw [same]
    | failed quiet => exact quiet.old _
    | @renewed _ new carried _ renewal _ _ =>
      obtain ⟨c, nested, leads⟩ := Destination.nestedIn_covers known whole.symm filled
      obtain ⟨inside, inner, listed, names⟩ := Destination.mem_nestedIn nested
      have among : c ∈ p.nested := (surveyed.nested p member).symm ▸ nested
      by_cases carry : c ∈ carried
      · exact renewal.done.content.kept _ ⟨c, carry, leads.trans (List.prefix_append _ _)⟩
      -- Nothing stands there before, and nothing comes to stand there.
      · have absent : new c = none := yields.vacant p new renewal.stocked inner listed c names inside
        have within : c <+: rest ++ r := leads.trans (List.prefix_append _ _)
        have free : e.look ((t.site p).destination ++ c) = none := by
          have uncovered : ¬ Covered carried c := by
            rintro ⟨c', taken, above⟩
            by_cases same : c' = c
            · exact carry (same ▸ taken)
            · exact (ready.nestedApart c' (renewal.done.each c' taken).listed c among same).1 above
          rcases renewal.done.content.fresh c uncovered with same | ⟨-, -, c', listed', above, other, -⟩
          · exact same.trans absent
          · exact absurd above (ready.nestedApart c among c' listed' other).1
        have bare : d.look ((t.site p).destination ++ (rest ++ r)) = none := by
          by_contra stands
          have standing : d.look ((t.site p).destination ++ c) ≠ none := fun gone => stands
            (orderly.sound.none_under gone ((List.prefix_append_right_inj _).mpr within))
          have stood : d₀.look (t.top ++ inner.names) ≠ none := fun gone => stands <| by
            rw [← place, ← List.append_assoc, before r, List.append_assoc]
            refine sound₀.none_under gone ((List.prefix_append_right_inj _).mpr ?_)
            rw [names, ← whole, List.append_assoc]
            exact (List.prefix_append_right_inj _).mpr within
          rcases renewal.done.settled c among with carried | gone | taken | long
          · exact carry carried
          · exact standing gone
          · exact taken absent
          · exact long (yields.room _ chosen inner listed c names inside stood)
        rw [bare]
        exact near.sound.none_under free ((List.prefix_append_right_inj _).mpr within)
  · have away : ¬ (t.site p).destination <+: t.top ++ (q.destination.names ++ r) := fun leads =>
      under ((List.prefix_append_right_inj t.top).mp leads)
    rcases near.beside ready (Layout.outside q.destination r) away with same | ⟨-, -, above, -⟩
    · exact same
    · have leads : q.destination.names ++ r <+: p.destination.names :=
        (List.prefix_append_right_inj t.top).mp above
      exact absurd ((List.prefix_append _ r).trans leads) apart

theorem Orderly.straight (orderly : t.Orderly d) (surveyed : t.Surveyed) (member : p ∈ t.pins) :
    d.Straight t.root t.top p.destination.names :=
  (Site.Near.refl orderly.sound).straight_destination (orderly.ready surveyed member)

theorem reconsider_congr (orderly : t.Orderly d) (orderly' : t.Orderly e) (surveyed : t.Surveyed)
    (member : p ∈ t.pins) (same : SameTree (t.top ++ p.destination.names) d e)
    (plain : ∀ target, d.look (t.top ++ (p.destination.names ++ [markerFile])) ≠ some (.link target))
    {action other : PlannedAction} (one : reconsider d t.root adopt p = .ok action)
    (two : reconsider e t.root adopt p = .ok other) : other = action := by
  unfold reconsider at one two
  cases found : Inspection.ofOuter d (p.destination.place t.root) p.nested with
  | error fault => simp [found, Except.mapError, bind, Except.bind] at one
  | ok seen =>
    cases found' : Inspection.ofOuter e (p.destination.place t.root) p.nested with
    | error fault => simp [found', Except.mapError, bind, Except.bind] at two
    | ok seen' =>
      obtain rfl := Inspection.ofOuter_congr (orderly.straight surveyed member)
        (orderly'.straight surveyed member) orderly.sound orderly'.sound same
        (fun n within => (Destination.mem_nestedIn (surveyed.nested p member ▸ within)).1)
        (orderly.plain p member) plain found found'
      rw [found] at one
      rw [found'] at two
      exact Except.ok.inj (two.symm.trans one)

def Accords (p : PlannedPin) (row : EntryReport) : Prop :=
  ∃ outcome, row = entryReport p outcome ∧
    (outcome.isFailure = true ∨ outcome = attained p.action)

/-- Between two pins of a sequence: those that are done came to what was planned for them, the trees
of those that are left are as they were when the run was planned, and the record is as it was. -/
structure Foretold (t : Terrain) (sequence : List PlannedPin) (d₀ : Disk) (left : List PlannedPin)
    (rows : List EntryReport) (d : Disk) : Prop where
  done : ∃ done, done ++ left = sequence ∧ List.Forall₂ Accords done rows
  trees : ∀ q ∈ left, SameTree (t.top ++ q.destination.names) d₀ d
  record : d.look (t.own "state.toml") = d₀.look (t.own "state.toml")
  laid : t.Laid d

theorem carries_foretold {sequence : List PlannedPin} (orderly₀ : t.Orderly d₀)
    (surveyed : t.Surveyed) (yields : t.Yields d₀)
    (plain : ∀ p ∈ t.chosen, ∀ target,
      d₀.look (t.top ++ (p.destination.names ++ [markerFile])) ≠ some (.link target))
    (planned : ∀ p ∈ t.pins, reconsider d₀ t.root adopt p = .ok p.action)
    (listed : ∀ p ∈ sequence, p ∈ t.pins)
    (ordered : sequence.Pairwise fun earlier later =>
      ¬ later.destination.names <+: earlier.destination.names) :
    t.Carries adopt (fun _ => True) (t.Foretold sequence d₀) where
  furnished _ _ _ := trivial
  during _ _ _ _ := trivial
  handled := by
    rintro p left rows d e outcome member orderly - ⟨⟨done, rfl, accorded⟩, trees, record, laid⟩
      handled
    obtain ⟨-, later, -⟩ := List.pairwise_append.mp ordered
    refine ⟨⟨done ++ [p], by simp, List.rel_append accorded (.cons ⟨outcome, rfl, ?_⟩ .nil)⟩,
      fun q waiting => ?_, (handled.record orderly surveyed member).trans record,
      handled.laid orderly surveyed member laid⟩
    · refine handled.found.imp_right ?_
      rintro ⟨action, found, rfl⟩
      rw [reconsider_congr orderly₀ orderly surveyed member (trees p (by simp))
        (plain _ (List.mem_map_of_mem member)) (planned p member) found]
    · have before := trees q (List.mem_cons_of_mem _ waiting)
      have further := handled.untouched orderly surveyed yields orderly₀.sound member
        (listed q (by simp [waiting])) ((List.pairwise_cons.mp later).1 q waiting) before
      exact fun r => (further r).trans (before r)

theorem Laid.usable (laid : t.Laid d) (orderly : t.Orderly d)
    (file : t.root.Callable [stateDirectory, "state.toml"] ∧ ∀ node,
      d.look (t.own "state.toml") = some node → ∃ c m, node = .file c m ∧ mayWrite m = true) :
    Layout.Usable t.root t.top d where
  directory := .inr (orderly.sited.directory_isDir laid.staging.2)
  rooms := by
    simp only [List.forall_mem_cons]
    exact ⟨⟨laid.staging.1, .inr laid.staging.2⟩, ⟨laid.backup.1, .inr laid.backup.2⟩, by simp⟩
  files := by
    simp only [List.forall_mem_cons]
    obtain ⟨callable, c, m, stands, writable⟩ := laid.lock
    refine ⟨⟨callable, fun node found => ?_⟩, file, by simp⟩
    exact ⟨c, m, Option.some.inj (found.symm.trans stands), writable⟩

variable {observer : Observer} {w : World} {table : PinTable} {options : SyncOptions}
  {plan : Plan} {state : RunState} {J : List PlannedPin → List EntryReport → Disk → Prop}

theorem Laid.record_reports (laid : t.Laid w.disk) (orderly : t.Orderly w.disk) {d₀ : Disk}
    (orderly₀ : t.Orderly d₀) (same : w.disk.look (t.own "state.toml") = d₀.look (t.own "state.toml"))
    (file : t.root.Callable [stateDirectory, "state.toml"] ∧ ∀ node,
      d₀.look (t.own "state.toml") = some node → ∃ c m, node = .file c m ∧ mayWrite m = true)
    (loads : RunState.load d₀ t.root = .ok state) (report : SyncReport) :
    ∃ w', (record t.root table report).exec w = (.ok (), w') := by
  have named : IsName "state.toml" := by decide
  have loaded : (query (RunState.load · t.root)).exec w = (.ok state, w) := by
    rw [exec_query, ← loads, RunState.load_congr (orderly₀.straight_room named) orderly₀.sound
      (orderly₀.own _ (by simp)) (orderly.straight_room named) orderly.sound same]
  have usable := laid.usable orderly (same ▸ file)
  obtain ⟨w', saved⟩ := Layout.save_succeeds orderly.sited usable (recorded table report state)
  exact ⟨w', (exec_bind_ok loaded).trans saved⟩

theorem Carries.carryOut_reports (carries : t.Carries adopt (fun _ => True) J)
    (surveyed : t.Surveyed) (unlinked : t.Unlinked) (passive : observer.Passive)
    (rooted : plan.root = t.root) (planned : plan.pins = t.pins)
    (adopts : options.adoptUnmanaged = adopt)
    (served : ((opening plan observer).exec w).1 = .ok () →
      ∀ visit ∈ tour plan options observer w, t.Served adopt visit.pin visit.start)
    (orderly : t.Orderly w.disk)
    (usable : Layout.Usable t.root t.top w.disk) (free : t.own "lock" ∉ w.locks)
    (loads : RunState.load w.disk t.root = .ok state)
    (start : ∀ e, t.Prepared w.disk e → t.Laid e →
      J ((options.schedule plan.groups).filterMap (t.pins[·]?)) [] e)
    (keeps : ∀ rows d, J [] rows d → t.Laid d ∧
      d.look (t.own "state.toml") = w.disk.look (t.own "state.toml")) :
    ∃ rows d, ((Sync.carryOut plan table options observer).exec w).1
      = .ok (.ofEntries false rows) ∧ J [] rows d := by
  obtain ⟨w₁, locked⟩ := Layout.lock_succeeds orderly.sited usable free
  obtain ⟨prepared, laid⟩ := orderly.lock.ends
  rw [locked] at prepared laid
  obtain ⟨n, still⟩ := prepared.orderly.recover
  have recovered : (reporting (SyncError.state (Layout.directory t.root).text)
      (Recovery.recover t.root)).exec w₁ = (.ok n, w₁) := by
    rw [exec_reporting, still]
    rfl
  obtain ⟨w₂, began, same⟩ := exec_tell (ε := SyncError) (w := w₁) passive
    (.began plan.pins.length)
  have orderly₂ : t.Orderly w₂.disk := same ▸ prepared.orderly
  have opens : (opening plan observer).exec w = (.ok (), w₂) := by
    rw [opening, rooted, exec_bind_ok locked, exec_bind_ok recovered, began]
  have visited : ∀ visit ∈ visits t.root adopt observer
      ((options.schedule plan.groups).filterMap (t.pins[·]?)) w₂,
      t.Served adopt visit.pin visit.start := by
    have known := served (by rw [opens])
    rwa [tour, opened, opens, rooted, planned, adopts] at known
  have handled : (Sync.runPins plan adopt observer (options.schedule plan.groups)).Ensures
      (fun _ => True) (fun r e => ∃ more, r = .ok more ∧ t.Orderly e ∧ J [] ([] ++ more) e) w₂ :=
    carries.runPins surveyed unlinked passive rooted planned visited orderly₂
      (same ▸ start _ prepared (laid rfl))
  have run := handled.ends
  generalize ran : (Sync.runPins plan adopt observer (options.schedule plan.groups)).exec w₂ = ended
    at run
  obtain ⟨answer, w₃⟩ := ended
  obtain ⟨rows, rfl, orderly₃, holds⟩ := run
  obtain ⟨laid₃, record⟩ := keeps _ _ holds
  obtain ⟨w₄, recorded⟩ : ∃ w', (Sync.record t.root table (.ofEntries false rows)).exec w₃
      = (.ok (), w') := laid₃.record_reports orderly₃ orderly record
        (usable.files "state.toml" (by simp)) loads _
  obtain ⟨w₅, whole, -⟩ : ∃ w', (Sync.carryOut plan table options observer).exec w
      = (.ok (SyncReport.ofEntries false rows), w') ∧ w'.disk = w₄.disk := by
    unfold Sync.carryOut
    rw [rooted, adopts]
    refine Layout.exec_whileLocked locked ?_
    refine (exec_bind_ok recovered).trans ((exec_bind_ok began).trans ?_)
    exact (exec_bind_ok ran).trans ((exec_bind_ok recorded).trans rfl)
  exact ⟨rows, w₃.disk, by rw [whole], by simpa using holds⟩

end Terrain

/-- A line of a report that says of the same pin as another one that what that foresaw was done, or
that it failed. -/
def Fulfils (before after : EntryReport) : Prop :=
  ∃ outcome, after = { before with outcome } ∧ (outcome.isFailure = true ∨
    ∃ action, before.outcome = foreseen action ∧ outcome = attained action)

section

variable {root : Location} {table : PinTable} {options : SyncOptions} {backends : List Backend}
  {observer : Observer} {top : DiskPath} {placed : List PlacedPin} {d : Disk} {w : World}

theorem exec_foresee (passive : observer.Passive) (pins : List PlannedPin) :
    ∃ w', (foresee observer pins).exec w
      = (.ok (pins.map fun p => entryReport p (foreseen p.action)), w') ∧ w'.disk = w.disk := by
  induction pins generalizing w with
  | nil => exact ⟨w, rfl, rfl⟩
  | cons p rest ih =>
    obtain ⟨w₁, told, same⟩ := exec_tell (ε := SyncError) (w := w) passive
      (.finished (entryReport p (foreseen p.action)))
    obtain ⟨w₂, others, same₂⟩ := ih (w := w₁)
    exact ⟨w₂, (exec_bind_ok told).trans ((exec_bind_ok others).trans rfl), same₂.trans same⟩

theorem exec_dry (passive : observer.Passive) (dry : options.dryRun = true) :
    ((PinnedTree.sync root table options backends observer).exec w).2.disk = w.disk ∧
    ∀ report, ((PinnedTree.sync root table options backends observer).exec w).1 = .ok report →
      options.parallelism ≠ 0 ∧ ∃ plan, Plan.build w.disk root table backends options.filter
        options.adoptUnmanaged = .ok plan ∧
        report = .ofEntries true (plan.pins.map fun p => entryReport p (foreseen p.action)) := by
  have planned : (reporting SyncError.config (query
      (Plan.build · root table backends options.filter options.adoptUnmanaged))).exec w
        = ((Plan.build w.disk root table backends options.filter
            options.adoptUnmanaged).mapError SyncError.config, w) := by
    rw [exec_reporting, exec_query]
  unfold PinnedTree.sync
  by_cases idle : options.parallelism = 0
  · rw [if_pos idle]
    refine ⟨rfl, ?_⟩
    rintro report ⟨⟩
  rw [if_neg idle]
  cases made : Plan.build w.disk root table backends options.filter options.adoptUnmanaged with
  | error cause =>
    rw [made] at planned
    rw [exec_bind, planned]
    refine ⟨rfl, ?_⟩
    rintro report ⟨⟩
  | ok plan =>
    rw [made] at planned
    obtain ⟨w₁, told, same⟩ := exec_tell (ε := SyncError) (w := w) passive
      (.began plan.pins.length)
    obtain ⟨w₂, rows, same₂⟩ := exec_foresee (w := w₁) passive plan.pins
    rw [exec_bind_ok planned, if_pos dry, exec_bind_ok told, exec_bind_ok rows]
    refine ⟨same₂.trans same, ?_⟩
    rintro report ⟨⟩
    exact ⟨idle, plan, rfl, rfl⟩

structure Foreseeable (root : Location) (table : PinTable) (options : SyncOptions)
    (backends : List Backend) (observer : Observer) (top : DiskPath) (placed : List PlacedPin)
    (w : World) : Prop extends Setting root table options backends observer top placed w where
  pooled : ∀ groups, Groups.Interleaves groups (options.schedule groups)
  undisturbed : Undisturbed root top (placed.map (·.destination))
    (placed.filter (Plan.selects options.filter))
    (journey root table options backends observer w) w.disk
  usable : Layout.Usable root top w.disk
  loads : ∃ state, RunState.load w.disk root = .ok state

theorem Foreseeable.reports {plan : Plan}
    (foreseeable : Foreseeable root table options backends observer top placed w)
    (busy : options.parallelism ≠ 0) (real : options.dryRun = false)
    (build : Plan.build w.disk root table backends options.filter options.adoptUnmanaged = .ok plan)
    (free : Layout.place top "lock" ∉ w.locks) :
    ∃ sequence rows, sequence.Perm plan.pins ∧ List.Forall₂ Terrain.Accords sequence rows ∧
      ((carryOut plan table options observer).exec w).1 = .ok (.ofEntries false rows) := by
  have setting := foreseeable.toSetting
  obtain ⟨state, loads⟩ := foreseeable.loads
  have undisturbed := foreseeable.undisturbed
  have supplied := setting.supplied
  have visited (opens : ((opening plan observer).exec w).1 = .ok ()) :
      ∀ visit ∈ tour plan options observer w,
        visit ∈ journey root table options backends observer w := by
    rw [journey_eq busy real build opens]
    exact fun _ => id
  generalize journey root table options backends observer w = visits at undisturbed supplied visited
  obtain ⟨rooted, selected, surveyed, orderly⟩ := setting.planned build visits
  obtain ⟨perm, ordered⟩ := sequence_of_build build (foreseeable.pooled _)
  have planned := reconsider_of_build build
  subst rooted
  rw [← selected] at undisturbed
  have yields : (Terrain.ofPlan top placed plan visits).Yields w.disk := by
    refine ⟨?_, undisturbed.room⟩
    rintro _ new ⟨visit, member, rfl, brought⟩
    exact undisturbed.vacant visit member new brought
  have start : ∀ e, (Terrain.ofPlan top placed plan visits).Prepared w.disk e →
      (Terrain.ofPlan top placed plan visits).Laid e → (Terrain.ofPlan top placed plan visits).Foretold
        ((options.schedule plan.groups).filterMap (plan.pins[·]?)) w.disk
        ((options.schedule plan.groups).filterMap (plan.pins[·]?)) [] e := by
    refine fun e prepared laid => ⟨⟨[], rfl, .nil⟩, fun q _ r => ?_, prepared.record, laid⟩
    rw [List.append_assoc]
    exact prepared.elsewhere _ (Layout.outside q.destination r)
  have carries := Terrain.carries_foretold orderly surveyed yields undisturbed.plain
    planned (fun p member => perm.subset member) ordered
  obtain ⟨rows, d, reported, holds⟩ := carries.carryOut_reports surveyed
    supplied.unlinked setting.passive rfl rfl rfl (fun opens => supplied.served _ (visited opens)) orderly foreseeable.usable free loads
    start fun rows d holds => ⟨holds.laid, holds.record⟩
  obtain ⟨done, whole, accorded⟩ := holds.done
  rw [List.append_nil] at whole
  exact ⟨_, rows, perm, whole ▸ accorded, reported⟩

/-- A dry run changes nothing, and foretells what a real run does with each pin that does not fail.
Nor does a run change anything that ends with an error about its configuration. -/
theorem sync_foretold (passive : observer.Passive) :
    ((sync root table { options with dryRun := true } backends observer).exec w).2.disk = w.disk ∧
    (∀ fault, ((sync root table options backends observer).exec w).1 = .error (.config fault) →
      ((sync root table options backends observer).exec w).2.disk = w.disk) ∧
    ∀ top placed (later : World) before,
      Foreseeable root table { options with dryRun := false } backends observer top placed later →
      ((sync root table { options with dryRun := true } backends observer).exec w).1 = .ok before →
      later.disk = w.disk → Layout.place top "lock" ∉ later.locks →
      ∃ after, ((sync root table { options with dryRun := false } backends observer).exec later).1
          = .ok after ∧ List.Forall₂ Fulfils before.entries after.entries := by
  refine ⟨(exec_dry passive rfl).1, fun fault refused => by rw [exec_refused refused], ?_⟩
  intro top placed later before foreseeable answered same free
  obtain ⟨busy, plan, build, rfl⟩ := (exec_dry passive rfl).2 before answered
  have build' : Plan.build later.disk root table backends options.filter options.adoptUnmanaged
      = .ok plan := same ▸ build
  obtain ⟨sequence, rows, perm, accorded, reported⟩ := foreseeable.reports busy rfl build' free
  refine ⟨.ofEntries false rows, ?_, ?_⟩
  · have planned : (reporting SyncError.config (query
        (Plan.build · root table backends options.filter options.adoptUnmanaged))).exec later
          = (.ok plan, later) := by
      rw [exec_reporting, exec_query, build']
      rfl
    rw [PinnedTree.sync, if_neg busy]
    rw [exec_bind_ok planned, if_neg (by simp)]
    exact reported
  · have once : ((plan.pins.map fun p => entryReport p (foreseen p.action)).map (·.id)).Nodup := by
      rw [List.map_map]
      exact ids_of_build foreseeable.valid build
    rw [SyncReport.ofEntries_perm true (perm.map _).symm once]
    refine SyncReport.forall₂_ofEntries true false ?_ ?_
    · rw [List.forall₂_map_left_iff]
      refine accorded.imp ?_
      rintro p row ⟨outcome, rfl, accords⟩
      exact ⟨outcome, rfl, accords.imp_right fun same => ⟨p.action, rfl, same⟩⟩
    · rintro before after ⟨outcome, rfl, -⟩
      rfl

end

theorem nestedRun_foreseeable : Foreseeable (.ofText "root") nestedTable
    { outerOnly with dryRun := false } fileBackends noObserver ["root"]
    [outerPin, innerPin] { disk := mirrorsDisk } where
  toSetting := nested_setting
  pooled := Groups.interleaves_flatten
  undisturbed := by
    have only : [outerPin, innerPin].filter (Plan.selects outerOnly.filter) = [outerPin] := rfl
    have inside : ∀ inner ∈ [outerPin, innerPin].map (·.destination), ∀ rest,
        inner.names = outerPin.destination.names ++ rest → rest ≠ [] → rest = ["p", "q"] := by
      intro inner listed rest whole filled
      simp only [List.map_cons, List.map_nil, List.mem_cons, List.not_mem_nil, or_false] at listed
      rcases listed with rfl | rfl
      · exact absurd (List.append_cancel_left (whole.symm.trans (List.append_nil _).symm)) filled
      · have same : outerPin.destination.names ++ rest = outerPin.destination.names ++ ["p", "q"] :=
          whole.symm
        exact List.append_cancel_left same
    refine ⟨?_, ?_, ?_⟩
    · intro p member
      obtain rfl := List.mem_singleton.mp member
      exact Disk.linkless_iff.mp (by decide +kernel)
    · intro visit member new brought inner listed rest whole filled
      have about : visit.pin.destination = outerPin.destination :=
        congrArg PlacedPin.destination (outer_of_journey member)
      rw [about] at whole
      obtain rfl := inside inner listed rest whole filled
      cases stands : new ["p", "q"] with
      | none => rfl
      | some node =>
        have among := ((nestedRun_brings visit member).mem brought stands).1
        simp [nestedPaths] at among
    · intro p member inner listed rest whole filled _
      obtain rfl := List.mem_singleton.mp member
      obtain rfl := inside inner listed rest whole filled
      unfold Location.Callable
      decide +kernel
  usable := by
    refine ⟨by decide +kernel, ?_, ?_⟩
    · unfold Location.Callable
      decide +kernel
    · have free : ∀ name ∈ ["lock", "state.toml"],
          (Location.ofText "root").Callable [stateDirectory, name] ∧
            mirrorsDisk.look (Layout.place ["root"] name) = none := by
        unfold Location.Callable
        decide +kernel
      intro name listed
      refine ⟨(free name listed).1, fun node stands => ?_⟩
      cases stands.symm.trans (free name listed).2
  loads := by
    have missing : mirrorsDisk.leadsSomewhere (Layout.stateFile (.ofText "root")) = false := by
      decide +kernel
    exact ⟨{}, by simp [RunState.load, missing]⟩

def nestedForecast : SyncReport := ⟨true, [⟨"outer", "a", "r2", "mirror", .wouldFetch⟩]⟩

/-- The dry run says that the outer pin would be fetched, and the real one fetches it. -/
theorem nestedRun_foretold :
    ∃ after, ((sync (.ofText "root") nestedTable { outerOnly with dryRun := false }
        fileBackends noObserver).exec { disk := mirrorsDisk }).1 = .ok after ∧
      List.Forall₂ Fulfils nestedForecast.entries after.entries :=
  (@sync_foretold (.ofText "root") nestedTable outerOnly fileBackends noObserver
    { disk := mirrorsDisk } nested_setting.passive).2.2 ["root"] [outerPin, innerPin]
      { disk := mirrorsDisk } nestedForecast nestedRun_foreseeable (by decide +kernel) rfl (by decide)

end Sync

end PinnedTree
