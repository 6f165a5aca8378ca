import Mathlib.Data.List.Forall2
import Mathlib.Data.List.Infix
import PinnedTree.Proofs.Archive.Housed
import PinnedTree.Proofs.Backend.Housed
import PinnedTree.Proofs.Sync.Layout
import PinnedTree.Proofs.Transaction.Atomicity

namespace PinnedTree.Sync

open PinnedTree.Action Transaction

theorem foresee_ensures {observer : Observer} {always : Disk → Prop} {pins : List PlannedPin}
    {w : World} (passive : observer.Passive) (now : always w.disk) :
    (foresee observer pins).Ensures always (fun _ e => e = w.disk) w := by
  induction pins generalizing w with
  | nil => exact ensures_pure now rfl
  | cons p rest ih =>
    rw [foresee]
    refine (tell_ensures passive _ now).bind ?_ (by simp)
    rintro ⟨⟩ w₁ ⟨-, same⟩
    refine (ih (same ▸ now)).bind ?_ (by simp [same])
    intro rows w₂ same₂
    exact ensures_pure (same₂.trans same ▸ now) (same₂.trans same)

namespace Terrain

variable {t : Terrain} {adopt : Bool} {observer : Observer} {always : Disk → Prop}
  {J : List PlannedPin → List EntryReport → Disk → Prop} {w : World} {plan : Plan}
  {table : PinTable} {options : SyncOptions}

/-- What holds between two pins, of those left to handle, the lines so far and the disk, is kept by
each of them, and shows at every moment. -/
structure Carries (t : Terrain) (adopt : Bool) (always : Disk → Prop)
    (J : List PlannedPin → List EntryReport → Disk → Prop) : Prop where
  furnished : ∀ {left rows d e}, t.Orderly d → J left rows d → t.Furnished d e → always e
  during : ∀ {p left rows d e}, p ∈ t.pins → t.Orderly d → J (p :: left) rows d →
    t.Handling adopt p d e → always e
  handled : ∀ {p left rows d e outcome}, p ∈ t.pins → t.Orderly d → t.Orderly e →
    J (p :: left) rows d → t.Handled adopt p d e outcome →
    J left (rows ++ [entryReport p outcome]) e

theorem Carries.both {J' : List PlannedPin → List EntryReport → Disk → Prop}
    (one : t.Carries adopt always J) (two : t.Carries adopt (fun _ => True) J') :
    t.Carries adopt always fun left rows d => J left rows d ∧ J' left rows d where
  furnished orderly holds := one.furnished orderly holds.1
  during member orderly holds := one.during member orderly holds.1
  handled member orderly orderly' holds handled :=
    ⟨one.handled member orderly orderly' holds.1 handled,
      two.handled member orderly orderly' holds.2 handled⟩

theorem Carries.visible {left : List PlannedPin} {rows : List EntryReport} {d : Disk}
    (carries : t.Carries adopt always J) (orderly : t.Orderly d) (holds : J left rows d) :
    always d := carries.furnished orderly holds (.refl orderly)

theorem Carries.runPins (carries : t.Carries adopt always J) (surveyed : t.Surveyed)
    (unlinked : t.Unlinked) (passive : observer.Passive) (rooted : plan.root = t.root)
    (planned : plan.pins = t.pins) {order : List Nat} {rows : List EntryReport}
    (served : ∀ visit ∈ visits t.root adopt observer (order.filterMap (t.pins[·]?)) w,
      t.Served adopt visit.pin visit.start)
    (orderly : t.Orderly w.disk) (holds : J (order.filterMap (t.pins[·]?)) rows w.disk) :
    (runPins plan adopt observer order).Ensures always
      (fun r e => ∃ more, r = .ok more ∧ t.Orderly e ∧ J [] (rows ++ more) e) w := by
  induction order generalizing rows w with
  | nil =>
    exact ensures_pure (carries.visible orderly holds) ⟨[], rfl, orderly, by simpa using holds⟩
  | cons i rest ih =>
    rw [Sync.runPins, planned]
    cases found : t.pins[i]? with
    | none =>
      rw [List.filterMap_cons_none found] at holds served
      exact ih served orderly holds
    | some p =>
      have member : p ∈ t.pins := List.mem_of_getElem? found
      rw [List.filterMap_cons_some found] at holds served
      rw [visits, List.forall_mem_cons] at served
      rw [rooted]
      refine ((orderly.runPin surveyed unlinked passive member served.1).weaken fun e handling =>
        carries.during member orderly holds handling).bind_exec ?_ (by simp)
      rw [exec_runPin]
      rintro report - ⟨outcome, ⟨rfl⟩, handled⟩
      have orderly₁ := handled.orderly orderly surveyed unlinked member
      refine (ih served.2 orderly₁ (carries.handled member orderly orderly₁ holds handled)).bind ?_
        (by simp)
      rintro more w₂ ⟨_, ⟨⟩, orderly₂, holds₂⟩
      exact ensures_pure (carries.visible orderly₂ holds₂)
        ⟨_, rfl, orderly₂, by simpa using holds₂⟩

/-- What a run that ends with a report has done: it handled the pins and then recorded those that
did not fail, beside what was recorded before. -/
inductive Concluded (t : Terrain) (table : PinTable)
    (J : List PlannedPin → List EntryReport → Disk → Prop) (report : SyncReport) (e : Disk) : Prop
  | intro {rows : List EntryReport} {d : Disk} {state : RunState} {mode : Nat}
    (lines : report = .ofEntries false rows) (orderly : t.Orderly d) (holds : J [] rows d)
    (furnished : t.Furnished d e) (loaded : RunState.load d t.root = .ok state)
    (callable : t.root.Callable [stateDirectory, "state.toml"])
    (saved : e.look (t.own "state.toml")
      = some (.file (recorded table report state).text.toUTF8 mode))
    (grants : d.Grants (t.own "state.toml") Files.plainMode mode)
    (stood : ∀ q node, q ≠ t.own "state.toml" → d.look q = some node → e.look q = some node) :
    Concluded t table J report e

theorem Concluded.mono {J' : List PlannedPin → List EntryReport → Disk → Prop}
    {report : SyncReport} {e : Disk} (concluded : t.Concluded table J report e)
    (weaker : ∀ rows d, J [] rows d → J' [] rows d) : t.Concluded table J' report e := by
  cases concluded with
  | intro lines orderly holds furnished loaded callable saved grants stood =>
    exact .intro lines orderly (weaker _ _ holds) furnished loaded callable saved grants stood

theorem Concluded.visible {report : SyncReport} {e : Disk} (carries : t.Carries adopt always J)
    (concluded : t.Concluded table J report e) : always e := by
  cases concluded with
  | intro _ orderly holds furnished => exact carries.furnished orderly holds furnished

theorem Carries.record (carries : t.Carries adopt always J) {rows : List EntryReport}
    (orderly : t.Orderly w.disk) (holds : J [] rows w.disk) :
    (record t.root table (.ofEntries false rows)).Ensures always (fun r e => r = .ok () →
      t.Concluded table J (.ofEntries false rows) e) w := by
  have visible := carries.visible orderly holds
  have asked : (query (RunState.load · t.root)).Ensures always
      (fun r e => r = RunState.load w.disk t.root ∧ e = w.disk) w :=
    ensures_query visible ⟨rfl, rfl⟩
  refine asked.bind ?_ (by simp)
  rintro state w₁ ⟨loaded, same⟩
  have saved := (same ▸ orderly : t.Orderly w₁.disk).save
    (recorded table (.ofEntries false rows) state)
  rw [same] at saved
  refine (saved.weaken fun e furnished => carries.furnished orderly holds furnished).mono ?_
  rintro r e ⟨furnished, ok⟩ succeeded
  obtain ⟨callable, ⟨mode, file, grants⟩, stood⟩ := ok succeeded
  exact .intro rfl orderly holds furnished loaded.symm callable file grants stood

theorem Carries.carryOut_after {mid : Disk → Prop} (carries : t.Carries adopt always J)
    (surveyed : t.Surveyed) (unlinked : t.Unlinked) (passive : observer.Passive)
    (rooted : plan.root = t.root) (planned : plan.pins = t.pins)
    (adopts : options.adoptUnmanaged = adopt)
    (served : ((opening plan observer).exec w).1 = .ok () →
      ∀ visit ∈ tour plan options observer w, t.Served adopt visit.pin visit.start)
    (sound : w.disk.Sound)
    (locked : (Layout.lock t.root).Ensures always (fun r e => r = .ok () → mid e) w)
    (cleared : ∀ w' : World, w'.disk.Sound → mid w'.disk →
      (Recovery.recover t.root).Ensures always (fun r e => ∀ n, r = .ok n → t.Orderly e ∧
        J ((options.schedule plan.groups).filterMap (t.pins[·]?)) [] e) w') :
    (carryOut plan table options observer).Ensures always
      (fun r e => ∀ report, r = .ok report → t.Concluded table J report e) w := by
  unfold Sync.carryOut
  rw [rooted]
  refine Layout.whileLocked_ensures locked sound fun w₁ taken sound₁ found => ?_
  have recovered : (reporting (SyncError.state (Layout.directory t.root).text)
      (Recovery.recover t.root)).Ensures always (fun r e => ∀ n, r = .ok n → t.Orderly e ∧
        J ((options.schedule plan.groups).filterMap (t.pins[·]?)) [] e) w₁ := by
    refine Ensures.reporting ((cleared w₁ sound₁ found).mono ?_)
    rintro (fault | n) e ends m ⟨⟩
    exact ends _ rfl
  refine recovered.bind_exec ?_ (by simp)
  intro n done ends
  generalize ran : (reporting (SyncError.state (Layout.directory t.root).text)
    (Recovery.recover t.root)).exec w₁ = run at done ends
  obtain ⟨_, w₂⟩ := run
  cases done
  obtain ⟨orderly₂, start⟩ := ends n rfl
  refine (tell_ensures passive _ (carries.visible orderly₂ start)).bind_exec ?_ (by simp)
  rintro ⟨⟩ told ⟨-, same⟩
  have opens : (opening plan observer).exec w = (.ok (), opened plan observer w) := by
    have whole : (opening plan observer).exec w
        = (tell observer (.began plan.pins.length) : Action SyncError Unit).exec w₂ := by
      rw [opening, rooted, exec_bind_ok taken, exec_bind_ok ran]
    exact Prod.ext (whole ▸ told) rfl
  have here : ((tell observer (.began plan.pins.length) : Action SyncError Unit).exec w₂).2
      = opened plan observer w := by
    rw [opened, opening, rooted, exec_bind_ok taken, exec_bind_ok ran]
  rw [here] at same ⊢
  rw [adopts]
  have visited : ∀ visit ∈ visits t.root adopt observer
      ((options.schedule plan.groups).filterMap (t.pins[·]?)) (opened plan observer w),
      t.Served adopt visit.pin visit.start := by
    rw [← rooted, ← planned, ← adopts]
    exact fun visit member => adopts ▸ served (by rw [opens]) visit member
  refine (carries.runPins surveyed unlinked passive rooted planned visited
    (same ▸ orderly₂) (same ▸ start)).bind ?_ (by simp)
  rintro rows w₄ ⟨_, ⟨⟩, orderly₄, holds⟩
  refine (carries.record orderly₄ holds).bind ?_ (by simp)
  rintro ⟨⟩ w₅ concluded
  refine ensures_pure ((concluded rfl).visible carries) ?_
  rintro _ ⟨⟩
  exact concluded rfl

theorem Carries.carryOut (carries : t.Carries adopt always J) (surveyed : t.Surveyed)
    (unlinked : t.Unlinked) (passive : observer.Passive) (rooted : plan.root = t.root)
    (planned : plan.pins = t.pins) (adopts : options.adoptUnmanaged = adopt)
    (served : ((opening plan observer).exec w).1 = .ok () →
      ∀ visit ∈ tour plan options observer w, t.Served adopt visit.pin visit.start)
    (orderly : t.Orderly w.disk) (before : ∀ e, t.Prepared w.disk e → always e)
    (start : ∀ e, t.Prepared w.disk e → t.Laid e →
      J ((options.schedule plan.groups).filterMap (t.pins[·]?)) [] e) :
    (carryOut plan table options observer).Ensures always
      (fun r e => ∀ report, r = .ok report → t.Concluded table J report e) w := by
  have locked := (orderly.lock.weaken before).mono fun r e ends done => And.intro ends.1 (ends.2 done)
  refine carries.carryOut_after surveyed unlinked passive rooted planned adopts served orderly.sound
    locked ?_
  rintro w₁ - ⟨prepared, laid⟩
  obtain ⟨n, still⟩ := prepared.orderly.recover
  exact .of_exec still (before _ prepared) fun _ _ => ⟨prepared.orderly, start _ prepared laid⟩

end Terrain

/-- What a run finds: a table that can be used, ground to work on, and backends and an observer that
keep to their part. -/
structure Setting (root : Location) (table : PinTable) (options : SyncOptions)
    (backends : List Backend) (observer : Observer) (top : DiskPath) (placed : List PlacedPin)
    (w : World) : Prop where
  valid : table.validate backends = .ok placed
  grounds : Grounds root top (placed.map (·.destination)) w.disk
  supplied : Supplied root top (placed.map (·.destination))
    (journey root table options backends observer w)
  passive : observer.Passive

theorem planned_of_journey {root : Location} {table : PinTable} {options : SyncOptions}
    {backends : List Backend} {observer : Observer} {w : World} {visit : Visit}
    (member : visit ∈ journey root table options backends observer w) :
    ∃ placed, table.validate backends = .ok placed ∧
      visit.pin.toPlacedPin ∈ placed.filter (Plan.selects options.filter) := by
  unfold journey at member
  split at member
  · cases member
  split at member
  · cases member
  rename_i plan build
  split at member
  · obtain ⟨p, listed, v, rfl⟩ := mem_visits member
    obtain ⟨i, -, found⟩ := List.mem_filterMap.mp listed
    obtain ⟨placed, valid, -, -⟩ := Plan.build_ok build
    refine ⟨placed, valid, Plan.selected_of_build valid build ▸ ?_⟩
    exact List.mem_map_of_mem (List.mem_of_getElem? found)
  · cases member

theorem selected_of_journey {root : Location} {table : PinTable} {options : SyncOptions}
    {backends : List Backend} {observer : Observer} {w : World} {visit : Visit}
    {placed : List PlacedPin} (valid : table.validate backends = .ok placed)
    (member : visit ∈ journey root table options backends observer w) :
    visit.pin.toPlacedPin ∈ placed.filter (Plan.selects options.filter) := by
  obtain ⟨_, valid', listed⟩ := planned_of_journey member
  cases valid.symm.trans valid'
  exact listed

theorem backend_of_journey {root : Location} {table : PinTable} {options : SyncOptions}
    {backends : List Backend} {observer : Observer} {w : World} {visit : Visit}
    (member : visit ∈ journey root table options backends observer w) :
    visit.pin.backend ∈ backends := by
  obtain ⟨placed, valid, listed⟩ := planned_of_journey member
  exact List.mem_of_find?_eq_some
    ((PinTable.validate_ok valid).1.resolved _ (List.mem_filter.mp listed).1)

theorem tidy_of_housed {root : Location} {table : PinTable} {options : SyncOptions}
    {backends : List Backend} {observer : Observer} {w : World} (top : DiskPath)
    (housed : ∀ backend ∈ backends, backend.Housed) :
    ∀ visit ∈ journey root table options backends observer w, visit.Tidy root top :=
  fun _ listed _ _ => .of_housed rfl (housed _ (backend_of_journey listed))

/-- Backends that always keep to their directories are all that a run needs if what they put together
for it has no link. -/
theorem Supplied.of_brings {root : Location} {table : PinTable} {options : SyncOptions}
    {backends : List Backend} {observer : Observer} {top : DiskPath} {all : List Destination}
    {w : World} {paths : List DiskPath} (housed : ∀ backend ∈ backends, backend.Housed)
    (brings : ∀ visit ∈ journey root table options backends observer w, visit.Brings root top paths) :
    Supplied root top all (journey root table options backends observer w) where
  tidy := tidy_of_housed top housed
  plain visit listed _ brought _ _ _ _ _ _ _ target link :=
    ((brings visit listed).mem brought link).2 target rfl

def Terrain.ofPlan (top : DiskPath) (placed : List PlacedPin) (plan : Plan) (visits : List Visit) :
    Terrain where
  root := plan.root
  top := top
  placed := placed
  pins := plan.pins
  stock p new := ∃ visit ∈ visits, visit.pin = p ∧ new ∈ visit.brought plan.root top

theorem Supplied.unlinked {top : DiskPath} {placed : List PlacedPin} {plan : Plan}
    {visits : List Visit} (supplied : Supplied plan.root top (placed.map (·.destination)) visits) :
    (Terrain.ofPlan top placed plan visits).Unlinked := by
  rintro _ - inner among new ⟨visit, listed, rfl, brought⟩
  exact supplied.plain visit listed new brought inner among

theorem Supplied.served {top : DiskPath} {placed : List PlacedPin} (plan : Plan) {adopt : Bool}
    {observer : Observer} {pins : List PlannedPin} {w : World} {vs : List Visit}
    (supplied : Supplied plan.root top (placed.map (·.destination)) vs)
    (among : ∀ visit ∈ visits plan.root adopt observer pins w, visit ∈ vs) :
    ∀ visit ∈ visits plan.root adopt observer pins w,
      (Terrain.ofPlan top placed plan vs).Served adopt visit.pin visit.start := by
  intro visit member w' works
  have listed := among visit member
  obtain ⟨p, -, v, rfl⟩ := mem_visits member
  have worked : w' ∈ (Visit.of plan.root adopt observer p v).work := works
  exact ⟨supplied.tidy _ listed w' worked, fun staged =>
    ⟨_, listed, rfl, Visit.mem_brought.mpr ⟨w', worked, staged, rfl⟩⟩⟩

/-- A plan is about the pins that were selected, with the destinations nested in theirs, and no link
stands on the way to one of them. -/
theorem Terrain.of_build {root : Location} {table : PinTable} {options : SyncOptions}
    {backends : List Backend} {placed : List PlacedPin} {d : Disk} {plan : Plan} (top : DiskPath)
    (visits : List Visit)
    (valid : table.validate backends = .ok placed)
    (made : Plan.build d root table backends options.filter options.adoptUnmanaged = .ok plan) :
    plan.root = root ∧ plan.pins.map (·.toPlacedPin) = placed.filter (Plan.selects options.filter) ∧
      (Terrain.ofPlan top placed plan visits).Surveyed ∧ ∀ p ∈ plan.pins,
        Plan.checkNoLink d plan.root p.pin [] p.destination.names = .ok () := by
  obtain ⟨_, valid', rfl, each⟩ := Plan.build_ok made
  cases valid.symm.trans valid'
  have pinned : ∀ p ∈ plan.pins, ∃ q ∈ placed.filter (Plan.selects options.filter),
      Plan.ofPlaced d plan.root (placed.map (·.destination)) options.adoptUnmanaged q = .ok p := by
    intro p member
    obtain ⟨i, bound, rfl⟩ := List.getElem_of_mem member
    have before := each.length_eq ▸ bound
    exact ⟨_, List.getElem_mem before, each.get before bound⟩
  refine ⟨rfl, Plan.selected_of_build valid made, ⟨fun p member => ?_, fun p member => ?_⟩,
    fun p member => ?_⟩
  · obtain ⟨q, listed, made⟩ := pinned p member
    exact (Plan.ofPlaced_ok made).1 ▸ (List.mem_filter.mp listed).1
  · obtain ⟨q, -, made⟩ := pinned p member
    obtain ⟨rfl, nested, -⟩ := Plan.ofPlaced_ok made
    exact nested
  · obtain ⟨q, -, made⟩ := pinned p member
    obtain ⟨rfl, -, checked⟩ := Plan.ofPlaced_ok made
    exact checked

namespace Setting

variable {root : Location} {table : PinTable} {options : SyncOptions} {backends : List Backend}
  {observer : Observer} {top : DiskPath} {placed : List PlacedPin} {w : World} {plan : Plan}

theorem planned (setting : Setting root table options backends observer top placed w)
    (made : Plan.build w.disk root table backends options.filter options.adoptUnmanaged = .ok plan)
    (visits : List Visit) :
    plan.root = root ∧ plan.pins.map (·.toPlacedPin) = placed.filter (Plan.selects options.filter) ∧
      (Terrain.ofPlan top placed plan visits).Surveyed ∧
      (Terrain.ofPlan top placed plan visits).Orderly w.disk := by
  obtain ⟨rooted, listed, surveyed, unlinked⟩ := Terrain.of_build top visits setting.valid made
  refine ⟨rooted, listed, surveyed, ⟨by rw [Terrain.ofPlan, rooted]; exact setting.grounds, ?_⟩⟩
  intro p member target
  have checked := unlinked p member
  rw [rooted] at checked
  exact Plan.checkNoLink_ok setting.grounds.sound setting.grounds.rooted p.destination.plain
    (by simp [setting.grounds.rooted.isDir]) checked _ (List.prefix_refl _) target

theorem query_plan {made : Except ConfigError Plan}
    (build : Plan.build w.disk root table backends options.filter options.adoptUnmanaged = made)
    {always : Disk → Prop} (now : always w.disk) :
    (reporting SyncError.config (query
      (Plan.build · root table backends options.filter options.adoptUnmanaged))).Ensures always
      (fun r e => r = made.mapError SyncError.config ∧ e = w.disk) w :=
  Ensures.reporting (ensures_query now ⟨by rw [build], rfl⟩)

theorem refused {fault : ConfigError}
    (build : Plan.build w.disk root table backends options.filter options.adoptUnmanaged
      = .error fault) :
    (PinnedTree.sync root table options backends observer).Ensures (· = w.disk)
      (fun r e => (∃ fault, r = .error fault) ∧ e = w.disk) w := by
  unfold PinnedTree.sync
  by_cases idle : options.parallelism = 0
  · simp only [idle, if_true]
    exact ensures_throw rfl ⟨⟨_, rfl⟩, rfl⟩
  simp only [idle, if_false]
  have asked : (reporting SyncError.config (query
      (Plan.build · root table backends options.filter options.adoptUnmanaged))).Ensures (· = w.disk) _ w :=
    query_plan build rfl
  refine asked.bind ?_ ?_
  · rintro plan w₁ ⟨impossible, -⟩
    cases impossible
  · rintro fault e ⟨-, rfl⟩
    exact ⟨⟨fault, rfl⟩, rfl⟩

theorem sync_planned {always : Disk → Prop} {post : SyncReport → Disk → Prop}
    (passive : observer.Passive)
    (build : Plan.build w.disk root table backends options.filter options.adoptUnmanaged = .ok plan)
    (now : always w.disk)
    (carried : options.parallelism ≠ 0 → options.dryRun = false →
      (carryOut plan table options observer).Ensures always
        (fun r e => ∀ report, r = .ok report → post report e) w) :
    (PinnedTree.sync root table options backends observer).Ensures always
      (fun r e => ∀ report, r = .ok report → options.dryRun = false → post report e) w := by
  unfold PinnedTree.sync
  by_cases idle : options.parallelism = 0
  · simp only [idle, if_true]
    exact ensures_throw now (by simp)
  simp only [idle, if_false]
  have asked : (reporting SyncError.config (query
      (Plan.build · root table backends options.filter options.adoptUnmanaged))).exec w
        = (.ok plan, w) := by
    rw [exec_reporting, exec_query, build]
    rfl
  refine Ensures.of_exec_eq (exec_bind_ok asked) rfl rfl ?_
  split
  · rename_i dry
    refine (tell_ensures passive _ now).bind ?_ (by simp)
    rintro ⟨⟩ w₂ ⟨-, same₂⟩
    refine (foresee_ensures passive (same₂ ▸ now)).bind ?_ (by simp)
    intro rows w₃ same₃
    exact ensures_pure (same₃.trans same₂ ▸ now) (by simp [dry])
  · rename_i real
    exact (carried idle (by simpa using real)).mono fun r e ends report reported _ =>
      ends report reported

theorem sync (setting : Setting root table options backends observer top placed w)
    (build : Plan.build w.disk root table backends options.filter options.adoptUnmanaged = .ok plan)
    {always : Disk → Prop} {J : List PlannedPin → List EntryReport → Disk → Prop}
    {visits : List Visit} (toured : visits = journey root table options backends observer w)
    (now : always w.disk)
    (before : ∀ e, (Terrain.ofPlan top placed plan visits).Prepared w.disk e → always e)
    (start : ∀ e, (Terrain.ofPlan top placed plan visits).Prepared w.disk e →
      (Terrain.ofPlan top placed plan visits).Laid e →
      J ((options.schedule plan.groups).filterMap (plan.pins[·]?)) [] e)
    (carries : (Terrain.ofPlan top placed plan visits).Carries options.adoptUnmanaged always J) :
    (PinnedTree.sync root table options backends observer).Ensures always
      (fun r e => ∀ report, r = .ok report → options.dryRun = false →
        (Terrain.ofPlan top placed plan visits).Concluded table J report e) w := by
  subst toured
  obtain ⟨rooted, listed, surveyed, orderly⟩ := setting.planned build
    (journey root table options backends observer w)
  have supplied := setting.supplied
  rw [← rooted] at supplied
  refine sync_planned setting.passive build now fun busy real => ?_
  refine carries.carryOut surveyed (rooted ▸ supplied.unlinked) setting.passive rfl rfl rfl
    (fun opens => ?_) orderly before start
  exact rooted ▸ supplied.served _ fun visit member => by
    rw [rooted, journey_eq busy real build opens]
    exact member

end Setting

/-- A pin with another one nested in it, both from one mirror. -/
def outerPin : PlacedPin := ⟨⟨"outer", "file://m", "r2", "a"⟩, outerDestination, Mirror.backend⟩

def innerPin : PlacedPin := ⟨⟨"inner", "file://m", "r1", "a/p/q"⟩, innerDestination, Mirror.backend⟩

def nestedTable : PinTable := ⟨[outerPin.pin, innerPin.pin]⟩

def outerOnly : SyncOptions := { filter := some ⟨["outer"]⟩ }

def noObserver : Observer := fun _ => pure ()

def fileBackends : List Backend := [Mirror.backend, Archive.backend]

theorem fileBackends_housed : ∀ backend ∈ fileBackends, backend.Housed := by
  simp [fileBackends, Mirror.backend_housed, Archive.backend_housed]

/-- The mirror has the revision of the outer pin only. -/
def mirrorsDisk : Disk where
  home := []
  nodes := [(["root"], .dir), (["root", "a"], .dir),
    (["root", "a", "p"], .dir), (["root", "a", "p", "q"], .dir),
    (["root", ".depsync"], .dir), (["root", ".depsync", "staging"], .dir),
    (["root", ".depsync", "backup"], .dir),
    (["m"], .dir), (["m", "r2"], .dir), (["m", "r2", "new"], .file "content".toUTF8 0o644)]
  distinct := by decide

def nestedReport : SyncReport := ⟨false, [⟨"outer", "a", "r2", "mirror", .fetchedNew⟩]⟩

def nestedRun : Except SyncError SyncReport × World :=
  (sync (.ofText "root") nestedTable outerOnly fileBackends noObserver).exec { disk := mirrorsDisk }

def nestedPaths : List DiskPath := [[], ["new"], [markerFile]]

theorem nestedRun_ran : ∃ w', nestedRun = (.ok nestedReport, w') ∧
    (∀ visit ∈ journey (.ofText "root") nestedTable outerOnly fileBackends noObserver
      { disk := mirrorsDisk }, visit.Brings (.ofText "root") ["root"] nestedPaths) ∧
    ["root"] ++ [stateDirectory, "lock"] ∉ w'.locks ∧ w'.token.pollsLeft = none :=
  exec_sync (P := fun visits w' =>
    (∀ visit ∈ visits, visit.Brings (.ofText "root") ["root"] nestedPaths) ∧
      ["root"] ++ [stateDirectory, "lock"] ∉ w'.locks ∧ w'.token.pollsLeft = none)
    (by decide) rfl (by decide +kernel) (.refl _) (by decide)

theorem nestedRun_brings : ∀ visit ∈ journey (.ofText "root") nestedTable outerOnly fileBackends
    noObserver { disk := mirrorsDisk }, visit.Brings (.ofText "root") ["root"] nestedPaths := by
  obtain ⟨_, -, brings, -⟩ := nestedRun_ran
  exact brings

theorem nestedRun_reports : ((sync (.ofText "root") nestedTable outerOnly fileBackends
    noObserver).exec { disk := mirrorsDisk }).1 = .ok nestedReport := by
  obtain ⟨_, ran, -⟩ := nestedRun_ran
  exact congrArg Prod.fst ran

theorem outer_of_journey {visit : Visit} (member : visit ∈ journey (.ofText "root") nestedTable
    outerOnly fileBackends noObserver { disk := mirrorsDisk }) : visit.pin.toPlacedPin = outerPin :=
  List.mem_singleton.mp (selected_of_journey (show nestedTable.validate fileBackends
    = .ok [outerPin, innerPin] from rfl) member)

theorem nested_setting : Setting (.ofText "root") nestedTable outerOnly fileBackends noObserver
    ["root"] [outerPin, innerPin] { disk := mirrorsDisk } where
  valid := rfl
  grounds := .of_listing (by decide) (.of_segments (by decide) (by decide) (by decide) (by decide))
    (by decide +kernel) (by decide +kernel) (by decide +kernel)
  supplied := .of_brings fileBackends_housed nestedRun_brings
  passive _ _ := ⟨rfl, rfl⟩

end PinnedTree.Sync
