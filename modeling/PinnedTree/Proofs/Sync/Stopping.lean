import PinnedTree.Proofs.Sync.Residue
import PinnedTree.Proofs.Sync.Visits
import PinnedTree.Proofs.Transaction.Interruption

namespace PinnedTree.Sync

open PinnedTree.Action Transaction

variable {root : Location} {adopt : Bool} {observer : Observer} {plan : Plan} {table : PinTable}
  {options : SyncOptions} {backends : List Backend} {w w' : World} {report : SyncReport}
  {pins : List PlannedPin} {p : PlannedPin} {visit : Visit}

theorem execute_ok {outcome : Outcome}
    (ran : ((execute root adopt p).exec w).1 = .ok outcome) : ∃ action, outcome = attained action := by
  have ends : ∀ (action : PlannedAction) (w' : World),
      ((do Transaction.materialize root (jobOf root p); return attained action
        : Action FetchError Outcome).exec w').1 = .ok outcome → ∃ action, outcome = attained action := by
    intro action w' ran
    rw [exec_bind] at ran
    rcases placed : (Transaction.materialize root (jobOf root p)).exec w' with ⟨fault | ⟨⟩, w''⟩
    · rw [placed] at ran
      cases ran
    · rw [placed] at ran
      cases ran
      exact ⟨action, rfl⟩
  unfold execute at ran
  rw [exec_bind] at ran
  rcases polled : Backend.poll.exec w with ⟨fault | ⟨⟩, w₁⟩
  · rw [polled] at ran
    cases ran
  simp only [polled, exec_bind, exec_query] at ran
  cases found : reconsider w₁.disk root adopt p with
  | error fault =>
    rw [found] at ran
    cases ran
  | ok action =>
    simp only [found] at ran
    cases action with
    | current =>
      cases ran
      exact ⟨.current, rfl⟩
    | fetch => exact ends .fetch _ ran
    | update old => exact ends (.update old) _ ran

theorem outcomeOf_cancelled : outcomeOf ((execute root adopt p).exec w).1 = .failed .cancelled ↔
    ((execute root adopt p).exec w).1 = .error .cancelled := by
  cases answer : ((execute root adopt p).exec w).1 with
  | ok outcome =>
    obtain ⟨action, rfl⟩ := execute_ok answer
    cases action <;> simp [outcomeOf, attained]
  | error fault =>
    cases fault <;> simp [outcomeOf, failure, FetchError.isCancelled]

theorem Visit.of_stopping (stopping : (Visit.of root adopt observer p w).start.Stopping) :
    (Visit.of root adopt observer p w).outcome = .failed .cancelled ∧
      (Visit.of root adopt observer p w).ended = (Visit.of root adopt observer p w).start := by
  have gave : (execute root adopt p).exec _ = _ := exec_execute_stopping stopping
  exact ⟨outcomeOf_cancelled.mpr (congrArg Prod.fst gave), congrArg Prod.snd gave⟩

theorem Visit.of_cancelled (heeds : p.backend.Heeds)
    (cancelled : (Visit.of root adopt observer p w).outcome = .failed .cancelled) :
    (Visit.of root adopt observer p w).ended.Stopping :=
  (heeding_execute heeds root adopt).honest _ (outcomeOf_cancelled.mp cancelled)

theorem visits_stopping (lasting : observer.Lasting) (stopping : w.Stopping) :
    ∀ visit ∈ visits root adopt observer pins w, visit.start.Stopping := by
  induction pins generalizing w with
  | nil => simp [visits]
  | cons p rest ih =>
    have first : (Visit.of root adopt observer p w).start.Stopping :=
      lasting_tell (ε := SyncError) lasting _ w stopping
    rw [visits, List.forall_mem_cons]
    refine ⟨first, ih (lasting_tell (ε := SyncError) lasting _ _ ?_)⟩
    rw [(Visit.of_stopping first).2]
    exact first

theorem visits_lasting (lasting : observer.Lasting) :
    (visits root adopt observer pins w).Pairwise fun earlier later =>
      earlier.ended.Stopping → later.start.Stopping := by
  induction pins generalizing w with
  | nil => exact .nil
  | cons p rest ih =>
    refine List.pairwise_cons.mpr ⟨fun later member stopping => ?_, ih⟩
    exact visits_stopping lasting (lasting_tell (ε := SyncError) lasting _ _ stopping) later member

theorem visits_cancelled (lasting : observer.Lasting) (heeds : ∀ p ∈ pins, p.backend.Heeds) :
    (visits root adopt observer pins w).Pairwise fun earlier later =>
      earlier.outcome = .failed .cancelled → later.outcome = .failed .cancelled := by
  refine (visits_lasting lasting).imp_of_mem fun {earlier later} memberE memberL lasts cancelled => ?_
  obtain ⟨p, listed, v, rfl⟩ := mem_visits memberE
  obtain ⟨q, -, v', rfl⟩ := mem_visits memberL
  exact (Visit.of_stopping (lasts (Visit.of_cancelled (heeds p listed) cancelled))).1

theorem split_of_pairwise {α : Type} {holds : α → Prop} {l : List α}
    (lasts : l.Pairwise fun earlier later => holds earlier → holds later) :
    ∃ before after, l = before ++ after ∧ (∀ a ∈ before, ¬ holds a) ∧ ∀ a ∈ after, holds a := by
  induction l with
  | nil => exact ⟨[], [], rfl, by simp, by simp⟩
  | cons a rest ih =>
    obtain ⟨first, later⟩ := List.pairwise_cons.mp lasts
    by_cases here : holds a
    · exact ⟨[], a :: rest, rfl, by simp, List.forall_mem_cons.mpr ⟨here, fun b member =>
        first b member here⟩⟩
    · obtain ⟨before, after, rfl, without, with_⟩ := ih later
      exact ⟨a :: before, after, rfl, List.forall_mem_cons.mpr ⟨here, without⟩, with_⟩

/-- What a request to stop does to the visits of a run: it is seen by all that begin after it, and in
each group those that are cancelled come last. -/
structure Heeded (plan : Plan) (visits : List Visit) : Prop where
  whole : (visits.map (·.pin)).Perm plan.pins
  lasts : visits.Pairwise fun earlier later => earlier.ended.Stopping → later.start.Stopping
  cancels : ∀ visit ∈ visits, visit.start.Stopping → visit.outcome = .failed .cancelled
  suffix : ∀ group ∈ plan.groups, ∃ done dropped : List Visit, (done ++ dropped).Sublist visits ∧
    (done ++ dropped).map (·.pin) = group.filterMap (plan.pins[·]?) ∧
      (∀ visit ∈ done, visit.outcome ≠ .failed .cancelled) ∧
      ∀ visit ∈ dropped, visit.outcome = .failed .cancelled

theorem visits_heeded {order : List Nat} (lasting : observer.Lasting)
    (heeds : ∀ p ∈ plan.pins, p.backend.Heeds)
    (interleaves : Groups.Interleaves plan.groups order)
    (perm : (order.filterMap (plan.pins[·]?)).Perm plan.pins) :
    Heeded plan (visits plan.root adopt observer (order.filterMap (plan.pins[·]?)) w) where
  whole := by rwa [visits_pins]
  lasts := visits_lasting lasting
  cancels visit member stopping := by
    obtain ⟨p, -, v, rfl⟩ := mem_visits member
    exact (Visit.of_stopping stopping).1
  suffix group listed := by
    have among := (interleaves.keeps group listed).filterMap (plan.pins[·]?)
    have pins : (visits plan.root adopt observer (order.filterMap (plan.pins[·]?)) w).map (·.pin)
        = order.filterMap (plan.pins[·]?) := visits_pins _ w
    rw [← pins] at among
    obtain ⟨turns, sublist, same⟩ := List.sublist_map_iff.mp among
    have cancelled : (visits plan.root adopt observer (order.filterMap (plan.pins[·]?)) w).Pairwise _ :=
      visits_cancelled lasting fun p member => heeds p (perm.subset member)
    obtain ⟨done, dropped, rfl, without, with_⟩ := split_of_pairwise (cancelled.sublist sublist)
    exact ⟨done, dropped, sublist, same.symm, without, with_⟩

theorem visits_dropped (lasting : observer.Lasting) (stopping : w.Stopping) :
    ∀ visit ∈ visits root adopt observer pins w, visit.outcome = .failed .cancelled := by
  intro visit member
  have begun := visits_stopping lasting stopping visit member
  obtain ⟨p, -, v, rfl⟩ := mem_visits member
  exact (Visit.of_stopping begun).1

theorem lasting_opening (lasting : observer.Lasting) (plan : Plan) :
    (opening plan observer).Lasting :=
  (Layout.lasting_lock _).bind fun _ => (Recovery.lasting_recover _).reporting.bind fun _ =>
    lasting_tell lasting _

theorem leaving_disk (lasting : observer.Lasting) (passive : observer.Passive)
    (stopping : w.Stopping) :
    (leaving observer (visits root adopt observer pins w) w).disk = w.disk := by
  induction pins generalizing w with
  | nil => rfl
  | cons p rest ih =>
    have first : (Visit.of root adopt observer p w).start.Stopping :=
      lasting_tell (ε := SyncError) lasting _ w stopping
    have same : (Visit.of root adopt observer p w).start.disk = w.disk := (passive _ _).1
    have still := (Visit.of_stopping first).2
    have after : ((Visit.of root adopt observer p w).next observer).Stopping :=
      lasting_tell (ε := SyncError) lasting _ _ (still ▸ first)
    have next : ((Visit.of root adopt observer p w).next observer).disk
        = (Visit.of root adopt observer p w).ended.disk := (passive _ _).1
    exact (ih after).trans (next.trans ((congrArg World.disk still).trans same))

namespace Terrain

variable {t : Terrain}

theorem Orderly.visits (orderly : t.Orderly w.disk) (surveyed : t.Surveyed)
    (unlinked : t.Unlinked) (passive : observer.Passive) (listed : ∀ p ∈ pins, p ∈ t.pins)
    (served : ∀ visit ∈ Sync.visits t.root adopt observer pins w,
      t.Served adopt visit.pin visit.start) : ∀ visit ∈ Sync.visits t.root adopt observer pins w,
      t.Orderly visit.start.disk ∧
        t.Handled adopt visit.pin visit.start.disk visit.ended.disk visit.outcome := by
  induction pins generalizing w with
  | nil => simp [Sync.visits]
  | cons p rest ih =>
    rw [List.forall_mem_cons] at listed
    rw [Sync.visits, List.forall_mem_cons] at served
    have same : (Visit.of t.root adopt observer p w).start.disk = w.disk := (passive _ _).1
    have found : t.Orderly (Visit.of t.root adopt observer p w).start.disk := same ▸ orderly
    have handled : t.Handled adopt p (Visit.of t.root adopt observer p w).start.disk
        (Visit.of t.root adopt observer p w).ended.disk
        (Visit.of t.root adopt observer p w).outcome := by
      have executed : (Sync.execute t.root adopt p).Ensures _ _ _ :=
        found.execute surveyed unlinked listed.1 served.1
      have ends := executed.ends
      have outcome : (Visit.of t.root adopt observer p w).outcome = outcomeOf
          ((Sync.execute t.root adopt p).exec (Visit.of t.root adopt observer p w).start).1 := rfl
      rw [outcome]
      cases answer : ((Sync.execute t.root adopt p).exec (Visit.of t.root adopt observer p w).start).1 with
      | ok outcome =>
        rw [answer] at ends
        exact ends
      | error fault =>
        rw [answer] at ends
        exact .failed ends.1 ends.2
    have next : ((Visit.of t.root adopt observer p w).next observer).disk
        = (Visit.of t.root adopt observer p w).ended.disk := (passive _ _).1
    have after := handled.orderly found surveyed unlinked listed.1
    rw [Sync.visits, List.forall_mem_cons]
    exact ⟨⟨found, handled⟩, ih (next ▸ after) listed.2 served.2⟩

theorem Orderly.leaving (orderly : t.Orderly w.disk) (surveyed : t.Surveyed)
    (unlinked : t.Unlinked) (passive : observer.Passive) (listed : ∀ p ∈ pins, p ∈ t.pins)
    (served : ∀ visit ∈ Sync.visits t.root adopt observer pins w,
      t.Served adopt visit.pin visit.start) :
    t.Orderly (Sync.leaving observer (Sync.visits t.root adopt observer pins w) w).disk ∧
      (Sync.leaving observer (Sync.visits t.root adopt observer pins w) w).disk.look
        (t.own "state.toml") = w.disk.look (t.own "state.toml") := by
  induction pins generalizing w with
  | nil => exact ⟨orderly, rfl⟩
  | cons p rest ih =>
    obtain ⟨found, handled⟩ : t.Orderly _ ∧ t.Handled adopt p _ _ _ :=
      orderly.visits surveyed unlinked passive listed served _ List.mem_cons_self
    rw [List.forall_mem_cons] at listed
    rw [Sync.visits, List.forall_mem_cons] at served
    have same : (Visit.of t.root adopt observer p w).start.disk = w.disk := (passive _ _).1
    have next : ((Visit.of t.root adopt observer p w).next observer).disk
        = (Visit.of t.root adopt observer p w).ended.disk := (passive _ _).1
    have kept := handled.record found surveyed listed.1
    have after := handled.orderly found surveyed unlinked listed.1
    obtain ⟨orderly', record⟩ := ih (next ▸ after) listed.2 served.2
    exact ⟨orderly', record.trans ((congrArg (Disk.look · _) next).trans (kept.trans (same ▸ rfl)))⟩

theorem Handled.cancelled {d e : Disk} {outcome : Outcome} (handled : t.Handled adopt p d e outcome)
    (failed : outcome.isFailure = true) (r : List String) :
    e.look (t.top ++ (p.destination.names ++ r)) = d.look (t.top ++ (p.destination.names ++ r)) := by
  have place : t.top ++ (p.destination.names ++ r) = (t.site p).destination ++ r := by
    simp [Site.destination, site, siteOf]
  rw [place]
  cases handled with
  | current same => rw [same]
  | failed quiet => exact quiet.old r
  | renewed success =>
    rw [success] at failed
    cases failed

theorem Orderly.opened (orderly : t.Orderly w.disk) (passive : observer.Passive)
    {plan : Plan} (rooted : plan.root = t.root) :
    t.Prepared w.disk (Sync.opened plan observer w).disk := by
  have opens : (Sync.opening plan observer).Ensures (fun _ => True)
      (fun _ e => t.Prepared w.disk e) w := by
    unfold Sync.opening
    rw [rooted]
    refine (orderly.lock.unwatched).bind ?_ fun _ _ holds => holds.1
    rintro ⟨⟩ w₁ ⟨prepared, -⟩
    obtain ⟨n, still⟩ := prepared.orderly.recover
    have recovered : (reporting (SyncError.state (Layout.directory t.root).text)
        (Recovery.recover t.root)).exec w₁ = (.ok n, w₁) := exec_reporting_ok still
    have kept : (reporting (SyncError.state (Layout.directory t.root).text)
        (Recovery.recover t.root)).Ensures (fun _ => True) (fun _ e => t.Prepared w.disk e) w₁ :=
      .of_exec recovered trivial prepared
    refine kept.bind ?_ fun _ _ prepared => prepared
    intro n w₂ prepared₂
    exact (tell_ensures passive _ trivial).mono fun _ _ holds => holds.2 ▸ prepared₂
  exact opens.ends

theorem Orderly.record (orderly : t.Orderly w.disk) (table : PinTable) (report : SyncReport) :
    (Sync.record t.root table report).Ensures (fun _ => True) (fun _ e => t.Furnished w.disk e) w := by
  unfold Sync.record
  have asked : (query (RunState.load · t.root)).Ensures (fun _ => True) (fun _ e => e = w.disk) w :=
    ensures_query trivial rfl
  refine asked.bind ?_ fun _ e same => by rw [same]; exact .refl orderly
  intro state w₁ same
  have saved := (same ▸ orderly : t.Orderly w₁.disk).save (recorded table report state)
  rw [same] at saved
  exact saved.unwatched.mono fun _ _ holds => holds.1

theorem carries_record (d₀ : Disk) (surveyed : t.Surveyed) : t.Carries adopt (fun _ => True)
    fun _ _ d => d.look (t.own "state.toml") = d₀.look (t.own "state.toml") where
  furnished _ _ _ := trivial
  during _ _ _ _ := trivial
  handled member orderly _ same handled := (handled.record orderly surveyed member).trans same

end Terrain

/-- What the pins of a run find: a table that can be used, ground that is in order once all that
earlier runs have left is cleared up, and backends and an observer that keep to their part. -/
structure Tidied (plan : Plan) (table : PinTable) (options : SyncOptions) (backends : List Backend)
    (observer : Observer) (top : DiskPath) (placed : List PlacedPin) (w : World) : Prop where
  valid : table.validate backends = .ok placed
  orderly : (Terrain.ofPlan top placed plan (tour plan options observer w)).Orderly
    (opened plan observer w).disk
  supplied : Supplied plan.root top (placed.map (·.destination)) (tour plan options observer w)
  passive : observer.Passive

variable {top : DiskPath} {placed : List PlacedPin}

theorem Setting.tidied (setting : Setting root table options backends observer top placed w)
    (build : Plan.build w.disk root table backends options.filter options.adoptUnmanaged = .ok plan)
    (toured : journey root table options backends observer w = tour plan options observer w) :
    Tidied plan table options backends observer top placed w ∧
      (Terrain.ofPlan top placed plan (tour plan options observer w)).Prepared w.disk
        (opened plan observer w).disk := by
  obtain ⟨rooted, -, -, orderly⟩ := setting.planned build (tour plan options observer w)
  have prepared := orderly.opened setting.passive rfl
  have supplied := setting.supplied
  rw [toured, ← rooted] at supplied
  exact ⟨⟨setting.valid, prepared.orderly, supplied, setting.passive⟩, prepared⟩

/-- What a request to stop leaves alone: the trees of the pins that were cancelled, and their records;
and if it was made before the run, everything that is not the program's own. -/
structure Harmless (plan : Plan) (options : SyncOptions) (observer : Observer) (top : DiskPath)
    (w w' : World) : Prop where
  trees : ∀ visit ∈ tour plan options observer w, visit.outcome = .failed .cancelled → ∀ r,
    visit.ended.disk.look (top ++ (visit.pin.destination.names ++ r))
      = visit.start.disk.look (top ++ (visit.pin.destination.names ++ r))
  records : ∃ before after, RunState.load (opened plan observer w).disk plan.root = .ok before ∧
    RunState.load w'.disk plan.root = .ok after ∧ ∀ visit ∈ tour plan options observer w,
      visit.outcome = .failed .cancelled → after.get? visit.pin.pin.id = before.get? visit.pin.pin.id
  unmoved : w.Stopping → ∀ q, ¬ top ++ [stateDirectory] <+: q →
    w'.disk.look q = (opened plan observer w).disk.look q

theorem Tidied.harmless {w₁ : World}
    (tidied : Tidied plan table options backends observer top placed w)
    (lasting : observer.Lasting)
    (build : Plan.build w.disk root table backends options.filter options.adoptUnmanaged = .ok plan)
    (perm : ((options.schedule plan.groups).filterMap (plan.pins[·]?)).Perm plan.pins)
    (reported : report = .ofEntries false ((tour plan options observer w).map Visit.row))
    (saved : (record plan.root table report).exec
      (leaving observer (tour plan options observer w) (opened plan observer w)) = (.ok (), w₁))
    (same : w'.disk = w₁.disk) : Harmless plan options observer top w w' := by
  obtain ⟨-, -, surveyed, -⟩ := Terrain.of_build top (tour plan options observer w) tidied.valid build
  have served : ∀ visit ∈ tour plan options observer w,
      (Terrain.ofPlan top placed plan (tour plan options observer w)).Served options.adoptUnmanaged
        visit.pin visit.start :=
    Supplied.served _ tidied.supplied fun _ => id
  have listed : ∀ p ∈ (options.schedule plan.groups).filterMap (plan.pins[·]?), p ∈ plan.pins :=
    fun p member => perm.subset member
  have visited : ∀ visit ∈ tour plan options observer w, _ :=
    tidied.orderly.visits surveyed tidied.supplied.unlinked tidied.passive listed served
  have left : (Terrain.ofPlan top placed plan (tour plan options observer w)).Orderly
      (leaving observer (tour plan options observer w) (opened plan observer w)).disk ∧ _ :=
    tidied.orderly.leaving surveyed tidied.supplied.unlinked tidied.passive listed served
  refine ⟨fun visit member cancelled => ?_, ?_, fun stopping q outside => ?_⟩
  · refine (visited visit member).2.cancelled ?_
    rw [cancelled]
    rfl
  · have carries : (Terrain.ofPlan top placed plan (tour plan options observer w)).Carries
        options.adoptUnmanaged _ _ :=
      Terrain.carries_record (opened plan observer w).disk surveyed
    have ended := (carries.record left.1 left.2 : (record _ table
      (.ofEntries false ((tour plan options observer w).map Visit.row))).Ensures _ _ _).ends
    rw [← reported, show (Terrain.ofPlan top placed plan _).root = plan.root from rfl, saved] at ended
    obtain ⟨before, _, loaded, loads, -⟩ := (ended rfl).loads tidied.orderly fun holds => holds
    rw [same]
    refine ⟨before, _, loaded, loads, fun visit member cancelled => ?_⟩
    rw [reported]
    refine recorded_other fun row listed id => ?_
    obtain ⟨other, among, rfl⟩ := List.mem_map.mp (List.mem_mergeSort.mp listed)
    have once : ((tour plan options observer w).map (·.pin.pin.id)).Nodup := by
      have ids := ((perm.map (·.pin.id)).nodup_iff).mpr (ids_of_build tidied.valid build)
      have pins : (tour plan options observer w).map (·.pin) = _ := tour_pins w
      rwa [← pins, List.map_map] at ids
    obtain rfl : other = visit := List.inj_on_of_nodup_map once among member id
    change other.outcome.isFailure = true
    rw [cancelled]
    rfl
  · have still : (leaving observer (tour plan options observer w) (opened plan observer w)).disk
        = (opened plan observer w).disk :=
      leaving_disk lasting tidied.passive (lasting_opening lasting plan w stopping)
    have furnished := (left.1.record table report).ends
    rw [show (Terrain.ofPlan top placed plan _).root = plan.root from rfl, saved] at furnished
    rw [same, ← still]
    exact furnished.elsewhere q outside

theorem single_heeds (name text : String) : (Backend.single name text).Heeds :=
  fun _ => (lasting_change _).reported (by simp)

def sidePin : Pin := ⟨"side", "fake:", "r1", "s"⟩

def hastyTable : PinTable := ⟨[outerPin.pin, innerPin.pin, sidePin]⟩

def hastyPins : List PlacedPin := [⟨outerPin.pin, outerDestination, .single "new" "content"⟩,
  ⟨innerPin.pin, innerDestination, .single "new" "content"⟩,
  ⟨sidePin, ⟨["s"], by decide, by decide, by decide⟩, .single "new" "content"⟩]

/-- A world in which a request to stop is made when the content of the second pin is fetched. -/
def hastyWorld : World := { disk := nestedDisk, token := ⟨some 3⟩ }

def hastyReport : SyncReport :=
  ⟨false, [⟨"inner", "a/p/q", "r1", "single", .failed .cancelled⟩,
    ⟨"outer", "a", "r2", "single", .fetchedNew⟩, ⟨"side", "s", "r1", "single", .failed .cancelled⟩]⟩

def hastyRun : Except SyncError SyncReport × World :=
  (sync (.ofText "root") hastyTable {} [.single "new" "content"] noObserver).exec hastyWorld

theorem hastyRun_ran : ∃ w', hastyRun = (.ok hastyReport, w') ∧
    ∀ visit ∈ journey (.ofText "root") hastyTable {} [.single "new" "content"] noObserver hastyWorld,
      visit.Brings (.ofText "root") ["root"] nestedPaths :=
  exec_sync (P := fun visits _ => ∀ visit ∈ visits, visit.Brings (.ofText "root") ["root"] nestedPaths)
    (by decide) rfl (by decide +kernel) (.swap _ _ _) (by decide +kernel)

theorem hasty_setting : Setting (.ofText "root") hastyTable {} [.single "new" "content"] noObserver
    ["root"] hastyPins hastyWorld where
  valid := rfl
  grounds := .of_listing (by decide) (.of_segments (by decide) (by decide) (by decide) (by decide))
    (by decide +kernel) (by decide +kernel) (by decide +kernel)
  supplied := by
    obtain ⟨_, -, brings⟩ := hastyRun_ran
    exact .of_brings (by simp [Backend.single_housed (show IsName "new" by decide)]) brings
  passive _ _ := ⟨rfl, rfl⟩

def outerRun (options : SyncOptions) (backend : Backend) (w : World) :
    Except SyncError SyncReport × World :=
  (sync (.ofText "root") nestedTable options [backend] noObserver).exec w

def droppedReport : SyncReport := ⟨false, [⟨"outer", "a", "r2", "single", .failed .cancelled⟩]⟩

/-- A backend that leaves something beside the directory it is given before it gives up. -/
def sprawling : Backend where
  name := "single"
  handles _ := true
  fetch _ := do
    Action.reporting .io (Files.writeText (.ofText "root/a/more") "")
    modify fun w => { w with token := .tripped }
    throw .cancelled

/-- The disk after a run was cut off when the old content of the outer pin had just moved aside. -/
def halfwayDisk : Disk where
  home := []
  nodes := [(["root"], .dir), (["root", ".depsync"], .dir), (["root", ".depsync", "backup"], .dir),
    (["root", ".depsync", "backup", "outer-560e3e12b1e0"], .dir),
    (["root", ".depsync", "backup", "outer-560e3e12b1e0.json"],
      .file (journalText "outer" ⟨"root", ["a"]⟩).toUTF8 0o644)]
  distinct := by decide

end PinnedTree.Sync
