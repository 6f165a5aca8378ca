import PinnedTree.Proofs.Sync.Confinement
import PinnedTree.Proofs.Sync.Mending

namespace PinnedTree.Sync

open PinnedTree.Action Transaction

theorem adopt_of_file {d : Disk} {root : Location} {top : DiskPath} {p : PlannedPin} {adopt : Bool}
    {action : PlannedAction} {c : ByteArray} {m : Nat}
    (straight : d.Straight root top p.destination.names) (sound : d.Sound)
    (callable : root.Callable p.destination.names)
    (file : d.look (top ++ p.destination.names) = some (.file c m))
    (decided : reconsider d root adopt p = .ok action) : adopt = true := by
  have stands : d.look (top ++ p.destination.names) ≠ none := by simp [file]
  have stat : d.linkStat (p.destination.place root) = .ok (.file c m) :=
    (straight.linkStat_ok sound _).mpr ⟨callable, file⟩
  have place : Inspection.ofPlace d (p.destination.place root) = .ok .unmanaged := by
    simp [Inspection.ofPlace, stat]
  have leads : d.resolve true (p.destination.place root)
      = .ok (.taken (top ++ p.destination.names) (.file c m)) := by
    have follow := straight.resolve_follow (by simp [file])
    rw [straight.resolved callable (sound.opened stands), Disk.placeAt, file] at follow
    exact follow
  have found : Inspection.ofOuter d (p.destination.place root) p.nested = .ok .unmanaged := by
    simp [Inspection.ofOuter, place, leads, bind, Except.bind, pure, Except.pure]
  cases adopt with
  | true => rfl
  | false =>
    simp [reconsider, found, decideAction, Except.mapError, bind, Except.bind] at decided

/-- What stands aside while a pin is handled was there before, with no journal, or is old content that
there is something to do about. -/
theorem Terrain.Handling.sidelined {t : Terrain} {adopt : Bool} {p : PlannedPin} {d e : Disk}
    (handling : t.Handling adopt p d e) (ready : (t.site p).Ready d) (idle : (t.site p).Idle d)
    {r : List String} {node : Node} (stands : e.look ((t.site p).aside ++ r) = some node) :
    d.look ((t.site p).aside ++ r) = some node ∧ e.look (t.site p).journal = none ∨
      ((t.site p).Sidelined (Site.noteOf (jobOf t.root p)) e ∧
        ∃ action, reconsider d t.root adopt p = .ok action) ∧
          d.look ((t.site p).destination ++ r) = some node := by
  have idle : (t.site p).opened.Idle d := { idle with }
  obtain ⟨during, quiet | decided⟩ := handling
  · exact .inl (quiet.sidelined idle stands)
  · rcases during with quiet | ⟨new, marked, -, phase⟩
    · exact .inl (quiet.sidelined idle stands)
    · exact (phase.sidelined ready.opened idle marked.isDir stands).imp_right fun ⟨sidelined, old⟩ =>
        ⟨⟨{ sidelined with }, decided⟩, old⟩

namespace Past

abbrev terrain (past : Past) (turn : Turn) (placed : List PlacedPin) (pins : List PlannedPin) :
    Terrain where
  root := past.root
  top := past.top
  placed := placed
  pins := pins
  stock p new := ∃ visit ∈ turn.visits past.root, visit.pin = p ∧ new ∈ visit.brought past.root past.top

structure Planned (past : Past) (turn : Turn) (placed : List PlacedPin) (pins : List PlannedPin) :
    Prop where
  listed : turn ∈ past.turns
  real : turn.options.dryRun = false
  surveyed : (past.terrain turn placed pins).Surveyed
  chosen : ∀ p ∈ pins, p.toPlacedPin ∈ turn.chosen
  all : ∀ p ∈ placed, p.destination ∈ past.destinations

variable {past : Past} {turn : Turn} {placed : List PlacedPin} {pins : List PlannedPin}
  {p : PlannedPin} {d e : Disk} {name slot : String} {node : Node} {w : World}

theorem Planned.known (planned : past.Planned turn placed pins) (member : p ∈ pins)
    (shows : (past.terrain turn placed pins).Shows p d e)
    (near : ((past.terrain turn placed pins).site p).opened.Near d e)
    (ready : ((past.terrain turn placed pins).site p).Ready d) (rested : past.Rested d)
    {names : List String} (outside : ¬ past.top ++ [stateDirectory] <+: past.top ++ names)
    (stands : e.look (past.top ++ names) = some node) : past.Known names node := by
  rcases shows.origin near ready outside stands with old | rfl | ⟨new, below, marked, stocked, place,
    fresh⟩
  · exact rested.known names node outside old
  · exact .dir names
  · rw [Site.destination, List.append_assoc] at place
    obtain rfl := List.append_cancel_left place
    obtain ⟨visit, toured, rfl, brought⟩ := stocked
    exact .staged planned.listed toured brought fresh

theorem Rested.known_destination (rested : past.Rested d) {destination : Destination}
    {r : List String} (stands : d.look (past.top ++ (destination.names ++ r)) = some node) :
    past.Known (destination.names ++ r) node :=
  rested.known _ node (Layout.outside destination r) stands

/-- Old content in the place of a destination can be removed once it is aside, or is a file that is
taken over. -/
theorem Planned.kept (planned : past.Planned turn placed pins) (member : p ∈ pins)
    (orderly : (past.terrain turn placed pins).Orderly d) (rested : past.Rested d)
    {action : PlannedAction}
    (decided : reconsider d past.root turn.options.adoptUnmanaged p = .ok action)
    (here : past.root.Callable p.destination.names)
    (there : past.root.Callable [stateDirectory, "backup", slotName p.pin.id])
    (stood : d.look (past.top ++ p.destination.names) = some node) :
    past.Kept (slotName p.pin.id) node := by
  have dotless : '.' ∉ (slotName p.pin.id).toList :=
    notMem_slotName _ (by decide) (by decide) (by decide)
  have straight : d.Straight past.root past.top p.destination.names :=
    (Site.Near.refl orderly.sound).straight_destination (orderly.ready planned.surveyed member)
  cases node with
  | dir => exact .dir dotless there
  | link target => exact absurd stood (orderly.plain p member target)
  | file c m =>
    have known : past.Known (p.destination.names ++ []) (.file c m) :=
      rested.known_destination (by simpa using stood)
    rw [List.append_nil] at known
    exact .spare ⟨turn, p.toPlacedPin, ⟨planned.listed, planned.real,
      adopt_of_file straight orderly.sound here stood decided, planned.chosen p member,
      ⟨c, m, rfl⟩, known⟩, rfl⟩

theorem Planned.mendable (planned : past.Planned turn placed pins) (member : p ∈ pins)
    (orderly : (past.terrain turn placed pins).Orderly d) (rested : past.Rested d)
    (handling : (past.terrain turn placed pins).Handling turn.options.adoptUnmanaged p d e) :
    past.Mendable e := by
  have near := handling.1.near
  have ready := orderly.ready planned.surveyed member
  have idle := orderly.idle p
  have sorted : ∀ name, e.look (past.aside name) ≠ none → name = slotName p.pin.id ∨
      name = journalName (slotName p.pin.id) ∨
        ((past.terrain turn placed pins).site p).opened.Spared d "backup" name ∧
          '.' ∉ name.toList := by
    intro name stands
    exact near.backup_sorted ready.opened { idle with } (mem_room.mpr stands)
  refine ⟨near.sound, near.rooted ready.opened, orderly.own_near near ready, fun names node outside stands =>
    planned.known member handling.1.shows near ready rested outside stands, ?_, ?_⟩
  · intro name node stands
    rcases sorted name (by simp [stands]) with rfl | rfl | ⟨spared, -⟩
    · have here : e.look (((past.terrain turn placed pins).site p).aside ++ []) = some node := by
        rw [List.append_nil]
        exact stands
      rcases handling.sidelined ready idle here with ⟨old, -⟩ | ⟨⟨sidelined, action, decided⟩, old⟩
      · rw [List.append_nil] at old
        exact .spare (rested.spare _ node old)
      · rw [List.append_nil] at old
        exact planned.kept member orderly rested decided sidelined.here sidelined.there old
    · exact .journal (slotName_isName _) (notMem_slotName _ (by decide) (by decide) (by decide))
    · obtain ⟨c, m, file⟩ := spared.file
      rcases near.elsewhere _ spared.outside with same | ⟨free, -⟩
      · exact .spare (rested.spare name node (same.symm.trans stands))
      · cases free.symm.trans file
  · intro slot journal noted stands
    have dotted : '.' ∈ (journalName slot).toList := by simp [journalName]
    have same : slot = slotName p.pin.id := by
      rcases sorted (journalName slot) (by simp [noted]) with impossible | same | ⟨-, dotless⟩
      · rw [impossible] at dotted
        exact absurd dotted (notMem_slotName _ (by decide) (by decide) (by decide))
      · simpa [journalName] using same
      · exact absurd dotted dotless
    subst same
    -- beside a journal, whatever stands aside is the old content
    have old : ∀ r node, e.look (past.aside (slotName p.pin.id) ++ r) = some node →
        ((past.terrain turn placed pins).site p).Sidelined
            (Site.noteOf (jobOf past.root p)) e ∧
          d.look (past.top ++ (p.destination.names ++ r)) = some node := by
      intro r node found
      rcases handling.sidelined ready idle found with ⟨-, silent⟩ | ⟨⟨sidelined, -⟩, old⟩
      · cases silent.symm.trans noted
      · exact ⟨sidelined, by rw [← List.append_assoc]; exact old⟩
    obtain ⟨node, there⟩ := Option.ne_none_iff_exists'.mp stands
    obtain ⟨sidelined, -⟩ := old [] node (by rwa [List.append_nil])
    exact ⟨p.destination, planned.all _ (planned.surveyed.listed p member),
      ⟨p.pin.id, sidelined.noted journal noted⟩, sidelined.here, sidelined.held,
      fun r node found => rested.known_destination (old r node found).2⟩

theorem Rested.mendable (rested : past.Rested d) (orderly : (past.terrain turn placed pins).Orderly d) :
    past.Mendable d where
  sound := orderly.sound
  rooted := orderly.rooted
  own := orderly.own
  known := rested.known
  kept name node stands := .spare (rested.spare name node stands)
  noted slot journal stands := by
    have dotless := (rested.spare _ journal stands).dotless
    simp [journalName] at dotless

theorem Rested.furnished (rested : past.Rested d)
    (furnished : (past.terrain turn placed pins).Furnished d e) : past.Rested e where
  known names node outside stands :=
    rested.known names node outside ((furnished.elsewhere _ outside).symm.trans stands)
  spare name node stands := by
    have inside := past.aside_inside name []
    rw [List.append_nil] at inside
    exact rested.spare name node
      ((furnished.rooms "backup" (by simp) _ inside).symm.trans stands)

theorem Planned.carries (planned : past.Planned turn placed pins) :
    (past.terrain turn placed pins).Carries turn.options.adoptUnmanaged past.Mendable
      fun _ _ d => past.Rested d where
  furnished _ rested furnished := (rested.furnished furnished).mendable furnished.orderly
  during member orderly rested handling := planned.mendable member orderly rested handling
  handled member orderly orderly' rested handled := by
    refine (planned.mendable member orderly rested (handled.handling orderly)).rested fun name stands => ?_
    obtain ⟨dotless, c, m, file⟩ := orderly'.backup name stands
    exact ⟨dotless, by rw [aside, file]; simp⟩

theorem Planned.supplied (planned : past.Planned turn placed pins) (fair : past.Fair) :
    Supplied past.root past.top (placed.map (·.destination)) (turn.visits past.root) where
  tidy := fair.tidy turn planned.listed
  plain visit toured new brought inner listed rest whole _ r under target link := by
    obtain ⟨other, there, rfl⟩ := List.mem_map.mp listed
    refine fair.plain _ (planned.all other there) (visit.pin.destination.names ++ r) ?_ target
      (.staged planned.listed toured brought link)
    rw [whole]
    exact (List.prefix_append_right_inj _).mpr under

theorem Planned.unlinked (planned : past.Planned turn placed pins) (fair : past.Fair) :
    (past.terrain turn placed pins).Unlinked := by
  rintro _ - inner among new ⟨visit, toured, rfl, brought⟩
  exact (planned.supplied fair).plain visit toured new brought inner among

theorem Cleared.orderly (cleared : past.Cleared d) (mendable : past.Mendable d) (fair : past.Fair)
    (planned : past.Planned turn placed pins) : (past.terrain turn placed pins).Orderly d := by
  have known : ∀ destination ∈ (past.terrain turn placed pins).all, destination ∈ past.destinations := by
    intro destination member
    obtain ⟨p, among, rfl⟩ := List.mem_map.mp member
    exact planned.all p among
  refine ⟨⟨mendable.sound, mendable.rooted, fun destination member r under _ =>
    mendable.unlinked fair (known destination member) under, mendable.own, cleared.staging, ?_⟩, ?_⟩
  · intro name stands
    obtain ⟨node, found⟩ := Option.ne_none_iff_exists'.mp stands
    have spare := cleared.spare name node found
    obtain ⟨c, m, rfl⟩ := spare.file
    exact ⟨spare.dotless, c, m, found⟩
  · intro p member
    exact mendable.unlinked fair (known _ (planned.surveyed.destination_mem member)) (List.prefix_refl _)

theorem planned_of_build (listed : turn ∈ past.turns) {plan : Plan}
    (real : turn.options.dryRun = false)
    (valid : turn.table.validate turn.backends = .ok placed)
    (made : Plan.build d past.root turn.table turn.backends turn.options.filter
      turn.options.adoptUnmanaged = .ok plan) : past.Planned turn placed plan.pins := by
  obtain ⟨-, selected, surveyed, -⟩ := Terrain.of_build past.top [] valid made
  refine ⟨listed, real, ⟨surveyed.listed, surveyed.nested⟩, fun p member => ?_, fun p member => ?_⟩
  · rw [Turn.chosen_of_valid valid, ← selected]
    exact List.mem_map_of_mem member
  · refine List.mem_flatMap.mpr ⟨turn, listed, List.mem_map_of_mem ?_⟩
    rwa [Turn.placed_of_valid valid]

theorem Mendable.lock (mendable : past.Mendable w.disk) :
    (Layout.lock past.root).Ensures past.Mendable (fun r e => r = .ok () →
      past.Mendable e ∧ Layout.Room past.root past.top e "staging" ∧
        Layout.Room past.root past.top e "backup") w := by
  refine ((Layout.lock_ensures mendable.sited).weaken fun e => mendable.prepared).mono ?_
  rintro r e ⟨prepared, rooms⟩ ok
  obtain ⟨roomy, -⟩ := rooms ok
  exact ⟨mendable.prepared prepared, roomy.staging (mendable.own _ (by simp)),
    roomy.backup (mendable.own _ (by simp))⟩

theorem Planned.recover (planned : past.Planned turn placed pins) (fair : past.Fair)
    (mendable : past.Mendable w.disk) (staging : Layout.Room past.root past.top w.disk "staging")
    (backup : Layout.Room past.root past.top w.disk "backup") :
    (Recovery.recover past.root).Ensures past.Mendable (fun r e => ∀ n, r = .ok n →
      (past.terrain turn placed pins).Orderly e ∧ past.Rested e) w := by
  refine (mendable.recover fair staging backup).mono fun r e ends n ok => ?_
  obtain ⟨mendable', cleared⟩ := ends n ok
  exact ⟨cleared.orderly mendable' fair planned, mendable'.known, cleared.spare⟩

/-- A run on a disk that can be cleared up leaves one at every moment, and nothing on its way if it
ends with a report. -/
theorem Fair.run (fair : past.Fair) (listed : turn ∈ past.turns)
    (mendable : past.Mendable turn.world.disk) : (turn.sync past.root).Ensures past.Mendable
      (fun r e => ∀ report, r = .ok report → turn.options.dryRun = false → past.Cleared e)
      turn.world := by
  cases build : Plan.build turn.world.disk past.root turn.table turn.backends turn.options.filter
      turn.options.adoptUnmanaged with
  | error fault =>
    have refused : (turn.sync past.root).Ensures (· = turn.world.disk) _ turn.world :=
      Setting.refused build
    refine (refused.weaken fun e same => same ▸ mendable).mono ?_
    rintro r e ⟨⟨fault, rfl⟩, -⟩ report ⟨⟩
  | ok plan =>
    obtain ⟨placed, valid, rooted, -⟩ := Plan.build_ok build
    obtain ⟨_, pins⟩ := plan
    cases rooted
    refine Setting.sync_planned (fair.passive turn listed) build mendable fun busy real => ?_
    have planned := planned_of_build listed real valid build
    refine (planned.carries.carryOut_after planned.surveyed (planned.unlinked fair)
      (fair.passive turn listed) rfl rfl rfl (fun opens => ?_) mendable.sound mendable.lock
      ?_).mono ?_
    · refine Supplied.served ⟨past.root, pins⟩ (planned.supplied fair) fun visit member => ?_
      rw [Turn.visits, journey_eq busy real build opens]
      exact member
    · rintro w₂ - ⟨mendable₂, staging, backup⟩
      exact planned.recover fair mendable₂ staging backup
    · intro r e ends report reported
      obtain ⟨-, -, rested, furnished, -, -, -, -, -⟩ := ends report reported
      exact ⟨furnished.orderly.staging, (rested.furnished furnished).spare⟩

end Past

def Turn.Leaves (root : Location) (turn : Turn) (d e : Disk) : Prop :=
  turn.world.disk = d ∧ ∃ count,
    e = interrupted root turn.table turn.options turn.backends turn.observer turn.world count

/-- After runs that each came to an end or were cut off between two steps, one that ends with a report
leaves nothing in the rooms for content on its way but files that were taken over, each in the slot of
its pin. -/
theorem sync_clears {past : Past} (fair : past.Fair) {turns : List Turn} {last : Turn}
    {report : SyncReport} (runs : past.turns = turns ++ [last])
    (series : Series (Turn.Leaves past.root) turns past.start last.world.disk)
    (real : last.options.dryRun = false)
    (reported : ((last.sync past.root).exec last.world).1 = .ok report) :
    (∀ q, Disk.Inside (past.top ++ [stateDirectory, "staging"]) q →
      ((last.sync past.root).exec last.world).2.disk.look q = none) ∧
    ∀ q node, Disk.Inside (past.top ++ [stateDirectory, "backup"]) q →
      ((last.sync past.root).exec last.world).2.disk.look q = some node →
        ∃ turn p, past.Adopted turn p node ∧
          q = past.top ++ [stateDirectory, "backup", slotName p.pin.id] := by
  have mendable : past.Mendable last.world.disk := by
    refine series.keeps fair.mendable fun turn among d e mendable leaves => ?_
    obtain ⟨rfl, count, rfl⟩ := leaves
    have listed : turn ∈ past.turns := by simp [runs, among]
    exact (fair.run listed mendable).cut count
  have listed : last ∈ past.turns := by simp [runs]
  obtain ⟨ends, mendable'⟩ := (fair.run listed mendable).seen.ends
  have cleared := ends report reported real
  refine ⟨cleared.staging, ?_⟩
  rintro q node ⟨⟨rest, rfl⟩, other⟩ stands
  obtain ⟨name, more, rfl⟩ := List.exists_cons_of_ne_nil (by simpa using other : rest ≠ [])
  have place : past.top ++ [stateDirectory, "backup"] ++ name :: more = past.aside name ++ more := by
    simp [Past.aside]
  rw [place] at stands ⊢
  cases more with
  | nil =>
    rw [List.append_nil] at stands ⊢
    obtain ⟨turn, p, adopted, rfl⟩ := cleared.spare name node stands
    exact ⟨turn, p, adopted, rfl⟩
  | cons inner more =>
    -- nothing stands in a file
    have isDir : ((last.sync past.root).exec last.world).2.disk.look (past.aside name) = some .dir :=
      mendable'.sound.above (List.cons_ne_nil inner more) (by rw [stands]; simp)
    obtain ⟨c, m, file⟩ := (cleared.spare name _ isDir).file
    cases file

def strayTurn (d : Disk) : Turn :=
  ⟨⟨[outerPin.pin]⟩, { adoptUnmanaged := true }, [.single "new" "content"], noObserver, { disk := d }⟩

def takenDisk : Disk := ⟨[], [(["root"], .dir), (["root", "a"], .file .empty 0o644)], by decide⟩

/-- The first run is cut off when the new content is in its place, before its journal is removed. -/
def strayDisk : Disk where
  home := []
  nodes := [(["root"], .dir),
    (["root", ".depsync", "backup", "outer-560e3e12b1e0"], .file .empty 0o644),
    (["root", ".depsync"], .dir), (["root", ".depsync", "staging"], .dir),
    (["root", ".depsync", "backup"], .dir), (["root", ".depsync", "lock"], .file .empty 0o644),
    (["root", "a"], .dir), (["root", "a", "new"], .file "content".toUTF8 0o644),
    (["root", "a", ".depsync.json"],
      .file (Marker.mk "outer" "r2" "file://m" "single" "").text.toUTF8 0o600),
    (["root", ".depsync", "backup", "outer-560e3e12b1e0.json"],
      .file (journalText "outer" ⟨"root", ["a"]⟩).toUTF8 0o644)]
  distinct := by decide

def strayPast : Past where
  path := "root"
  top := ["root"]
  turns := [strayTurn takenDisk, strayTurn strayDisk]
  start := takenDisk

theorem stray_series :
    Series (Turn.Leaves strayPast.root) [strayTurn takenDisk] takenDisk strayDisk := by
  have cut : (strayTurn takenDisk).Leaves strayPast.root takenDisk strayDisk :=
    ⟨rfl, 14, (Disk.eq_of_nodes (by decide +kernel) (by decide +kernel)).symm⟩
  exact .turn cut (.done strayDisk)

def strayPaths : List DiskPath := [[], ["new"], [markerFile]]

theorem takenTurn_brings : ∀ visit ∈ (strayTurn takenDisk).visits strayPast.root,
    visit.Brings strayPast.root strayPast.top strayPaths := by
  decide +kernel

def strayRow : EntryReport := ⟨"outer", "a", "r2", "single", .alreadyCurrent⟩

def strayRun : Except SyncError SyncReport × World :=
  ((strayTurn strayDisk).sync (.ofText "root")).exec { disk := strayDisk }

theorem strayTurn_ran : (strayRun.1 = .ok ⟨false, [strayRow]⟩ ∧ strayRun.2.disk.look
      ["root", stateDirectory, "backup", slotName "outer"] = some (.file .empty 0o644)) ∧
    ∀ visit ∈ (strayTurn strayDisk).visits strayPast.root,
      visit.Brings strayPast.root strayPast.top strayPaths := by
  have replayed : (replay (.ofText "root") (strayTurn strayDisk).table
      (strayTurn strayDisk).options (strayTurn strayDisk).backends noObserver [strayRow]
      { disk := strayDisk }).any (fun replayed => replayed.1.map Visit.row = [strayRow] ∧
        replayed.2.disk.look ["root", stateDirectory, "backup", slotName "outer"]
          = some (.file .empty 0o644) ∧
        ∀ visit ∈ replayed.1, visit.Brings strayPast.root strayPast.top strayPaths) = true := by
    decide +kernel
  obtain ⟨w', ran, kept, brings⟩ := exec_sync (P := fun visits w' => w'.disk.look
      ["root", stateDirectory, "backup", slotName "outer"] = some (.file .empty 0o644) ∧
    ∀ visit ∈ visits, visit.Brings strayPast.root strayPast.top strayPaths)
    (by decide) rfl replayed (.refl _) (by simp)
  have same : strayRun = (.ok ⟨false, [strayRow]⟩, w') := ran
  rw [same]
  exact ⟨⟨rfl, kept⟩, brings⟩

theorem strayPast_fair : strayPast.Fair where
  sound := by decide
  rooted := .of_segments (by decide) (by decide) (by decide) (by decide)
  fresh := by decide
  passive turn listed := by
    simp only [strayPast, List.mem_cons, List.not_mem_nil, or_false] at listed
    rcases listed with rfl | rfl <;> exact fun _ _ => ⟨rfl, rfl⟩
  tidy turn listed := by
    simp only [strayPast, List.mem_cons, List.not_mem_nil, or_false] at listed
    rcases listed with rfl | rfl <;> exact tidy_of_housed _ (by
      simp [strayTurn, Backend.single_housed (show IsName "new" by decide)])
  plain destination listed r under target known := by
    obtain rfl : destination = outerDestination := by
      have both : strayPast.destinations = [outerDestination, outerDestination] := rfl
      simpa [both] using listed
    generalize same : Node.link target = node at known
    cases known with
    | dir => cases same
    | old stood =>
      subst same
      revert stood
      refine Disk.linkless_iff.mp ?_ target
      rcases List.prefix_cons_iff.mp under with rfl | ⟨tail, rfl, short⟩
      · decide
      · obtain rfl := List.prefix_nil.mp short
        decide
    | @staged _ visit _ _ _ listed' toured brought there =>
      simp only [strayPast, List.mem_cons, List.not_mem_nil, or_false] at listed'
      have brings : visit.Brings strayPast.root strayPast.top strayPaths := by
        rcases listed' with rfl | rfl
        · exact takenTurn_brings _ toured
        · exact strayTurn_ran.2 _ toured
      exact absurd same.symm ((brings.mem brought there).2 target)

/-- The file that was taken over is still there after the run. -/
theorem stray_cleared :
    (∀ q, Disk.Inside ["root", stateDirectory, "staging"] q → strayRun.2.disk.look q = none) ∧
    (∀ q node, Disk.Inside ["root", stateDirectory, "backup"] q →
      strayRun.2.disk.look q = some node → ∃ turn p, strayPast.Adopted turn p node ∧
        q = ["root"] ++ [stateDirectory, "backup", slotName p.pin.id]) ∧
    strayRun.2.disk.look ["root", stateDirectory, "backup", slotName "outer"]
      = some (.file .empty 0o644) := by
  obtain ⟨staging, backup⟩ := sync_clears strayPast_fair
    (show strayPast.turns = [strayTurn takenDisk] ++ [strayTurn strayDisk] from rfl) stray_series rfl
    strayTurn_ran.1.1
  exact ⟨staging, backup, strayTurn_ran.1.2⟩

end PinnedTree.Sync
