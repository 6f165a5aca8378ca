import PinnedTree.Proofs.Prune.Exactness
import PinnedTree.Proofs.Sync.Turns

namespace PinnedTree.Sync

open PinnedTree.Action Transaction

variable {root : Location} {top q : DiskPath} {d e : Disk} {turns : List Turn} {turn : Turn}
  {placed : List PlacedPin} {state : RunState} {rows : List EntryReport} {id : String}
  {destination : Destination} {brought : DiskPath → Node → Prop}
  {puts : String → String → Destination → Prop} {table : PinTable} {report : SyncReport}

def Sourced (top : DiskPath) (brought : DiskPath → Node → Prop) (d : Disk) : Prop :=
  ∀ q node, Disk.Inside top q → ¬ top ++ [stateDirectory] <+: q → d.look q = some node →
    node ≠ .dir → brought q node

/-- Every file and every link outside the program's own directory stands at or below a destination
with the marker of an id that was put there. -/
def Filed (top : DiskPath) (puts : String → String → Destination → Prop) (d : Disk) : Prop :=
  Sourced top (fun q _ => ∃ id revision destination, puts id revision destination ∧
    top ++ destination.names <+: q ∧ d.Certifies (top ++ destination.names) id revision) d

theorem Sourced.congr (sourced : Sourced top brought d)
    (elsewhere : ∀ q, ¬ top ++ [stateDirectory] <+: q → e.look q = d.look q) :
    Sourced top brought e := fun q node inside outside stands =>
  sourced q node inside outside ((elsewhere q outside).symm.trans stands)

theorem Sourced.mono {brought' : DiskPath → Node → Prop} (sourced : Sourced top brought d)
    (more : ∀ q node, brought q node → brought' q node) : Sourced top brought' d :=
  fun q node inside outside stands other => more q node (sourced q node inside outside stands other)

theorem Filed.mono {puts' : String → String → Destination → Prop} (filed : Filed top puts d)
    (more : ∀ id revision destination, puts id revision destination → puts' id revision destination) :
    Filed top puts' d :=
  Sourced.mono filed fun _ _ ⟨id, revision, destination, put, holds⟩ =>
    ⟨id, revision, destination, more _ _ _ put, holds⟩

theorem Filed.congr (filed : Filed top puts d)
    (elsewhere : ∀ q, ¬ top ++ [stateDirectory] <+: q → e.look q = d.look q) : Filed top puts e := by
  intro q node inside outside stands other
  obtain ⟨id, revision, destination, put, under, certifies⟩ :=
    Sourced.congr filed elsewhere q node inside outside stands other
  refine ⟨id, revision, destination, put, under, certifies.congr (elsewhere _ ?_)⟩
  rw [List.append_assoc]
  exact Layout.outside destination [markerFile]

namespace Terrain

variable {t : Terrain} {p : PlannedPin} {adopt : Bool} {outcome : Outcome}

def Reported (t : Terrain) (rows : List EntryReport) (p : PlannedPin) : Prop :=
  p ∈ t.pins ∧ ∃ outcome : Outcome, outcome.isFailure = false ∧ entryReport p outcome ∈ rows

theorem Reported.mono {more : List EntryReport} (reported : t.Reported rows p)
    (subset : ∀ row ∈ rows, row ∈ more) : t.Reported more p := by
  obtain ⟨member, outcome, success, line⟩ := reported
  exact ⟨member, outcome, success, subset _ line⟩

def Lined (t : Terrain) (rows : List EntryReport) (id revision : String) (destination : Destination) :
    Prop :=
  ∃ p, t.Reported rows p ∧ id = p.pin.id ∧ revision = p.pin.revision ∧ destination = p.destination

theorem Lined.mono {more : List EntryReport} {revision : String}
    (lined : t.Lined rows id revision destination) (subset : ∀ row ∈ rows, row ∈ more) :
    t.Lined more id revision destination := by
  obtain ⟨p, reported, same⟩ := lined
  exact ⟨p, reported.mono subset, same⟩

def Fetched (t : Terrain) (rows : List EntryReport) (q : DiskPath) (node : Node) : Prop :=
  ∃ p new below, t.Reported rows p ∧ t.stock p new ∧ Site.Marked (jobOf t.root p) new ∧
    q = t.top ++ (p.destination.names ++ below) ∧ new below = some node

/-- What stands outside the program's own directory stays when a pin is handled, but for the content
that was replaced. -/
theorem Handled.spares (handled : t.Handled adopt p d e outcome) (orderly : t.Orderly d)
    (surveyed : t.Surveyed) (member : p ∈ t.pins) (outside : ¬ t.top ++ [stateDirectory] <+: q)
    (away : outcome.isFailure = false → ¬ t.top ++ p.destination.names <+: q) :
    e.look q = d.look q ∨ (d.look q = none ∧ e.look q = some .dir) := by
  have ready := orderly.ready surveyed member
  have beside : ¬ t.top ++ p.destination.names <+: q →
      e.look q = d.look q ∨ (d.look q = none ∧ e.look q = some .dir) := fun away => by
    rcases (handled.near orderly.sound).beside ready outside away with same | ⟨free, made, -⟩
    · exact .inl same
    · exact .inr ⟨free, made⟩
  cases handled with
  | current same => exact .inl (by rw [same])
  | failed quiet =>
    by_cases under : t.top ++ p.destination.names <+: q
    · obtain ⟨rest, rfl⟩ := under
      exact .inl (quiet.old rest)
    · exact beside under
  | renewed success => exact beside (away success)

theorem Handled.sourced (handled : t.Handled adopt p d e outcome) (orderly : t.Orderly d)
    (surveyed : t.Surveyed) (member : p ∈ t.pins)
    (sourced : Sourced t.top (fun q node => brought q node ∨ t.Fetched rows q node) d) :
    Sourced t.top (fun q node =>
      brought q node ∨ t.Fetched (rows ++ [entryReport p outcome]) q node) e := by
  have earlier : Sourced t.top (fun q node =>
      brought q node ∨ t.Fetched (rows ++ [entryReport p outcome]) q node) d := by
    refine sourced.mono fun q node => Or.imp_right ?_
    rintro ⟨p, new, below, reported, rest⟩
    exact ⟨p, new, below, reported.mono fun row => List.mem_append_left _, rest⟩
  intro q node inside outside stands other
  have near := (handled.near orderly.sound).opened
  cases handled with
  | current same => exact earlier q node inside outside (same ▸ stands) other
  | failed quiet =>
    rcases (Shows.old quiet.old).origin near (orderly.ready surveyed member) outside stands with
      old | dir | ⟨new, below, marked, stocked, place, fresh⟩
    · exact earlier q node inside outside old other
    · exact absurd dir other
    · rw [place] at stands
      exact earlier q node inside outside (place ▸ (quiet.old below).symm.trans stands) other
  | renewed success renewal =>
    rcases renewal.shows.origin near (orderly.ready surveyed member) outside stands with
      old | dir | ⟨new, below, marked, stocked, place, fresh⟩
    · exact earlier q node inside outside old other
    · exact absurd dir other
    · rw [Site.destination, List.append_assoc] at place
      exact .inr ⟨p, new, below, ⟨member, outcome, success, by simp⟩, stocked, marked, place, fresh⟩

theorem Handled.filed (handled : t.Handled adopt p d e outcome) (orderly : t.Orderly d)
    (surveyed : t.Surveyed) (member : p ∈ t.pins) (named : markerFile ∉ p.destination.names)
    (filed : Filed t.top (fun id revision destination =>
      puts id revision destination ∨ t.Lined rows id revision destination) d) :
    Filed t.top (fun id revision destination => puts id revision destination ∨
      t.Lined (rows ++ [entryReport p outcome]) id revision destination) e := by
  have earlier : Filed t.top (fun id revision destination => puts id revision destination ∨
      t.Lined (rows ++ [entryReport p outcome]) id revision destination) d :=
    filed.mono fun _ _ _ => Or.imp_right fun lined => lined.mono fun _ => List.mem_append_left _
  intro q node inside outside stands other
  by_cases new : outcome.isFailure = false ∧ t.top ++ p.destination.names <+: q
  · cases handled with
    | current same => exact same ▸ earlier q node inside outside (same ▸ stands) other
    | failed => cases new.1
    | renewed success renewal =>
      obtain ⟨clock, file⟩ := marker_new surveyed member renewal.marked renewal.done.each
        renewal.done.content
      exact ⟨p.pin.id, p.pin.revision, p.destination,
        .inr ⟨p, ⟨member, outcome, success, by simp⟩, rfl, rfl, rfl⟩, new.2,
        Disk.certifies_written (by decide) file⟩
  have away := not_and.mp new
  have stood : d.look q = some node := by
    rcases handled.spares orderly surveyed member outside away with same | ⟨-, made⟩
    · exact same.symm.trans stands
    · exact absurd (Option.some.inj (stands.symm.trans made)) other
  obtain ⟨id, revision, destination, put, under, certifies⟩ :=
    earlier q node inside outside stood other
  refine ⟨id, revision, destination, put, under, certifies.congr ?_⟩
  have beside : outcome.isFailure = false →
      ¬ t.top ++ p.destination.names <+: t.top ++ destination.names ++ [markerFile] := by
    intro success inner
    rw [List.append_assoc, List.prefix_append_right_inj] at inner
    rcases List.prefix_concat_iff.mp inner with whole | above
    · exact named (by simp [whole])
    · exact away success (((List.prefix_append_right_inj t.top).mpr above).trans under)
  have unhoused : ¬ t.top ++ [stateDirectory] <+: t.top ++ destination.names ++ [markerFile] := by
    rw [List.append_assoc]
    exact Layout.outside destination [markerFile]
  rcases handled.spares orderly surveyed member unhoused beside with same | ⟨free, -⟩
  · exact same
  · exact absurd free certifies.stands

/-- Between two pins of a run: the lines are about its pins, and all that stands is accounted for by
them or by earlier runs. -/
structure Inventory (t : Terrain) (all : List Destination) (brought : DiskPath → Node → Prop)
    (puts : String → String → Destination → Prop) (record : Option Node) (rows : List EntryReport)
    (d : Disk) : Prop where
  lines : ∀ row ∈ rows, ∃ p ∈ t.pins, ∃ outcome, row = entryReport p outcome
  clear : ∀ destination ∈ all, d.Clear t.top destination.names
  record : d.look (t.own "state.toml") = record
  sourced : Sourced t.top (fun q node => brought q node ∨ t.Fetched rows q node) d
  filed : (∀ destination ∈ all, markerFile ∉ destination.names) →
    Filed t.top (fun id revision destination =>
      puts id revision destination ∨ t.Lined rows id revision destination) d

theorem carries_inventory {all : List Destination} {record : Option Node} (surveyed : t.Surveyed)
    (avoids : ∀ p ∈ t.pins, ∀ destination ∈ all, t.Avoids p destination)
    (known : ∀ p ∈ t.pins, p.destination ∈ all) : t.Carries adopt (fun _ => True)
      fun _ => t.Inventory all brought puts record where
  furnished _ _ _ := trivial
  during _ _ _ _ := trivial
  handled := by
    intro p left rows d e outcome member orderly _ inventory handled
    refine ⟨fun row listed => ?_, fun destination listed => ?_, ?_, ?_, fun named => ?_⟩
    · rcases List.mem_append.mp listed with earlier | last
      · exact inventory.lines row earlier
      · exact ⟨p, member, outcome, List.mem_singleton.mp last⟩
    · exact handled.clear orderly surveyed member (avoids p member destination listed)
        (inventory.clear destination listed)
    · exact (handled.record orderly surveyed member).trans inventory.record
    · exact handled.sourced orderly surveyed member inventory.sourced
    · exact handled.filed orderly surveyed member (named _ (known p member)) (inventory.filed named)

end Terrain

theorem recorded_all {holds : StateRecord → Prop}
    (before : ∀ id record, state.get? id = some record → holds record)
    (lines : ∀ row ∈ report.entries, ∀ pin : Pin, holds ⟨row.destination, pin.revision, pin.locator⟩) :
    ∀ id record, (recorded table report state).get? id = some record → holds record := by
  change ∀ id record, ((report.entries.filter _).foldl (recordEntry table) state).get? id
    = some record → holds record
  have kept : ∀ row ∈ report.entries.filter (!·.outcome.isFailure), _ := fun row member =>
    lines row (List.mem_filter.mp member).1
  generalize report.entries.filter (!·.outcome.isFailure) = entries at kept ⊢
  induction entries generalizing state with
  | nil => exact before
  | cons entry rest ih =>
    refine ih (fun id record found => ?_) fun row member => kept row (List.mem_cons_of_mem _ member)
    unfold recordEntry at found
    split at found
    · rename_i pin _
      rw [RunState.get?_insert] at found
      split at found
      · cases found
        exact kept entry List.mem_cons_self pin
      · exact before id record found
    · exact before id record found

theorem recordEntry_grows {entry : EntryReport} (held : (state.get? id).isSome) :
    ((recordEntry table state entry).get? id).isSome := by
  unfold recordEntry
  split
  · rw [RunState.get?_insert]
    split
    · rfl
    · exact held
  · exact held

theorem foldl_recordEntry_grows {entries : List EntryReport} (held : (state.get? id).isSome) :
    ((entries.foldl (recordEntry table) state).get? id).isSome := by
  induction entries generalizing state with
  | nil => exact held
  | cons entry rest ih => exact ih (recordEntry_grows held)

theorem recorded_grows (held : (state.get? id).isSome) :
    ((recorded table report state).get? id).isSome := foldl_recordEntry_grows held

theorem recorded_stands {row : EntryReport} {pin : Pin} (member : row ∈ report.entries)
    (success : row.outcome.isFailure = false) (found : table.get? row.id = some pin) :
    ((recorded table report state).get? row.id).isSome := by
  change (((report.entries.filter _).foldl (recordEntry table) state).get? row.id).isSome
  have kept : row ∈ report.entries.filter (!·.outcome.isFailure) :=
    List.mem_filter.mpr ⟨member, by simp [success]⟩
  obtain ⟨before, after, split⟩ := List.append_of_mem kept
  rw [split, List.foldl_append, List.foldl_cons]
  refine foldl_recordEntry_grows ?_
  have same : pin.id = row.id := by simpa using List.find?_some found
  simp [recordEntry, found, RunState.get?_insert, same]

def Turn.Puts (turn : Turn) (root : Location) (id revision : String) (destination : Destination) :
    Prop :=
  ∃ report, ((turn.sync root).exec turn.world).1 = .ok report ∧ ∃ row ∈ report.entries,
    row.id = id ∧ row.revision = revision ∧ row.destination = destination.text ∧
      row.outcome.isFailure = false

def Placed (root : Location) (turns : List Turn) (state : RunState) (id revision : String)
    (destination : Destination) : Prop :=
  (∃ turn ∈ turns, turn.Puts root id revision destination) ∧ (state.get? id).isSome

/-- Something came with the new content of an id that one of the runs has put in place. -/
def Brought (root : Location) (top : DiskPath) (turns : List Turn) (state : RunState) (q : DiskPath)
    (node : Node) : Prop :=
  ∃ turn ∈ turns, ∃ visit ∈ turn.visits root, ∃ new ∈ visit.brought root top,
    Placed root turns state visit.pin.pin.id visit.pin.pin.revision visit.pin.destination ∧
      Site.Marked (jobOf root visit.pin) new ∧
      ∃ below, q = top ++ (visit.pin.destination.names ++ below) ∧ new below = some node

/-- Between two runs: the ground is as a run needs it, the record names only destinations that some
table gives, and all that stands was put there by runs. -/
structure Tended (root : Location) (top : DiskPath) (turns : List Turn) (d : Disk) : Prop where
  grounds : Grounds root top (destinations turns) d
  known : ∃ state, RunState.load d root = .ok state ∧
    (∀ id record, state.get? id = some record →
      ∃ destination ∈ destinations turns, record.path = destination.text) ∧
    Sourced top (Brought root top turns state) d ∧
    ((∀ destination ∈ destinations turns, markerFile ∉ destination.names) →
      Filed top (Placed root turns state) d)

theorem Placed.recorded {revision : String} (placed : Placed root turns state id revision destination) :
    Placed root turns (recorded table report state) id revision destination :=
  ⟨placed.1, recorded_grows placed.2⟩

theorem Tended.run (fair : Series.Fair root top turns) (listed : turn ∈ turns)
    (tended : Tended root top turns d) (reports : turn.Reports root d e) :
    Tended root top turns e := by
  obtain ⟨rfl, report, reported, rfl⟩ := reports
  obtain ⟨placed, valid⟩ := Turn.valid reported
  obtain ⟨state, loaded, named, sourced, filed⟩ := tended.known
  have setting := fair.setting listed valid tended.grounds
  have supplied := fair.supplied turn listed
  cases build : Plan.build turn.world.disk root turn.table turn.backends turn.options.filter
      turn.options.adoptUnmanaged with
  | error fault =>
    obtain ⟨⟨fault, impossible⟩, -⟩ := (Setting.refused build).ends
    cases reported.symm.trans impossible
  | ok plan =>
    obtain ⟨rfl, selected, surveyed, orderly⟩ := setting.planned build (turn.visits root)
    have inTable : ∀ p ∈ plan.pins, p.toPlacedPin ∈ placed := surveyed.listed
    have given : ∀ p ∈ plan.pins, p.destination ∈ destinations turns := fun p member =>
      (gives_of_valid listed valid (inTable p member)).mem
    have avoids : ∀ p ∈ plan.pins, ∀ inner ∈ destinations turns,
        (Terrain.ofPlan top placed plan (turn.visits plan.root)).Avoids p inner := by
      rintro p - inner among new ⟨visit, member, rfl, brought⟩
      exact supplied.plain visit member new brought inner among
    have carries : (Terrain.ofPlan top placed plan (turn.visits plan.root)).Carries
        turn.options.adoptUnmanaged (fun _ => True) fun _ =>
          (Terrain.ofPlan top placed plan (turn.visits plan.root)).Inventory (destinations turns)
            (Brought plan.root top turns state) (Placed plan.root turns state)
            (turn.world.disk.look (top ++ [stateDirectory, "state.toml"])) :=
      Terrain.carries_inventory surveyed avoids given
    have concluded := (setting.sync build rfl trivial (fun _ _ => trivial) ?_ carries).ends
      report reported (fair.real turn listed)
    swap
    · intro e prepared _
      refine ⟨by simp, fun destination member r under other => ?_, prepared.record, ?_, fun free => ?_⟩
      · exact fun target link => tended.grounds.clear destination member r under other target
          ((prepared.elsewhere _ (Terrain.own_of_names under)).symm.trans link)
      · exact (sourced.mono fun _ _ => .inl).congr prepared.elsewhere
      · exact ((filed free).mono fun _ _ _ => .inl).congr prepared.elsewhere
    obtain ⟨before, _, found, saved, -⟩ := concluded.loads orderly fun holds => holds.record
    obtain rfl := Except.ok.inj (found.symm.trans loaded)
    cases concluded with
    | @intro rows between _ _ lines _ holds furnished =>
      have sorted : ∀ row, row ∈ report.entries ↔ row ∈ rows := fun row =>
        lines ▸ (List.mergeSort_perm rows _).mem_iff
      have put : ∀ p, (Terrain.ofPlan top placed plan (turn.visits plan.root)).Reported rows p →
          Placed plan.root turns (recorded turn.table report before) p.pin.id p.pin.revision
            p.destination := by
        rintro p ⟨member, outcome, success, line⟩
        refine ⟨⟨turn, listed, report, reported, _, (sorted _).mpr line, rfl, rfl, rfl, success⟩, ?_⟩
        exact recorded_stands ((sorted _).mpr line) success
          (PinTable.get?_of_valid valid (inTable p member))
      refine ⟨{ furnished.orderly.toGrounds with clear := ?_ }, _, saved, ?_, ?_, fun free => ?_⟩
      · intro destination member r under other
        exact fun target link => holds.clear destination member r under other target
          ((furnished.elsewhere _ (Terrain.own_of_names under)).symm.trans link)
      · refine recorded_all named fun row member pin => ?_
        obtain ⟨p, among, outcome, rfl⟩ := holds.lines row ((sorted row).mp member)
        exact ⟨p.destination, given p among, rfl⟩
      · refine (holds.sourced.mono ?_).congr furnished.elsewhere
        rintro q node (⟨first, among, visit, toured, new, came, earlier, rest⟩ |
          ⟨p, new, below, line, ⟨visit, toured, rfl, came⟩, marked, place, fresh⟩)
        · exact ⟨first, among, visit, toured, new, came, earlier.recorded, rest⟩
        · exact ⟨turn, listed, visit, toured, new, came, put _ line, marked, below, place, fresh⟩
      · refine ((holds.filed free).mono ?_).congr furnished.elsewhere
        rintro id revision destination (earlier | ⟨p, line, rfl, rfl, rfl⟩)
        · exact earlier.recorded
        · exact put p line

theorem Tended.of_empty (sound : d.Sound) (rooted : d.Rooted root top)
    (empty : ∀ q, Disk.Inside top q → d.look q = none) : Tended root top turns d := by
  have free : ∀ names, names ≠ [] → d.look (top ++ names) = none := fun names inner =>
    empty _ (Disk.inside_append.mpr inner)
  have grounds : Grounds root top (destinations turns) d := {
    sound := sound
    rooted := rooted
    clear := fun destination _ r _ _ target => by
      by_cases here : r = []
      · simp [here, rooted.isDir]
      · simp [free r here]
    own := by simp [free]
    staging := by
      rintro q ⟨⟨rest, rfl⟩, -⟩
      rw [List.append_assoc]
      exact free _ (by simp)
    backup := fun name stands => absurd (free _ (by simp)) stands }
  have sourced : ∀ {brought}, Sourced top brought d := fun q node inside _ stands => by
    cases (empty q inside).symm.trans stands
  refine ⟨grounds, {}, ?_, ?_, sourced, fun _ => sourced⟩
  · exact RunState.load_free (grounds.orderly.straight_room (by decide)) sound (free _ (by simp))
  · intro id record found
    cases found

end PinnedTree.Sync
namespace PinnedTree.Prune

open PinnedTree.Action Sync

variable {root : Location} {top q : DiskPath} {d e : Disk} {w : World} {turns : List Turn}
  {table : PinTable} {state : RunState} {candidates : List Candidate} {id : String}
  {destination : Destination} {node : Node}

def Pending (top : DiskPath) (candidates : List Candidate) (d : Disk) (id : String)
    (destination : Destination) : Prop :=
  d.look (top ++ destination.names) = none ∨
    ⟨id, some destination⟩ ∈ candidates ∧ ∃ revision, d.Certifies (top ++ destination.names) id revision

theorem owns_of_certifies {revision : String}
    (straight : d.Straight root top destination.names) (sound : d.Sound)
    (callable : root.Callable (destination.names ++ [markerFile]))
    (certifies : d.Certifies (top ++ destination.names) id revision) :
    owns d (destination.place root) id = true := by
  have stands := certifies.stands
  have isDir := (sound.parent stands).1
  have here : root.Callable destination.names := callable.init destination.nonempty destination.plain
  obtain ⟨marker, read, same, -⟩ := certifies.read
    (straight.concat markerFile_isName (by simp [isDir])) sound callable
  exact owns_iff.mpr ⟨marker, ⟨(straight.linkStat_ok sound _).mpr ⟨here, isDir⟩, read⟩, same⟩

theorem Justified.isDir {entry : PrunedEntry} (justified : Justified root top table d entry)
    (clear : d.Clear top entry.destination.names) :
    d.look (top ++ entry.destination.names) = some .dir := by
  obtain ⟨seen, sound, rooted, part, owned⟩ := justified.owned
  obtain ⟨marker, ⟨stands, -⟩, -⟩ := owns_iff.mp owned
  have straight : seen.Straight root top entry.destination.names :=
    ⟨rooted, entry.destination.plain, entry.destination.nonempty, fun r under other =>
      part.no_link (clear r under other)⟩
  exact part.found _ _ ((straight.linkStat_ok sound _).mp stands).2

theorem Pending.thinned {other : Destination} (isDir : d.look (top ++ other.names) = some .dir)
    (pending : Pending top candidates d id destination)
    (gone : ∀ q, top ++ other.names <+: q → e.look q = none)
    (kept : ∀ q, ¬ top ++ other.names <+: q → e.look q = d.look q) :
    Pending top candidates e id destination := by
  by_cases within : top ++ other.names <+: top ++ destination.names
  · exact .inl (gone _ within)
  rcases pending with none | ⟨listed, revision, certifies⟩
  · exact .inl ((kept _ within).trans none)
  · refine .inr ⟨listed, revision, certifies.congr (kept _ fun inner => ?_)⟩
    rcases List.prefix_concat_iff.mp inner with whole | above
    · obtain ⟨content, mode, -, -, file, -⟩ := certifies
      cases (whole ▸ isDir).symm.trans file
    · exact within above

theorem handle_clears (sound : w.disk.Sound) (rooted : w.disk.Rooted root top)
    (clear : ∀ candidate ∈ candidates, ∀ other, candidate.destination = some other →
      w.disk.Clear top other.names)
    (callable : root.Callable (destination.names ++ [markerFile]))
    (unused : inUse table destination = false)
    (pending : Pending top candidates w.disk id destination) :
    (handle root table false state candidates).Ensures (fun _ => True)
      (fun r e => ∀ ended, r = .ok ended → e.look (top ++ destination.names) = none) w := by
  induction candidates generalizing state w with
  | nil =>
    rcases pending with none | ⟨listed, -⟩
    · exact ensures_pure trivial fun _ _ => none
    · cases listed
  | cons candidate rest ih =>
    have clear' := fun c member => clear c (List.mem_cons_of_mem _ member)
    obtain ⟨first, _ | other⟩ := candidate
    · refine ih sound rooted clear' (pending.imp_right fun ⟨listed, certifies⟩ => ⟨?_, certifies⟩)
      simpa using listed
    have way := clear _ List.mem_cons_self other rfl
    have straight : w.disk.Straight root top other.names :=
      ⟨rooted, other.plain, other.nonempty, way⟩
    rw [handle_some]
    refine (judge_ensures straight sound).andThen sound ?_ fun _ _ _ _ _ => by simp
    intro action w₁ sound₁ home₁ came
    have later : w₁.disk.Part w.disk ∧ w₁.disk.Rooted root top ∧
        Pending top rest w₁.disk id destination := by
      rcases came action rfl with ⟨-, same, left⟩ | ⟨-, justified, gone, kept⟩
      · rw [same]
        refine ⟨.refl _, rooted, pending.imp_right ?_⟩
        rintro ⟨listed, revision, certifies⟩
        rcases List.mem_cons.mp listed with head | listed
        · cases head
          rcases left with used | foreign
          · cases used.symm.trans unused
          · cases (owns_of_certifies straight sound callable certifies).symm.trans foreign
        · exact ⟨listed, revision, certifies⟩
      · have reaped : Reaped top [⟨first, other, .removed⟩] w.disk w₁.disk :=
          .cons_removed rfl home₁ gone kept (.none sound₁)
        refine ⟨reaped.part, reaped.rooted rooted, ?_⟩
        rcases pending.thinned (justified.isDir way) gone kept with none | ⟨listed, revision, certifies⟩
        · exact .inl none
        · rcases List.mem_cons.mp listed with head | listed
          · cases head
            exact .inl (gone _ (List.prefix_refl _))
          · exact .inr ⟨listed, revision, certifies⟩
    obtain ⟨part, rooted₁, pending₁⟩ := later
    refine (ih sound₁ rooted₁ (fun c member inner names r under beyond => ?_) pending₁).bind ?_
      (by simp)
    · exact part.no_link (clear' c member inner names r under beyond)
    · rintro ended w₂ none
      exact ensures_pure trivial fun _ _ => none ended rfl

theorem run_clears (plain : Plain root top table d) (prepared : Layout.Prepared top d w.disk)
    (loaded : RunState.load d root = .ok state)
    (callable : root.Callable (destination.names ++ [markerFile]))
    (unused : inUse table destination = false)
    (pending : Pending top (Prune.candidates state table) d id destination) :
    (run root table false).Ensures (fun _ => True)
      (fun r e => ∀ report, r = .ok report → e.look (top ++ destination.names) = none) w := by
  have sited := prepared.sited plain.sited
  have outside : ¬ top ++ [stateDirectory] <+: top ++ destination.names := by
    simpa using @Layout.outside top destination []
  unfold run
  have asked : (query (RunState.load · root)).Ensures (fun _ => True)
      (fun r e => r = .ok state ∧ e = w.disk) w :=
    ensures_query trivial ⟨(plain.load_locked prepared).trans loaded, rfl⟩
  refine asked.bind ?_ (by simp)
  rintro _ w₁ ⟨⟨⟩, same⟩
  rw [← same] at sited prepared
  have clear : ∀ candidate ∈ Prune.candidates state table, ∀ other,
      candidate.destination = some other → w₁.disk.Clear top other.names :=
    fun candidate member other names r under beyond =>
      prepared.no_link (plain.clear state loaded candidate member other names r under beyond)
  have still : Pending top (Prune.candidates state table) w₁.disk id destination := by
    rcases pending with none | ⟨listed, revision, certifies⟩
    · exact .inl ((prepared.elsewhere outside).trans none)
    · refine .inr ⟨listed, revision, certifies.congr (prepared.elsewhere ?_)⟩
      rw [List.append_assoc]
      exact Layout.outside destination [markerFile]
  have cleared : (handle root table false state (Prune.candidates state table)).Ensures
      (fun _ => True) (fun r e => ∀ ended, r = .ok ended →
        e.look (top ++ destination.names) = none) w₁ :=
    handle_clears sited.sound sited.rooted clear callable unused still
  have handled : (handle root table false state (Prune.candidates state table)).Ensures _ _ w₁ :=
    handle_ensures sited.sound sited.rooted clear
  refine (cleared.also handled).bind ?_ (by simp)
  rintro ⟨entries, left⟩ w₂ ⟨none, handled⟩
  obtain ⟨reaped, -⟩ := handled entries left rfl
  have spared : Layout.Sited root top w₂.disk :=
    ⟨reaped.sound, reaped.rooted sited.rooted, reaped.part.no_link sited.directory,
      reaped.part.no_link sited.lock, reaped.part.no_link sited.record⟩
  refine (Layout.save_ensures spared left).unwatched.bind ?_ (by simp)
  rintro ⟨⟩ w₃ ⟨housed, -⟩
  exact ensures_pure trivial fun _ _ => (housed.elsewhere _ outside).trans (none _ rfl)

theorem prune_clears (plain : Plain root top table w.disk)
    (loaded : RunState.load w.disk root = .ok state)
    (callable : root.Callable (destination.names ++ [markerFile]))
    (unused : inUse table destination = false)
    (pending : Pending top (Prune.candidates state table) w.disk id destination) :
    (prune root table false).Ensures (fun _ => True)
      (fun r e => ∀ report, r = .ok report → e.look (top ++ destination.names) = none) w := by
  unfold prune
  rw [if_neg (by simp)]
  have locked := (Layout.lock_ensures plain.sited).unwatched
  refine Layout.whileLocked_ensures (locked.mono fun r e holds _ => holds.1) plain.sited.sound ?_
  intro w₁ _ _ prepared
  exact run_clears plain prepared loaded callable unused pending

theorem Concluded.stood {report : PruneReport} (concluded : Concluded root top table d report e)
    (outside : ¬ top ++ [stateDirectory] <+: q) {node : Node} (stands : e.look q = some node) :
    d.look q = some node := by
  obtain ⟨-, prepared, reaped, saved, -, -⟩ := concluded
  rw [saved.elsewhere q outside] at stands
  exact (prepared.elsewhere outside).symm.trans (reaped.part.found q node stands)

theorem Concluded.spared {report : PruneReport} (concluded : Concluded root top table d report e)
    (outside : ¬ top ++ [stateDirectory] <+: q) (apart : ∀ entry ∈ report.entries,
      entry.action = .removed → ¬ top ++ entry.destination.names <+: q) : e.look q = d.look q := by
  obtain ⟨-, prepared, reaped, saved, -, -⟩ := concluded
  have still := reaped.kept q fun ⟨entry, member, removed, under⟩ => apart entry member removed under
  exact (saved.elsewhere q outside).trans (still.trans (prepared.elsewhere outside))

theorem Concluded.gone {report : PruneReport} {entry : PrunedEntry}
    (concluded : Concluded root top table d report e) (outside : ¬ top ++ [stateDirectory] <+: q)
    (member : entry ∈ report.entries) (removed : entry.action = .removed)
    (under : top ++ entry.destination.names <+: q) : e.look q = none := by
  obtain ⟨-, -, reaped, saved, -, -⟩ := concluded
  exact (saved.elsewhere q outside).trans (reaped.gone q ⟨entry, member, removed, under⟩)

def Forgotten (root : Location) (turns : List Turn) (state : RunState) (id revision : String)
    (destination : Destination) : Prop :=
  (∃ turn ∈ turns, turn.Puts root id revision destination) ∧
    (root.Callable (destination.names ++ [markerFile]) →
      ∃ record, state.get? id = some record ∧ record.path ≠ destination.text)

def Enclosed (root : Location) (top : DiskPath) (turns : List Turn) (place : DiskPath) (node : Node) :
    Prop :=
  ∃ turn ∈ turns, ∃ visit ∈ turn.visits root, ∃ new ∈ visit.brought root top, ∃ rest, rest ≠ [] ∧
    place = top ++ (visit.pin.destination.names ++ rest) ∧ new (rest ++ [markerFile]) = some node

theorem vouches_of_brought {place : DiskPath} {revision : String}
    (brought : Brought root top turns state (place ++ [markerFile]) node)
    (file : d.look (place ++ [markerFile]) = some node) (leaf : node ≠ .dir)
    (vouches : d.Vouches place id revision) :
    (∃ destination, place = top ++ destination.names ∧
      Placed root turns state id revision destination ∧ d.Certifies place id revision) ∨
    Enclosed root top turns place node := by
  obtain ⟨turn, listed, visit, toured, new, came, placed, marked, below, where_, fresh⟩ := brought
  rcases List.eq_nil_or_concat below with rfl | ⟨rest, last, rfl⟩
  · exact absurd (Option.some.inj (fresh.symm.trans marked.isDir)) leaf
  rw [List.concat_eq_append, ← List.append_assoc, ← List.append_assoc] at where_
  obtain ⟨here, rfl⟩ := List.append_singleton_inj.mp where_
  rw [List.append_assoc] at here
  by_cases inner : rest = []
  · subst inner
    obtain ⟨clock, marker⟩ := marked.marker
    rw [List.concat_eq_append, List.nil_append] at fresh
    cases marker.symm.trans fresh
    obtain ⟨rfl, rfl⟩ := (Disk.vouches_iff file).mp vouches
    rw [List.append_nil] at here
    exact .inl ⟨visit.pin.destination, here, placed, Disk.certifies_written (by decide) file⟩
  · rw [List.concat_eq_append] at fresh
    exact .inr ⟨turn, listed, visit, toured, new, came, rest, inner, here, fresh⟩

theorem destination_known (named : ∀ id record, state.get? id = some record →
      ∃ destination ∈ destinations turns, record.path = destination.text)
    (listed : ⟨id, some destination⟩ ∈ Prune.candidates state table) :
    destination ∈ destinations turns := by
  obtain ⟨-, record, found, placed⟩ := mem_candidates.mp listed
  obtain ⟨other, given, text⟩ := named id record found
  rw [text, PlacedPin.destinationOf, Destination.parse_text] at placed
  cases placed
  exact given

theorem plain_of_tended (tended : Tended root top turns d) : Plain root top table d := by
  obtain ⟨state, loaded, named, -⟩ := tended.known
  refine ⟨tended.grounds.orderly.sited, fun other found candidate member destination same => ?_⟩
  cases found.symm.trans loaded
  obtain ⟨id, _⟩ := candidate
  cases same
  exact tended.grounds.clear destination (destination_known named member)

section

variable {w' : World} {report : PruneReport} (plain : Plain root top ⟨[]⟩ w.disk)
  (loaded : RunState.load w.disk root = .ok state)
  (ran : (prune root ⟨[]⟩ false).exec w = (.ok report, w'))

include plain loaded ran

theorem forgotten_of_left {revision : String}
    (placed : Placed root turns state id revision destination)
    (certifies : w.disk.Certifies (top ++ destination.names) id revision)
    (left : w'.disk.look (top ++ destination.names) ≠ none) :
    Forgotten root turns state id revision destination := by
  obtain ⟨puts, held⟩ := placed
  refine ⟨puts, fun callable => ?_⟩
  obtain ⟨record, found⟩ := Option.isSome_iff_exists.mp held
  refine ⟨record, found, fun here => ?_⟩
  have placed : PlacedPin.destinationOf id record.path = .ok destination := by
    rw [here, PlacedPin.destinationOf, Destination.parse_text]
    rfl
  have cleared := (prune_clears plain loaded callable rfl
    (.inr ⟨mem_candidates.mpr ⟨rfl, record, found, placed⟩, revision, certifies⟩)).ends
  rw [ran] at cleared
  exact left (cleared report rfl)

theorem left_marker (sourced : Sourced top (Brought root top turns state) w.disk) {place : DiskPath}
    {revision : String} (inside : top <+: place) (outside : ¬ top ++ [stateDirectory] <+: place)
    (vouches : w'.disk.Vouches place id revision) :
    (∃ destination, place = top ++ destination.names ∧
      Forgotten root turns state id revision destination) ∨
    ∃ node, w'.disk.look (place ++ [markerFile]) = some node ∧
      Enclosed root top turns place node := by
  have ended := ((prune_ensures plain).keeping plain.sited.sound).ends
  rw [ran] at ended
  obtain ⟨concluded, sound', -⟩ := ended
  obtain ⟨content, mode, file⟩ := vouches.file
  have beside : ¬ top ++ [stateDirectory] <+: place ++ [markerFile] := by
    intro own
    rcases List.prefix_concat_iff.mp own with whole | above
    · exact absurd (List.append_singleton_inj.mp whole).2 (by decide)
    · exact outside above
  have stood := (concluded report rfl).stood beside file
  obtain ⟨names, rfl⟩ := inside
  have brought := sourced _ _ (by simp [Disk.Inside]) beside stood (by simp)
  rcases vouches_of_brought brought stood (by simp) (vouches.congr (stood.trans file.symm)) with
    ⟨destination, here, placed, certifies⟩ | enclosed
  · rw [here] at certifies file
    refine .inl ⟨destination, here, forgotten_of_left plain loaded ran placed certifies fun gone => ?_⟩
    cases (sound'.none_under gone (List.prefix_append _ [markerFile])).symm.trans file
  · exact .inr ⟨_, file, enclosed⟩

theorem left_file (named : ∀ id record, state.get? id = some record →
      ∃ destination ∈ destinations turns, record.path = destination.text)
    (free : ∀ destination ∈ destinations turns, markerFile ∉ destination.names)
    (filed : Filed top (Placed root turns state) w.disk) {node : Node} (inside : Disk.Inside top q)
    (outside : ¬ top ++ [stateDirectory] <+: q) (stands : w'.disk.look q = some node)
    (leaf : node ≠ .dir) :
    ∃ id revision destination, Forgotten root turns state id revision destination ∧
      top ++ destination.names <+: q ∧ w'.disk.Vouches (top ++ destination.names) id revision := by
  have ended := ((prune_ensures plain).keeping plain.sited.sound).ends
  rw [ran] at ended
  obtain ⟨concluded, sound', -⟩ := ended
  have concluded := concluded report rfl
  obtain ⟨id, revision, destination, placed, under, certifies⟩ :=
    filed q node inside outside (concluded.stood outside stands) leaf
  have left : w'.disk.look (top ++ destination.names) ≠ none := fun gone => by
    cases (sound'.none_under gone under).symm.trans stands
  refine ⟨id, revision, destination, forgotten_of_left plain loaded ran placed certifies left, under, ?_⟩
  obtain ⟨content, mode, text, marker, file, -, decoded, parsed, names⟩ := certifies
  -- what removes the marker removes the whole checkout
  refine ⟨content, mode, text, marker, (concluded.spared ?_ ?_).trans file, decoded, parsed, names⟩
  · rw [List.append_assoc]
    exact Layout.outside destination [markerFile]
  · intro entry member removed above
    rw [List.append_assoc, List.prefix_append_right_inj] at above
    rcases List.prefix_concat_iff.mp above with whole | outer
    · have listed : entry.destination ∈ destinations turns := by
        obtain ⟨found, -, -, -, listed, -⟩ := concluded
        cases found.symm.trans loaded
        exact destination_known named (listed entry member)
      exact free _ listed (by simp [whole])
    · have within := ((List.prefix_append_right_inj top).mpr outer).trans under
      cases (concluded.gone outside member removed within).symm.trans stands

end

def signed : Marker := ⟨"gone", "r1", "", "", ""⟩

/-- Puts a marker of its own into a directory of the content of one revision. -/
def signing : Backend where
  name := "fake"
  handles _ := true
  fetch request :=
    if request.revision = "r1" then Action.reporting .io do
      Action.changeOnce (·.makeDir (request.staging.below ["sub"]))
      Files.writeText (request.staging.below ["sub", markerFile]) signed.text
    else pure ()

theorem signing_housed : signing.Housed := by
  intro w request room slot asked
  have straight : w.disk.Straight request.staging (room ++ [slot]) ["sub"] := by
    refine ⟨.of_bare asked.isDir (Disk.walk_of_resolve asked.leads) ?_, by decide, by simp, ?_⟩
    · rintro q ⟨⟨rest, rfl⟩, other⟩
      exact asked.empty rest (by simpa using other)
    · intro r under other
      obtain rfl : r = [] := by simpa [List.prefix_cons_iff, other] using under
      simp [asked.isDir]
  have takes : (signing.fetch request).Takes
      (fun step => ∀ q ∈ step.touched, Disk.Inside (room ++ [slot]) q) w := by
    unfold signing
    dsimp only
    split
    case isFalse => exact .of_exec rfl
    apply Takes.reporting
    apply Takes.bind
    · apply Takes.changeOnce
      intro step made
      obtain ⟨-, fits, -, rfl⟩ := (straight.makeDir step).mp made
      exact ⟨fits, by simp [Step.touched, Disk.Inside]⟩
    intro _ w₁ made
    rw [exec_changeOnce] at made
    cases called : w.disk.makeDir (request.staging.below ["sub"]) with
    | error fault => simp [called] at made
    | ok step =>
      obtain ⟨-, fits, -, rfl⟩ := (straight.makeDir step).mp called
      simp only [called, Prod.mk.injEq, true_and] at made
      subst made
      have deeper : (w.disk.put (room ++ [slot] ++ ["sub"]) .dir).Straight request.staging
          (room ++ [slot]) (["sub"] ++ [markerFile]) :=
        (straight.put .dir).concat markerFile_isName (by simp [Disk.look_put])
      have free : (w.disk.put (room ++ [slot] ++ ["sub"]) .dir).look
          (room ++ [slot] ++ (["sub"] ++ [markerFile])) = none := by
        rw [Disk.look_put (by simp), if_neg (by simp)]
        exact asked.empty _ (by simp)
      rw [Takes, Files.writeText, Files.write, exec_change]
      cases answer : (w.perform (.makeDir (room ++ [slot] ++ ["sub"]))).disk.writeFile
          (request.staging.below ["sub", markerFile]) signed.text.toUTF8 Files.plainMode with
      | error fault => exact ⟨[], .refl rfl rfl, by simp⟩
      | ok steps =>
        obtain ⟨-, fits, -, rfl⟩ := deeper.writeFile (by rw [free]; simp) answer
        refine ⟨_, World.perform_ran _ _ ⟨fits, trivial, trivial⟩, ?_⟩
        simp [Step.touched, Disk.Inside]
  obtain ⟨steps, ran, inside⟩ := takes
  exact .of_inside ran inside

def turnAt (revision path : String) (d : Disk) : Turn :=
  ⟨⟨[⟨"gone", "fake:", revision, path⟩]⟩, {}, [signing], noObserver, { disk := d }⟩

def goneMarker (revision : String) : Node :=
  .file (Marker.text ⟨"gone", revision, "fake:", "fake", ""⟩).toUTF8 0o600

def goneState (revision path : String) : RunState :=
  (⟨[], noRecord_ordered⟩ : RunState).insert "gone" ⟨path, revision, "fake:"⟩

def signedNode : Node := .file signed.text.toUTF8 0o644

def goneNodes (state : RunState) (more : List (DiskPath × Node)) : List (DiskPath × Node) :=
  [(["root"], .dir), (["root", ".depsync"], .dir), (["root", ".depsync", "staging"], .dir),
    (["root", ".depsync", "backup"], .dir), (["root", ".depsync", "lock"], .file .empty 0o644),
    (["root", "a"], .dir), (["root", "a", "sub"], .dir),
    (["root", "a", "sub", ".depsync.json"], signedNode),
    (["root", "a", ".depsync.json"], goneMarker "r1"),
    (["root", ".depsync", "state.toml"], .file state.text.toUTF8 0o644)] ++ more

/-- A root with nothing inside, with one checkout, and after that one has moved. -/
def bareDisk : Disk := ⟨[], [(["root"], .dir)], by decide⟩

def checkedDisk : Disk := ⟨[], goneNodes (goneState "r1" "a") [], by decide +kernel⟩

def movedPaths : List DiskPath := [[], ["sub"], ["sub", markerFile], [markerFile]]

theorem turnAt_ran {revision path : String} {d e : Disk}
    (replayed : let rows := [⟨"gone", path, revision, "fake", .fetchedNew⟩]
      (replay (.ofText "root") (turnAt revision path d).table {} [signing] noObserver rows
        { disk := d }).any (fun replayed => replayed.1.map Visit.row = rows ∧
          (replayed.2.disk.home = e.home ∧ replayed.2.disk.nodes = e.nodes) ∧
          ∀ visit ∈ replayed.1, visit.Brings (.ofText "root") ["root"] movedPaths) = true) :
    (turnAt revision path d).Reports (.ofText "root") d e ∧
      ∀ visit ∈ (turnAt revision path d).visits (.ofText "root"),
        visit.Brings (.ofText "root") ["root"] movedPaths := by
  obtain ⟨w', ran, ⟨home, nodes⟩, brings⟩ := exec_sync (P := fun visits w' =>
    (w'.disk.home = e.home ∧ w'.disk.nodes = e.nodes) ∧
      ∀ visit ∈ visits, visit.Brings (.ofText "root") ["root"] movedPaths)
    (by decide) rfl replayed (.refl _) (by simp)
  exact ⟨⟨rfl, _, congrArg Prod.fst ran, (congrArg (·.2.disk) ran).trans
    (Disk.eq_of_nodes home nodes)⟩, brings⟩

theorem firstTurn_ran : (turnAt "r1" "a" bareDisk).Reports (.ofText "root") bareDisk checkedDisk ∧
    ∀ visit ∈ (turnAt "r1" "a" bareDisk).visits (.ofText "root"),
      visit.Brings (.ofText "root") ["root"] movedPaths := by
  apply turnAt_ran
  decide +kernel

def movedDisk : Disk :=
  ⟨[], goneNodes (goneState "r2" "b") [(["root", "b"], .dir),
    (["root", "b", ".depsync.json"], goneMarker "r2")], by decide +kernel⟩

theorem lastTurn_ran : (turnAt "r2" "b" checkedDisk).Reports (.ofText "root") checkedDisk movedDisk ∧
    ∀ visit ∈ (turnAt "r2" "b" checkedDisk).visits (.ofText "root"),
      visit.Brings (.ofText "root") ["root"] movedPaths := by
  apply turnAt_ran
  decide +kernel

def movedTurns : List Turn := [turnAt "r1" "a" bareDisk, turnAt "r2" "b" checkedDisk]

theorem movedTurns_series :
    Series (Turn.Reports (.ofText "root")) movedTurns bareDisk movedDisk :=
  .turn firstTurn_ran.1 (.turn lastTurn_ran.1 (.done movedDisk))

theorem movedTurns_fair : Series.Fair (.ofText "root") ["root"] movedTurns := by
  have housed : ∀ backend ∈ [signing], backend.Housed := by
    simp [signing_housed]
  refine ⟨by decide, ?_, ?_⟩
  · intro turn listed
    simp only [movedTurns, List.mem_cons, List.not_mem_nil, or_false] at listed
    rcases listed with rfl | rfl <;> exact fun _ _ => ⟨rfl, rfl⟩
  · intro turn listed
    simp only [movedTurns, List.mem_cons, List.not_mem_nil, or_false] at listed
    rcases listed with rfl | rfl
    · exact .of_brings housed firstTurn_ran.2
    · exact .of_brings housed lastTurn_ran.2

def movedReport : PruneReport :=
  ⟨false, [⟨"gone", otherDestination, .removed⟩]⟩

theorem moved_pruned : (emptied "root" movedDisk).1 = .ok movedReport ∧
    (emptied "root" movedDisk).2.disk.look ["root", "a", markerFile] = some (goneMarker "r1") ∧
    (emptied "root" movedDisk).2.disk.look ["root", "a", "sub", markerFile] = some signedNode := by
  decide +kernel

/-- The disk after runs with one table after the other, if each ends with a report. -/
def ranAll (root : String) (backend : Backend) : List PinTable → Disk → Option Disk
  | [], d => some d
  | table :: rest, d =>
    match (sync (.ofText root) table {} [backend] noObserver).exec { disk := d } with
    | (.ok _, w) => ranAll root backend rest w.disk
    | (.error _, _) => none

/-- What is left in the place of a marker when a run with the empty table follows and ends with a
report. -/
def leftAt (root : String) (backend : Backend) (tables : List PinTable) (place : DiskPath) :
    Option Node :=
  (ranAll root backend tables bareDisk).bind fun d =>
    match emptied root d with
    | (.ok _, w) => w.disk.look (place ++ [markerFile])
    | (.error _, _) => none

def listing (id revision path : String) : PinTable := ⟨[⟨id, "fake:", revision, path⟩]⟩

def scattering : Backend where
  name := "fake"
  handles _ := true
  fetch _ := Action.reporting .io do
    Files.makeDirs (.ofText "root/x")
    Files.writeText (Location.ofText "root/x" / markerFile) signed.text

theorem scattered_left : leftAt "root" scattering [listing "gone" "r1" "a"] ["root", "x"]
    = some signedNode := by
  decide +kernel

theorem unrecorded_left : leftAt "root/x/.." signing
    [listing "gone" "r2" "c", listing "other" "r2" "x"] ["root", "c"] = some (goneMarker "r2") := by
  decide +kernel

end PinnedTree.Prune
