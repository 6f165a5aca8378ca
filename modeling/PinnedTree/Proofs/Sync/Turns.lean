import PinnedTree.Proofs.Sync.Pinning
import PinnedTree.Prune

namespace PinnedTree

theorem Disk.eq_of_nodes {d e : Disk} (home : d.home = e.home) (nodes : d.nodes = e.nodes) :
    d = e := by
  cases d
  cases e
  cases home
  cases nodes
  rfl

namespace Sync

open PinnedTree.Action Transaction

structure Turn where
  table : PinTable
  options : SyncOptions
  backends : List Backend
  observer : Observer
  world : World

namespace Turn

def sync (turn : Turn) (root : Location) : Action SyncError SyncReport :=
  PinnedTree.sync root turn.table turn.options turn.backends turn.observer

def visits (turn : Turn) (root : Location) : List Visit :=
  journey root turn.table turn.options turn.backends turn.observer turn.world

def chosen (turn : Turn) : List PlacedPin :=
  match turn.table.validate turn.backends with
  | .ok placed => placed.filter (Plan.selects turn.options.filter)
  | .error _ => []

theorem chosen_of_valid {turn : Turn} {placed : List PlacedPin}
    (valid : turn.table.validate turn.backends = .ok placed) :
    turn.chosen = placed.filter (Plan.selects turn.options.filter) := by
  rw [chosen, valid]

def Reports (root : Location) (turn : Turn) (d e : Disk) : Prop :=
  turn.world.disk = d ∧ ∃ report, ((turn.sync root).exec turn.world).1 = .ok report ∧
    ((turn.sync root).exec turn.world).2.disk = e

end Turn

inductive Series (leads : Turn → Disk → Disk → Prop) : List Turn → Disk → Disk → Prop
  | done (d : Disk) : Series leads [] d d
  | turn {turn : Turn} {turns : List Turn} {d e f : Disk} (first : leads turn d e)
    (rest : Series leads turns e f) : Series leads (turn :: turns) d f

theorem Series.keeps {leads : Turn → Disk → Disk → Prop} {turns : List Turn} {d e : Disk}
    {P : Disk → Prop} (series : Series leads turns d e) (start : P d)
    (step : ∀ turn ∈ turns, ∀ d e, P d → leads turn d e → P e) : P e := by
  induction series with
  | done => exact start
  | turn first rest ih =>
    exact ih (step _ List.mem_cons_self _ _ start first)
      fun turn later => step turn (List.mem_cons_of_mem _ later)

def Gives (turns : List Turn) (id : String) (destination : Destination) : Prop :=
  ∃ turn ∈ turns, ∃ pin ∈ turn.table.pins, pin.id = id ∧
    PlacedPin.destinationOf pin.id pin.destination = .ok destination

def destinations (turns : List Turn) : List Destination :=
  turns.flatMap fun turn => Prune.live turn.table

variable {root : Location} {top : DiskPath} {all few : List Destination} {d e : Disk}
  {turns : List Turn} {turn : Turn} {placed : List PlacedPin} {p : PlacedPin}
  {destination : Destination} {id : String}

theorem Gives.mem (given : Gives turns id destination) : destination ∈ destinations turns := by
  obtain ⟨turn, listed, pin, member, -, placed⟩ := given
  refine List.mem_flatMap.mpr ⟨turn, listed, List.mem_filterMap.mpr ⟨pin, member, ?_⟩⟩
  rw [placed]
  rfl

theorem gives_of_valid (listed : turn ∈ turns)
    (valid : turn.table.validate turn.backends = .ok placed) (member : p ∈ placed) :
    Gives turns p.pin.id p.destination := by
  obtain ⟨-, pins⟩ := PinTable.validate_ok valid
  exact ⟨turn, listed, p.pin, pins ▸ List.mem_map_of_mem member, rfl,
    PinTable.destinationOf_of_valid valid member⟩

theorem Turn.valid {w : World} {report : SyncReport}
    (reported : ((turn.sync root).exec w).1 = .ok report) :
    ∃ placed, turn.table.validate turn.backends = .ok placed := by
  cases valid : turn.table.validate turn.backends with
  | ok placed => exact ⟨placed, rfl⟩
  | error fault =>
    have refused : Plan.build w.disk root turn.table turn.backends turn.options.filter
        turn.options.adoptUnmanaged = .error fault := by
      rw [Plan.build, valid]
      rfl
    unfold Turn.sync PinnedTree.sync at reported
    by_cases idle : turn.options.parallelism = 0
    · rw [if_pos idle] at reported
      cases reported
    · rw [if_neg idle, exec_bind, exec_reporting, exec_query, refused] at reported
      cases reported

namespace Terrain

variable {t : Terrain} {p : PlannedPin} {adopt : Bool} {outcome : Outcome}

theorem Handled.clear (handled : t.Handled adopt p d e outcome) (orderly : t.Orderly d)
    (surveyed : t.Surveyed) (member : p ∈ t.pins) (avoids : t.Avoids p destination)
    (clear : d.Clear t.top destination.names) : e.Clear t.top destination.names := by
  intro r under other
  exact handled.shows.no_link (handled.near orderly.sound).opened
    (orderly.ready surveyed member) avoids under (clear r under other)

end Terrain

/-- What runs on one root share: they are no dry ones, are only looked on at, and what backends do for
one of them does not get in the way of the destinations of any. -/
structure Series.Fair (root : Location) (top : DiskPath) (turns : List Turn) : Prop where
  real : ∀ turn ∈ turns, turn.options.dryRun = false
  passive : ∀ turn ∈ turns, turn.observer.Passive
  supplied : ∀ turn ∈ turns, Supplied root top (destinations turns) (turn.visits root)

theorem Supplied.mono {visits : List Visit} (supplied : Supplied root top all visits)
    (among : ∀ inner ∈ few, inner ∈ all) : Supplied root top few visits :=
  { supplied with plain := fun visit member new brought inner listed =>
      supplied.plain visit member new brought inner (among inner listed) }

theorem Grounds.mono (grounds : Grounds root top all d) (among : ∀ inner ∈ few, inner ∈ all) :
    Grounds root top few d :=
  { grounds with clear := fun destination listed => grounds.clear destination (among _ listed) }

theorem Grounds.orderly (grounds : Grounds root top all d) :
    (⟨root, top, [], [], fun _ _ => False⟩ : Terrain).Orderly d :=
  ⟨grounds.mono (by simp [Terrain.all]), by simp⟩

theorem Series.Fair.setting (fair : Series.Fair root top turns) (listed : turn ∈ turns)
    (valid : turn.table.validate turn.backends = .ok placed)
    (grounds : Grounds root top (destinations turns) turn.world.disk) :
    Setting root turn.table turn.options turn.backends turn.observer top placed turn.world := by
  have among : ∀ inner ∈ placed.map (·.destination), inner ∈ destinations turns := by
    intro inner member
    obtain ⟨p, there, rfl⟩ := List.mem_map.mp member
    exact (gives_of_valid listed valid there).mem
  exact ⟨valid, grounds.mono among, (fair.supplied turn listed).mono among,
    fair.passive turn listed⟩

end Sync

end PinnedTree
