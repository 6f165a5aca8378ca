import PinnedTree.Proofs.Sync.Turns

namespace PinnedTree.Sync

open PinnedTree.Action Transaction

def Turn.placed (turn : Turn) : List PlacedPin :=
  match turn.table.validate turn.backends with
  | .ok placed => placed
  | .error _ => []

theorem Turn.placed_of_valid {turn : Turn} {placed : List PlacedPin}
    (valid : turn.table.validate turn.backends = .ok placed) : turn.placed = placed := by
  rw [Turn.placed, valid]

structure Past where
  path : String
  top : DiskPath
  turns : List Turn
  start : Disk

namespace Past

def root (past : Past) : Location := .ofText past.path

def destinations (past : Past) : List Destination :=
  past.turns.flatMap fun turn => turn.placed.map (·.destination)

/-- What may stand below the root: directories, what stood there at the beginning, and what a run puts
together for a pin. -/
inductive Known (past : Past) : List String → Node → Prop
  | dir (names : List String) : Known past names .dir
  | old {names : List String} {node : Node}
    (stood : past.start.look (past.top ++ names) = some node) : Known past names node
  | staged {turn : Turn} {visit : Visit} {new : DiskPath → Option Node} {below : List String}
    {node : Node} (listed : turn ∈ past.turns) (toured : visit ∈ turn.visits past.root)
    (brought : new ∈ visit.brought past.root past.top) (there : new below = some node) :
    Known past (visit.pin.destination.names ++ below) node

structure Adopted (past : Past) (turn : Turn) (p : PlacedPin) (node : Node) : Prop where
  listed : turn ∈ past.turns
  real : turn.options.dryRun = false
  adopts : turn.options.adoptUnmanaged = true
  chosen : p ∈ turn.chosen
  file : ∃ c m, node = .file c m
  known : past.Known p.destination.names node

def Spare (past : Past) (name : String) (node : Node) : Prop :=
  ∃ turn p, past.Adopted turn p node ∧ name = slotName p.pin.id

/-- Runs that are only looked on at and whose backends leave nothing changed beside the directories they
are given, on a root that has no state of an earlier run; no link is ever put on the way to a
destination or in its place. -/
structure Fair (past : Past) : Prop where
  sound : past.start.Sound
  rooted : past.start.Rooted past.root past.top
  fresh : past.start.look (past.top ++ [stateDirectory]) = none
  passive : ∀ turn ∈ past.turns, turn.observer.Passive
  tidy : ∀ turn ∈ past.turns, ∀ visit ∈ turn.visits past.root, visit.Tidy past.root past.top
  plain : ∀ destination ∈ past.destinations, ∀ r, r <+: destination.names →
    ∀ target, ¬ past.Known r (.link target)

def aside (past : Past) (name : String) : DiskPath := past.top ++ [stateDirectory, "backup", name]

/-- What stands aside: a journal, a directory that can be removed, or a file that was taken over. -/
inductive Kept (past : Past) : String → Node → Prop
  | journal {slot : String} {node : Node} (named : IsName slot) (dotless : '.' ∉ slot.toList) :
    Kept past (journalName slot) node
  | dir {name : String} (dotless : '.' ∉ name.toList)
    (callable : past.root.Callable [stateDirectory, "backup", name]) : Kept past name .dir
  | spare {name : String} {node : Node} (spare : past.Spare name node) : Kept past name node

structure Tells (past : Past) (d : Disk) (slot : String) (destination : Destination)
    (journal : Node) : Prop where
  listed : destination ∈ past.destinations
  text : ∃ id, journal
    = .file (journalText id (destination.place past.root)).toUTF8 Files.plainMode
  callable : past.root.Callable destination.names
  held : d.Holds (past.top ++ destination.names)
  known : ∀ r node, d.look (past.aside slot ++ r) = some node →
    past.Known (destination.names ++ r) node

/-- A disk that a run, wherever it was cut off, leaves for the next one to clear up. -/
structure Mendable (past : Past) (d : Disk) : Prop where
  sound : d.Sound
  rooted : d.Rooted past.root past.top
  own : ∀ names ∈ [[stateDirectory], [stateDirectory, "staging"], [stateDirectory, "backup"],
    [stateDirectory, "lock"], [stateDirectory, "state.toml"]],
    ∀ target, d.look (past.top ++ names) ≠ some (.link target)
  known : ∀ names node, ¬ past.top ++ [stateDirectory] <+: past.top ++ names →
    d.look (past.top ++ names) = some node → past.Known names node
  kept : ∀ name node, d.look (past.aside name) = some node → past.Kept name node
  noted : ∀ slot journal, d.look (past.aside (journalName slot)) = some journal →
    d.look (past.aside slot) ≠ none → ∃ destination, past.Tells d slot destination journal

/-- A disk between two pins: nothing stands aside but files that were taken over. -/
structure Rested (past : Past) (d : Disk) : Prop where
  known : ∀ names node, ¬ past.top ++ [stateDirectory] <+: past.top ++ names →
    d.look (past.top ++ names) = some node → past.Known names node
  spare : ∀ name node, d.look (past.aside name) = some node → past.Spare name node

variable {past : Past} {d e : Disk} {name slot room : String} {node : Node}
  {destination : Destination}

theorem Spare.dotless (spare : past.Spare name node) : '.' ∉ name.toList := by
  obtain ⟨_, p, -, rfl⟩ := spare
  exact notMem_slotName _ (by decide) (by decide) (by decide)

theorem Spare.file (spare : past.Spare name node) : ∃ c m, node = .file c m := by
  obtain ⟨_, _, adopted, -⟩ := spare
  exact adopted.file

theorem aside_own (past : Past) (name : String) :
    past.top ++ [stateDirectory] <+: past.aside name := by
  simp [aside, List.prefix_append_right_inj]

theorem aside_inside (past : Past) (name : String) (r : DiskPath) :
    Disk.Inside (Layout.place past.top "backup") (past.aside name ++ r) := by
  simp [Disk.Inside, Layout.place, aside, List.prefix_append_right_inj]

theorem Fair.mendable (fair : past.Fair) : past.Mendable past.start where
  sound := fair.sound
  rooted := fair.rooted
  own names listed target := by
    have under : past.top ++ [stateDirectory] <+: past.top ++ names := by
      simp only [List.mem_cons, List.not_mem_nil, or_false] at listed
      rcases listed with rfl | rfl | rfl | rfl | rfl <;> simp [List.prefix_append_right_inj]
    simp [fair.sound.none_under fair.fresh under]
  known names node _ stands := .old stands
  kept name node stands := by
    cases (fair.sound.none_under fair.fresh (past.aside_own name)).symm.trans stands
  noted slot journal stands := by
    cases (fair.sound.none_under fair.fresh (past.aside_own (journalName slot))).symm.trans stands

theorem holds_congr (held : d.Holds (past.top ++ destination.names))
    (elsewhere : ∀ q, ¬ past.top ++ [stateDirectory] <+: q → e.look q = d.look q) :
    e.Holds (past.top ++ destination.names) := by
  refine held.congr fun dir name same isDir => ?_
  rw [elsewhere dir fun own => ?_, isDir]
  have further := own.trans (List.prefix_append dir [name])
  rw [← same, ← List.append_nil destination.names] at further
  exact Layout.outside destination [] further

theorem Mendable.part (mendable : past.Mendable d) (part : e.Part d) (sound : e.Sound)
    (elsewhere : ∀ q, ¬ past.top ++ [stateDirectory] <+: q → e.look q = d.look q) :
    past.Mendable e where
  sound := sound
  rooted := (⟨sound, part.home, elsewhere⟩ : Layout.Housed past.top d e).rooted mendable.rooted
  own names listed := part.no_link (mendable.own names listed)
  known names node outside stands :=
    mendable.known names node outside ((elsewhere _ outside).symm.trans stands)
  kept name node stands := mendable.kept name node (part.found _ _ stands)
  noted slot journal stands asides := by
    obtain ⟨old, there⟩ := Option.ne_none_iff_exists'.mp asides
    obtain ⟨destination, tells⟩ := mendable.noted slot journal (part.found _ _ stands)
      (by simp [part.found _ _ there])
    exact ⟨destination, tells.listed, tells.text, tells.callable, holds_congr tells.held elsewhere,
      fun r node inner => tells.known r node (part.found _ _ inner)⟩

theorem Mendable.pruned {p : DiskPath} (mendable : past.Mendable d) (pruned : d.Pruned e p)
    (own : past.top ++ [stateDirectory] <+: p) (sound : e.Sound) (home : e.home = d.home) :
    past.Mendable e := by
  refine mendable.part ⟨home, fun q node stands => ?_⟩ sound fun q outside => ?_
  · rcases pruned q with same | ⟨-, gone⟩
    · exact same.symm.trans stands
    · cases gone.symm.trans stands
  · rcases pruned q with same | ⟨under, -⟩
    · exact same
    · exact absurd (own.trans under) outside

theorem Mendable.prepared (mendable : past.Mendable d) (prepared : Layout.Prepared past.top d e) :
    past.Mendable e := by
  have sidelined : ∀ name r, e.look (past.aside name ++ r) = d.look (past.aside name ++ r) :=
    fun name r => prepared.rooms (past.aside_inside name r)
  have bare : ∀ name, e.look (past.aside name) = d.look (past.aside name) := by
    intro name
    simpa using sidelined name []
  have elsewhere : ∀ q, ¬ past.top ++ [stateDirectory] <+: q → e.look q = d.look q :=
    fun q => prepared.elsewhere
  refine ⟨prepared.sound, prepared.housed.rooted mendable.rooted,
    fun names listed => prepared.no_link (mendable.own names listed), ?_, ?_, ?_⟩
  · intro names node outside stands
    exact mendable.known names node outside ((elsewhere _ outside).symm.trans stands)
  · intro name node stands
    exact mendable.kept name node ((bare name).symm.trans stands)
  · intro slot journal stands asides
    rw [bare] at stands asides
    obtain ⟨destination, tells⟩ := mendable.noted slot journal stands asides
    exact ⟨destination, tells.listed, tells.text, tells.callable, holds_congr tells.held elsewhere,
      fun r node inner => tells.known r node ((sidelined slot r).symm.trans inner)⟩

theorem Mendable.sited (mendable : past.Mendable d) : Layout.Sited past.root past.top d where
  sound := mendable.sound
  rooted := mendable.rooted
  directory := mendable.own _ (by simp)
  lock := mendable.own _ (by simp)
  record := mendable.own _ (by simp)

theorem Mendable.straight_own (mendable : past.Mendable d) (listed : room ∈ ["staging", "backup"])
    (named : IsName name) : d.Straight past.root past.top [stateDirectory, room, name] := by
  simp only [List.mem_cons, List.not_mem_nil, or_false] at listed
  rcases listed with rfl | rfl
  · exact (mendable.sited.straight (by decide : IsName "staging")).concat named
      (mendable.own _ (by simp))
  · exact (mendable.sited.straight (by decide : IsName "backup")).concat named
      (mendable.own _ (by simp))

theorem Mendable.straight_aside (mendable : past.Mendable d) (named : IsName name) :
    d.Straight past.root past.top [stateDirectory, "backup", name] :=
  mendable.straight_own (by simp) named

theorem Mendable.unlinked (mendable : past.Mendable d) (fair : past.Fair)
    (listed : destination ∈ past.destinations) {r : List String} (under : r <+: destination.names)
    (target : String) : d.look (past.top ++ r) ≠ some (.link target) := by
  intro link
  refine fair.plain destination listed r under target (mendable.known r _ (fun own => ?_) link)
  have further := own.trans ((List.prefix_append_right_inj past.top).mpr under)
  rw [← List.append_nil destination.names] at further
  exact Layout.outside destination [] further

theorem Mendable.straight (mendable : past.Mendable d) (fair : past.Fair)
    (listed : destination ∈ past.destinations) :
    d.Straight past.root past.top destination.names where
  rooted := mendable.rooted
  plain := destination.plain
  inner := destination.nonempty
  clear _ under _ := mendable.unlinked fair listed under

theorem Mendable.rested (mendable : past.Mendable d)
    (files : ∀ name, d.look (past.aside name) ≠ none → '.' ∉ name.toList ∧
      d.look (past.aside name) ≠ some .dir) : past.Rested d where
  known := mendable.known
  spare name node stands := by
    obtain ⟨dotless, leaf⟩ := files name (by simp [stands])
    cases mendable.kept name node stands with
    | journal => simp [journalName] at dotless
    | dir => exact absurd stands leaf
    | spare spare => exact spare

end Past

end PinnedTree.Sync
