import PinnedTree.Path.Part
import PinnedTree.Plan.Decision
import PinnedTree.Plan.Groups
import PinnedTree.Plan.Validation
import PinnedTree.Text.Keyed

/-!
The plan of a run: which pins it is about, what has to be done for each of them, and which of them
have to be handled one after another. Making a plan only looks at the disk.
-/

namespace PinnedTree

/-- The ids a run is limited to, in order and each of them once. -/
structure IdFilter where
  ids : List String
deriving DecidableEq, Repr

namespace IdFilter

def ofList (ids : List String) : IdFilter :=
  ⟨(ids.foldl (fun found id => Text.insertKeyed id () found) []).map (·.1)⟩

def matches? (filter : IdFilter) (id : String) : Bool := filter.ids.contains id

end IdFilter

namespace Destination

/-- The destinations strictly inside one, without those inside others of them, as names below it. -/
def nestedIn (outer : Destination) (all : List Destination) : List (List String) :=
  Path.topmostInside Path.Part.name (outer.names.map .name) (all.map (·.names))

def place (destination : Destination) (root : Location) : Location :=
  root.below destination.names

end Destination

/-- A pin of a plan: what has to be done, and which destinations are nested in its own. -/
structure PlannedPin extends PlacedPin where
  action : PlannedAction
  nested : List (List String)

structure Plan where
  root : Location
  pins : List PlannedPin

namespace Plan

def groups (plan : Plan) : List (List Nat) :=
  Groups.ofDestinations (plan.pins.map (·.destination))

def checkNoLink (d : Disk) (root : Location) (pin : Pin) :
    List String → List String → Except ConfigError Unit
  | _, [] => .ok ()
  | above, name :: rest =>
    let l := root.below (above ++ [name])
    match d.linkStat l with
    | .ok (.link _) => .error (.escapesRoot pin.id pin.destination)
    | .ok _ => checkNoLink d root pin (above ++ [name]) rest
    | .error (.errno .noEntry) => .ok ()
    | .error fault => .error (.read l.text fault)

def conflictError (placed : PlacedPin) : Conflict → ConfigError
  | .pathReused owner => .pathReused placed.pin.id placed.destination.text owner
  | .unmanaged => .unmanaged placed.pin.id placed.destination.text

def ofPlaced (d : Disk) (root : Location) (all : List Destination) (adopt : Bool)
    (placed : PlacedPin) : Except ConfigError PlannedPin := do
  checkNoLink d root placed.pin [] placed.destination.names
  let nested := placed.destination.nestedIn all
  let l := placed.destination.place root
  let found ← (Inspection.ofOuter d l nested).mapError fun e => .corruptMarker l.text e.message
  let action ← (decideAction placed.pin.id placed.pin.revision found adopt).mapError
    (conflictError placed)
  return { placed with action, nested }

def checkFilter (table : PinTable) (filter : IdFilter) : Except ConfigError Unit :=
  match filter.ids.find? fun id => !table.contains id with
  | some id => .error (.unknownFilterId id)
  | none => .ok ()

def selects (filter : Option IdFilter) (placed : PlacedPin) : Bool :=
  match filter with
  | some filter => filter.matches? placed.pin.id
  | none => true

/-- The plan of a run; the whole table is checked, whatever the filter selects. -/
def build (d : Disk) (root : Location) (table : PinTable) (backends : List Backend)
    (filter : Option IdFilter) (adopt : Bool) : Except ConfigError Plan := do
  let placed ← table.validate backends
  match filter with
  | some filter => checkFilter table filter
  | none => pure ()
  let all := placed.map (·.destination)
  let pins ← (placed.filter (selects filter)).mapM (ofPlaced d root all adopt)
  return ⟨root, pins⟩

end Plan

end PinnedTree
