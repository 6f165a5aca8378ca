import PinnedTree.Backend
import PinnedTree.Destination
import PinnedTree.Pin

namespace PinnedTree

/-- A pin with its destination and the backend that gets its content. -/
structure PlacedPin where
  pin : Pin
  destination : Destination
  backend : Backend

namespace PlacedPin

def defectError (id raw : String) : Destination.Defect → ConfigError
  | .escapesRoot => .escapesRoot id raw
  | .empty => .emptyPath id
  | .reserved names => .reservedPath id (Text.join '/' names)

def destinationOf (id raw : String) : Except ConfigError Destination :=
  (Destination.parse raw).mapError (defectError id raw)

def ofPin (backends : List Backend) (earlier : List PlacedPin) (pin : Pin) :
    Except ConfigError PlacedPin := do
  if pin.id.isEmpty then throw .emptyId
  if earlier.any (·.pin.id = pin.id) then throw (.duplicateId pin.id)
  if pin.revision.isEmpty then throw (.emptyRevision pin.id)
  let destination ← destinationOf pin.id pin.destination
  match earlier.find? (·.destination = destination) with
  | some first => throw (.overlappingPath first.pin.id pin.id destination.text)
  | none => pure ()
  match Backend.resolve? backends pin.locator with
  | some backend => return ⟨pin, destination, backend⟩
  | none => throw (.noBackend pin.id pin.locator)

def ofPins (backends : List Backend) (earlier : List PlacedPin) :
    List Pin → Except ConfigError (List PlacedPin)
  | [] => .ok earlier
  | pin :: rest => do
    let placed ← ofPin backends earlier pin
    ofPins backends (earlier ++ [placed]) rest

end PlacedPin

/-- The pins of a sound table with their destinations and backends; otherwise the first error. -/
def PinTable.validate (table : PinTable) (backends : List Backend) :
    Except ConfigError (List PlacedPin) := PlacedPin.ofPins backends [] table.pins

end PinnedTree
