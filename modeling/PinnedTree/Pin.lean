import PinnedTree.Locator

namespace PinnedTree

/-- A dependency held at one revision: where it comes from and where it belongs. -/
structure Pin where
  id : String
  locator : String
  revision : String
  destination : String
deriving DecidableEq, Repr

/-- The pins in the order in which the table lists them. -/
structure PinTable where
  pins : List Pin := []
deriving DecidableEq, Repr

namespace PinTable

def get? (table : PinTable) (id : String) : Option Pin := table.pins.find? (·.id = id)

/-- Whether the table lists the id. -/
def contains (table : PinTable) (id : String) : Bool := (table.get? id).isSome

end PinTable

end PinnedTree
