import PinnedTree.Error
import PinnedTree.World

namespace PinnedTree

/-- A way of getting content: the locators it is for, and what it does to fill a directory. -/
structure Backend where
  name : String
  handles : String → Bool
  fetch : FetchRequest → Action FetchError Unit

namespace Backend

def resolve? (backends : List Backend) (locator : String) : Option Backend :=
  backends.find? (·.handles locator)

/-- Polls the token and gives up once it has been tripped. -/
def poll : Action FetchError Unit := do
  if ← Action.isCancelled then throw .cancelled

end Backend

end PinnedTree
