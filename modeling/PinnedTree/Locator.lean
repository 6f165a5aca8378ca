import PinnedTree.Text.Fields

namespace PinnedTree.Locator

def infer (id : String) : String :=
  let host := id.toList.takeWhile (· ≠ '/')
  if !Text.occurs "://".toList id.toList && id.toList.contains '/' && host.contains '.' then
    "https://" ++ id
  else id

/-- The address of a locator and what follows its first `#`. -/
def splitFragment (locator : String) : String × Option String :=
  match Text.cutFirst? '#' locator with
  | some (address, fragment) => (address, some fragment)
  | none => (locator, none)

end PinnedTree.Locator
