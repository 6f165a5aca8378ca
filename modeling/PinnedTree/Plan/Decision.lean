import PinnedTree.Marker

namespace PinnedTree

inductive PlannedAction
  | current
  | fetch
  | update (old : Option String)
deriving DecidableEq, Repr

inductive Conflict
  | pathReused (owner : String)
  | unmanaged
deriving DecidableEq, Repr

/-- Content is fetched where there is none and brought up to date where it belongs to the same pin;
content of another pin, or of nobody known, is left alone unless it may be adopted. -/
def decideAction (id revision : String) (found : Inspection) (adopt : Bool) :
    Except Conflict PlannedAction :=
  match found with
  | .missing | .empty => .ok .fetch
  | .marked marker =>
    if marker.id ≠ id then .error (.pathReused marker.id)
    else if marker.revision = revision then .ok .current
    else .ok (.update (some marker.revision))
  | .unmanaged => if adopt then .ok (.update none) else .error .unmanaged

end PinnedTree
