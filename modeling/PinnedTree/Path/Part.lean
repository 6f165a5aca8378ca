namespace PinnedTree.Path

/-- One part of a path as it is written: the top of the file system, the directory itself, the one
above, or a name. -/
inductive Part
  | top
  | here
  | up
  | name (text : String)
deriving DecidableEq, Repr

namespace Part

def kindRank : Part → Nat
  | .top => 0
  | .here => 1
  | .up => 2
  | .name _ => 3

def text : Part → String
  | .top => "/"
  | .here => "."
  | .up => ".."
  | .name text => text

def before (a b : Part) : Bool :=
  match a, b with
  | .name x, .name y => x < y
  | _, _ => a.kindRank < b.kindRank

end Part

def notAfter : List Part → List Part → Bool
  | [], _ => true
  | _ :: _, [] => false
  | a :: as, b :: bs => if a = b then notAfter as bs else a.before b

theorem notAfter_refl (path : List Part) : notAfter path path = true := by
  induction path with
  | nil => rfl
  | cons a as ih => simp [notAfter, ih]

/-- The paths strictly inside a parent, each cut down to what follows the parent, in order, without
those that lie inside an earlier one. -/
def topmostInside {α : Type} (key : α → Part) (parent : List Part) (all : List (List α)) :
    List (List α) :=
  let inside := all.filter fun path =>
    parent.isPrefixOf (path.map key) && path.map key != parent
  let sorted := inside.mergeSort fun a b => notAfter (a.map key) (b.map key)
  sorted.foldl (fun kept path =>
    let rest := path.drop parent.length
    if kept.any fun k => (k.map key).isPrefixOf (rest.map key) then kept else kept ++ [rest]) []

end PinnedTree.Path
