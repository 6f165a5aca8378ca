import PinnedTree.Git.Object
import PinnedTree.Git.RefName

/-!
Repositories: objects by their ids, and references by their names. A reference gives the id of an
object or the name of another reference.
-/

namespace PinnedTree.Git

/-- Why something asked of a repository has no answer: nothing is there, or what is there is of no
use. -/
inductive Fault
  | missing
  | faulty
deriving DecidableEq, Repr

inductive RefValue
  | direct (id : ObjectId)
  | symbolic (name : String)
deriving DecidableEq, Repr

namespace RefValue

def isGap (c : Char) : Bool := c = ' ' || ('\t' ≤ c && c ≤ '\r')

def symbolicMark : String := "ref: "

def ofText? (text : String) : Option RefValue :=
  match Text.dropStart? text symbolicMark with
  | some name =>
    let name := String.ofList (name.toList.reverse.dropWhile isGap).reverse
    if name.isEmpty then none else some (.symbolic name)
  | none =>
    let id := text.toList.take ObjectId.digits
    if (text.toList.drop ObjectId.digits).head?.all isGap then
      (ObjectId.ofText? (String.ofList id)).map .direct
    else none

end RefValue

/-- A repository; a reference is given as the text that is kept for it. -/
structure Repository where
  objects : List (ObjectId × Object) := []
  refs : List (String × String) := []

namespace Repository

def object? (r : Repository) (id : ObjectId) : Option Object := r.objects.lookup id

def holds (r : Repository) (id : ObjectId) : Bool := (r.object? id).isSome

def refValue (r : Repository) (name : String) : Except Fault RefValue :=
  match r.refs.lookup name with
  | none => .error .missing
  | some text => match RefValue.ofText? text with
    | none => .error .faulty
    | some value => .ok value

def followRef (r : Repository) : Nat → String → Except Fault ObjectId
  | 0, _ => .error .faulty
  | fuel + 1, name => do
    match ← r.refValue name with
    | .direct id => return id
    | .symbolic other => followRef r fuel other

def maxNesting : Nat := 6

def target (r : Repository) (name : String) : Except Fault ObjectId := r.followRef maxNesting name

/-- The object of a kind that an object leads to: tags lead to their targets, commits to trees. -/
def peelTo (r : Repository) (kind : Kind) : Nat → ObjectId → Except Fault ObjectId
  | 0, _ => .error .faulty
  | fuel + 1, id =>
    match r.object? id with
    | none => .error .missing
    | some object =>
      if object.kind = kind then .ok id
      else match object with
        | .tag t => peelTo r kind fuel t.target
        | .commit c => if kind = .tree && r.holds c.tree then .ok c.tree else .error .faulty
        | _ => .error .faulty

def peel (r : Repository) (kind : Kind) (id : ObjectId) : Except Fault ObjectId :=
  r.peelTo kind (r.objects.length + 1) id

def unwrapTags (r : Repository) : Nat → ObjectId → Except Fault ObjectId
  | 0, _ => .error .faulty
  | fuel + 1, id =>
    match r.object? id with
    | none => .error .missing
    | some (.tag t) => unwrapTags r fuel t.target
    | some _ => .ok id

def unwrap (r : Repository) (id : ObjectId) : Except Fault ObjectId :=
  r.unwrapTags (r.objects.length + 1) id

def commit? (r : Repository) (id : ObjectId) : Option Commit :=
  match r.object? id with
  | some (.commit c) => some c
  | _ => none

/-- The repository with a reference set to a text; one name cannot lie below another. -/
def setRef (r : Repository) (name text : String) : Option Repository :=
  let inTheWay (other : String) : Bool :=
    Text.startsWith other (name ++ "/") || Text.startsWith name (other ++ "/")
  if r.refs.any fun ref => inTheWay ref.1 then none
  else some { r with refs := (name, text) :: r.refs.filter (·.1 ≠ name) }

def pointRef (r : Repository) (name : String) (id : ObjectId) : Option Repository :=
  r.setRef name (id.hex ++ "\n")

def reach (r : Repository) : Nat → List ObjectId → List ObjectId
  | 0, seen => seen
  | rounds + 1, seen =>
    let linked := (seen.filterMap r.object?).flatMap Object.links
    let new := (linked.filter fun id => decide (id ∉ seen)).eraseDups
    if new.isEmpty then seen else reach r rounds (seen ++ new)

/-- The ids that can be reached from some. -/
def closure (r : Repository) (ids : List ObjectId) : List ObjectId :=
  r.reach (r.objects.length + 1) ids.eraseDups

end Repository

end PinnedTree.Git
