import PinnedTree.Text.Fields

namespace PinnedTree

def stateDirectory : String := ".depsync"

def IsName (name : String) : Prop :=
  name ≠ "" ∧ name ≠ "." ∧ name ≠ ".." ∧ '/' ∉ name.toList

instance (name : String) : Decidable (IsName name) := by unfold IsName; infer_instance

/-- The names from the root of a checkout down to one of its trees. -/
structure Destination where
  names : List String
  nonempty : names ≠ []
  plain : ∀ name ∈ names, IsName name
  unreserved : names.head? ≠ some stateDirectory
deriving DecidableEq

namespace Destination

def text (d : Destination) : String := Text.join '/' d.names

instance : Repr Destination := ⟨fun d _ => repr d.text⟩

def within (inner outer : Destination) : Bool := outer.names.isPrefixOf inner.names

inductive Defect
  | escapesRoot
  | empty
  | reserved (names : List String)
deriving DecidableEq, Repr

def significant (raw : String) : List String :=
  (Text.split '/' raw).filter fun piece => piece ≠ "" && piece ≠ "."

theorem isName_of_significant {raw piece : String} (member : piece ∈ significant raw)
    (down : piece ≠ "..") : IsName piece := by
  simp only [significant, List.mem_filter, Text.split, List.mem_map, Bool.and_eq_true,
    decide_eq_true_eq] at member
  obtain ⟨⟨letters, field, rfl⟩, filled, moving⟩ := member
  exact ⟨filled, moving, down, by simpa using Text.notMem_of_mem_fields field⟩

/-- Reads a written path: empty pieces and `.` drop out, and nothing may climb. -/
def parse (raw : String) : Except Defect Destination :=
  if climbs : Text.startsWith raw "/" = true ∨ ".." ∈ significant raw then .error .escapesRoot
  else if empty : significant raw = [] then .error .empty
  else if reserved : (significant raw).head? = some stateDirectory then
    .error (.reserved (significant raw))
  else .ok {
    names := significant raw
    nonempty := empty
    plain := fun _ member => isName_of_significant member
      (fun same => climbs (.inr (same ▸ member)))
    unreserved := reserved }

end Destination

end PinnedTree
