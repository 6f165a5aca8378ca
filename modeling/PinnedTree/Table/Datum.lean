import PinnedTree.Pin

namespace PinnedTree

/-- What a document says at one place, as far as a table of pins can tell values apart. -/
inductive Datum
  | absent
  | text (value : String)
  | list (items : List Datum)
  | fields (members : List (String × Datum))
  | other
deriving Repr

/-- A pin as it is listed: its id and its locator may be left out. -/
structure ListedPin where
  id : Option String
  revision : String
  destination : String
  locator : Option String
deriving DecidableEq, Repr

namespace ListedPin

def idNames : List String := ["id", "Id"]

def revisionNames : List String := ["version", "revision", "Version"]

def destinationNames : List String := ["path", "destination", "Path"]

def locatorNames : List String := ["locator"]

def needed? : Datum → Option String
  | .text value => some value
  | _ => none

def optional? : Datum → Option (Option String)
  | .text value => some (some value)
  | .absent => some none
  | _ => none

def giving (names : List String) (members : List (String × Datum)) : List Datum :=
  (members.filter (·.1 ∈ names)).map (·.2)

def once? (names : List String) (members : List (String × Datum)) : Option String :=
  match giving names members with
  | [given] => needed? given
  | _ => none

def atMostOnce? (names : List String) (members : List (String × Datum)) :
    Option (Option String) :=
  match giving names members with
  | [] => some none
  | [given] => optional? given
  | _ => none

def ofItems? : List Datum → Option ListedPin
  | [id, revision, destination] => do
    return ⟨← optional? id, ← needed? revision, ← needed? destination, none⟩
  | [id, revision, destination, locator] => do
    return ⟨← optional? id, ← needed? revision, ← needed? destination, ← optional? locator⟩
  | _ => none

def ofMembers? (members : List (String × Datum)) : Option ListedPin := do
  if members.all fun member =>
      member.1 ∈ idNames ++ revisionNames ++ destinationNames ++ locatorNames then
    return ⟨← atMostOnce? idNames members, ← once? revisionNames members,
      ← once? destinationNames members, ← atMostOnce? locatorNames members⟩
  else none

def ofDatum? : Datum → Option ListedPin
  | .list items => ofItems? items
  | .fields members => ofMembers? members
  | _ => none

def pin (listed : ListedPin) (id : String) : Pin where
  id := id
  locator := listed.locator.getD (Locator.infer id)
  revision := listed.revision
  destination := listed.destination

end ListedPin

inductive TableDefect
  | noForm
  | keyMismatch (key id : String)
deriving DecidableEq, Repr

namespace PinTable

def ofList (listed : List ListedPin) : PinTable :=
  ⟨listed.map fun entry => entry.pin (entry.id.getD "")⟩

def ofKeyed : List (String × ListedPin) → Except TableDefect (List Pin)
  | [] => .ok []
  | (key, listed) :: rest =>
    match listed.id with
    | some id =>
      if id = key then do return listed.pin key :: (← ofKeyed rest)
      else .error (.keyMismatch key id)
    | none => do return listed.pin key :: (← ofKeyed rest)

/-- The table a document gives: a list is tried first. -/
def ofDatum : Datum → Except TableDefect PinTable
  | .list items =>
    match items.mapM ListedPin.ofDatum? with
    | some listed => .ok (ofList listed)
    | none => .error .noForm
  | .fields members =>
    match members.mapM fun member => (ListedPin.ofDatum? member.2).map (member.1, ·) with
    | some keyed => do return ⟨← ofKeyed keyed⟩
    | none => .error .noForm
  | _ => .error .noForm

end PinTable

end PinnedTree
