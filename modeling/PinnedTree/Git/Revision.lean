import PinnedTree.Git.Repository

namespace PinnedTree.Git

inductive Start
  | named (name : String)
  | current (name : String)
  | anyMessage (pattern : String)
deriving DecidableEq, Repr

inductive Turn
  | parent (n : Nat)
  | ancestor (n : Nat)
  | kind (kind : Kind)
  | noTag
  | message (pattern : String)
deriving DecidableEq, Repr

structure Revision where
  start : Start
  turns : List Turn
deriving DecidableEq, Repr

namespace Revision

def takeName : List Char → List Char × List Char
  | [] => ([], [])
  | c :: rest =>
    if c = '^' || c = '~' || c = ':' || (c = '@' && rest.head? = some '\x7b') then ([], c :: rest)
    else
      let (name, rest) := takeName rest
      (c :: name, rest)

def takeBraced (text : List Char) : Option (String × List Char) :=
  if '\x7d' ∈ text then
    some (String.ofList (text.takeWhile (· ≠ '\x7d')), (text.dropWhile (· ≠ '\x7d')).drop 1)
  else none

def maxCount : Nat := 2147483647

def takeCount (text : List Char) : Option (Nat × List Char) :=
  let digits := text.takeWhile Char.isDigit
  let count := digits.foldl (fun n c => 10 * n + (c.toNat - '0'.toNat)) 0
  if maxCount < count then none
  else some (if digits.isEmpty then 1 else count, text.dropWhile Char.isDigit)

def bracedTurn? (text : String) : Option Turn :=
  if text.isEmpty then some .noTag
  else match Text.dropStart? text "/" with
    | some pattern => some (.message pattern)
    | none => (Kind.ofWord? text).map .kind

def turns? : Nat → List Char → Option (List Turn)
  | _, [] => some []
  | 0, _ => none
  | fuel + 1, '~' :: rest => do
    let (n, rest) ← takeCount rest
    return .ancestor n :: (← turns? fuel rest)
  | fuel + 1, '^' :: '\x7b' :: rest => do
    let (text, rest) ← takeBraced rest
    return (← bracedTurn? text) :: (← turns? fuel rest)
  | fuel + 1, '^' :: rest => do
    let (n, rest) ← takeCount rest
    return .parent n :: (← turns? fuel rest)
  | _, _ => none

def isNow (text : String) : Bool := !text.isEmpty && text.toList.all (· = '0')

def parse (text : String) : Option Revision :=
  if text = "@" then some ⟨.named RefName.head, []⟩
  else
    let (name, rest) := takeName text.toList
    match rest with
    | '@' :: '\x7b' :: rest => do
      let (moment, rest) ← takeBraced rest
      if !isNow moment then none
      return ⟨.current (String.ofList name), ← turns? rest.length rest⟩
    | ':' :: '/' :: pattern =>
      if name.isEmpty then some ⟨.anyMessage (String.ofList pattern), []⟩ else none
    | _ =>
      if name.isEmpty then none
      else (turns? rest.length rest).map fun turns => ⟨.named (String.ofList name), turns⟩

end Revision

namespace Repository

def firstRef (r : Repository) : List String → Except Fault ObjectId
  | [] => .error .missing
  | name :: others =>
    if RefName.isValid name then
      match r.target name with
      | .error .missing => firstRef r others
      | result => result
    else if others.isEmpty then .error .faulty
    else firstRef r others

/-- The id that a reference with a short name gives; without a name it is what is checked out. -/
def shortRef (r : Repository) (name : String) : Except Fault ObjectId :=
  if name.isEmpty then r.target RefName.head else r.firstRef (RefName.expansions name)

def minDigits : Nat := 4

def abbreviated (r : Repository) (text : String) : Except Fault ObjectId :=
  let letters := text.toList
  if !letters.all Text.isHexDigit || ObjectId.digits < letters.length then .error .missing
  else if letters.length < minDigits then .error .faulty
  else match (r.objects.map (·.1)).filter fun id => Text.startsWith id.hex text.toLower with
    | [] => .error .missing
    | [id] => .ok id
    | _ => .error .faulty

def describedDigits? (text : String) : Option String :=
  let cut := (List.range text.toList.length).find? fun n =>
    ['-', 'g'].isPrefixOf (text.toList.drop n)
  cut.bind fun n =>
    let digits := text.toList.drop (n + 2)
    let front := (text.toList.take n).reverse
    match front.takeWhile Char.isDigit, front.dropWhile Char.isDigit with
    | _ :: _, '-' :: _ :: _ => if digits.isEmpty then none else some (String.ofList digits)
    | _, _ => none

def described (r : Repository) (text : String) : Except Fault ObjectId :=
  match describedDigits? text with
  | none => .error .missing
  | some digits => r.abbreviated digits

def orIfMissing (first : Except Fault ObjectId) (second : Except Fault ObjectId) :
    Except Fault ObjectId :=
  match first with
  | .error .missing => second
  | result => result

def objectOf (r : Repository) (id : ObjectId) : Except Fault ObjectId :=
  if r.holds id then .ok id else .error .missing

/-- The object that a name stands for: an id in full, a reference, the beginning of an id, or a
description. -/
def named (r : Repository) (name : String) : Except Fault ObjectId :=
  let full := match ObjectId.ofText? name with
    | some id => r.objectOf id
    | none => .error .missing
  orIfMissing full <|
    match r.shortRef name with
    | .ok id => r.objectOf id
    | .error .faulty => .error .faulty
    | .error .missing =>
      let short := if name.toList.length < ObjectId.digits then r.abbreviated name
        else .error .missing
      orIfMissing short (r.described name)

abbrev Dated := ObjectId × Commit

def insertDated (new : Dated) : List Dated → List Dated
  | [] => [new]
  | next :: rest =>
    if new.2.time ≤ next.2.time then next :: insertDated new rest else new :: next :: rest

def history (r : Repository) : Nat → List Dated → List ObjectId → List Dated
  | _, [], _ => []
  | 0, _, _ => []
  | fuel + 1, next :: waiting, seen =>
    let parents := (next.2.parents.filter fun id => decide (id ∉ seen)).eraseDups
    let found := parents.filterMap fun id => (r.commit? id).map fun commit => (id, commit)
    next :: history r fuel (found.foldl (fun queue entry => insertDated entry queue) waiting)
      (seen ++ parents)

def searched (r : Repository) (pattern : String) (roots : List ObjectId) : Except Fault ObjectId :=
  let commits := roots.eraseDups.filterMap fun id => (r.commit? id).map fun commit => (id, commit)
  let queue := commits.foldl (fun queue entry => insertDated entry queue) []
  let found := (r.history (r.objects.length + 1) queue roots.eraseDups).find? fun entry =>
    Text.occurs pattern.toList entry.2.message.toList
  match pattern.isEmpty, found with
  | false, some entry => .ok entry.1
  | true, _ => .error .faulty
  | _, none => .error .missing

def refNames (r : Repository) : List String :=
  ((r.refs.map (·.1)).filter fun name => Text.startsWith name "refs/").mergeSort (· ≤ ·)

def tips (r : Repository) : List ObjectId :=
  r.refNames.filterMap fun name => (do r.peel .commit (← r.target name)).toOption

def begin (r : Repository) : Start → Except Fault ObjectId
  | .named name => r.named name
  | .current name => do r.objectOf (← r.shortRef name)
  | .anyMessage pattern => r.searched pattern r.tips

/-- The first parent of a commit, that one's first parent, and so on, so many times. -/
def ancestor (r : Repository) : Nat → ObjectId → Except Fault ObjectId
  | 0, id => .ok id
  | n + 1, id =>
    match (r.commit? id).bind (·.parents.head?) with
    | some parent => ancestor r n parent
    | none => .error .missing

def turn (r : Repository) (id : ObjectId) : Turn → Except Fault ObjectId
  | .parent n => do
    let id ← r.peel .commit id
    match n with
    | 0 => return id
    | n + 1 => match (r.commit? id).bind (·.parents[n]?) with
      | some parent => r.objectOf parent
      | none => .error .missing
  | .ancestor n => do r.ancestor n (← r.peel .commit id)
  | .kind kind => r.peel kind id
  | .noTag => r.unwrap id
  | .message pattern => r.searched pattern [id]

def evaluate (r : Repository) (revision : Revision) : Except Fault ObjectId := do
  revision.turns.foldlM r.turn (← r.begin revision.start)

def commitNamed (r : Repository) (text : String) : Except Fault ObjectId :=
  match Revision.parse text with
  | none => .error .faulty
  | some revision => do r.peel .commit (← r.evaluate revision)

/-- The commit that a pin's revision means: as it stands, as a tag, or as a branch of the remote. -/
def resolve (r : Repository) (revision : String) : Option ObjectId :=
  [revision, RefName.tags ++ revision, RefName.remoteBranches ++ revision].findSome? fun text =>
    (r.commitNamed text).toOption

end Repository

end PinnedTree.Git
