import PinnedTree.Error
import PinnedTree.Git.Revision

namespace PinnedTree.Git

/-- A reference that a remote shows, with the id it gives. -/
structure Head where
  name : String
  id : ObjectId
deriving DecidableEq, Repr

namespace Head

def isBranch (head : Head) : Bool := Text.startsWith head.name RefName.branches

def isTag (head : Head) : Bool := Text.startsWith head.name RefName.tags

def localName (head : Head) : String :=
  match Text.dropStart? head.name RefName.branches with
  | some branch => RefName.remoteBranches ++ branch
  | none => head.name

/-- A head without the place where its kind is named, in quotes and behind its kind. -/
def description (head : Head) : String :=
  match Text.dropStart? head.name RefName.branches, Text.dropStart? head.name RefName.tags with
  | some branch, _ => "branch '" ++ branch ++ "'"
  | _, some tag => "tag '" ++ tag ++ "'"
  | _, _ => "'" ++ head.name ++ "'"

def fetchLine (mark url : String) (head : Head) : String :=
  head.id.hex ++ "\t" ++ mark ++ "\t" ++ head.description ++ " of " ++ url ++ "\n"

end Head

namespace Repository

/-- The heads that a reference adds to those a remote shows; a tag object shows its target too. -/
def headsOf (remote : Repository) (name : String) : Except GitError (List Head) :=
  match remote.target name with
  | .error _ => .error .invalidReference
  | .ok id =>
    let head : Head := ⟨name, id⟩
    if !head.isTag then .ok [head]
    else match remote.object? id with
      | none => .error .missingObject
      | some (.tag _) => match remote.unwrap id with
        | .error _ => .error .missingObject
        | .ok target => .ok [head, ⟨name ++ "^\x7b\x7d", target⟩]
      | some _ => .ok [head]

def heads (remote : Repository) : Except GitError (List Head) := do
  let others ← remote.refNames.mapM remote.headsOf
  match remote.target RefName.head with
  | .error .faulty => throw .invalidReference
  | .error .missing => return others.flatten
  | .ok id => return ⟨RefName.head, id⟩ :: others.flatten

def canCompare (own : Repository) (head : Head) : Bool :=
  match (Revision.parse head.name).map own.evaluate with
  | some (.error .faulty) => false
  | _ => true

def receive (own remote : Repository) (shown : List Head) : Except GitError Repository :=
  let ids := remote.closure (shown.map (·.id))
  if ids.all remote.holds then
    .ok { own with
      objects := own.objects ++ remote.objects.filter fun entry =>
        decide (entry.1 ∈ ids) && !own.holds entry.1 }
  else .error .missingObject

/-- The repository with the objects of its remote if it lacks one that is wanted. A transfer fails
once the run has been stopped. -/
def receiveWanted (own remote : Repository) (stopped : Bool) (shown : List Head)
    (wanted : List ObjectId) : Except GitError Repository :=
  if wanted.isEmpty then .ok own
  else if !shown.all own.canCompare then .error .invalidReference
  else if wanted.all own.holds then .ok own
  else if stopped then .error .unreachable
  else own.receive remote shown

def knowsHead (own : Repository) : Bool :=
  match own.refValue RefName.head with
  | .ok _ => true
  | .error _ => false

def keepHead (own : Repository) (head : Head) : Except GitError Repository :=
  match own.target head.localName, own.pointRef head.localName head.id with
  | .error .faulty, _ | _, none => .error .invalidReference
  | _, some own => .ok own

/-- The repository with a tag of its remote, unless it has one of that name or lacks the object. -/
def followTag (own : Repository) (head : Head) : Except GitError Repository :=
  if !own.holds head.id then .ok own
  else match own.target head.name with
    | .error .faulty => .error .invalidReference
    | .error .missing => own.keepHead head
    | .ok _ => .ok own

def noteFetched (own : Repository) (text : String) : Repository :=
  { own with
    refs := (RefName.fetchHead, text) :: own.refs.filter (·.1 ≠ RefName.fetchHead) }

def fetchAll (own remote : Repository) (stopped : Bool) (url : String) :
    Except GitError Repository := do
  let shown ← remote.heads
  let wanted := shown.filter fun head =>
    RefName.isValid head.name && (head.isBranch || head.isTag)
  let own ← own.receiveWanted remote stopped shown (wanted.map (·.id))
  if !wanted.isEmpty && !own.knowsHead then throw .invalidReference
  let own ← wanted.foldlM keepHead own
  let byName := wanted.mergeSort fun a b => a.name ≤ b.name
  return own.noteFetched (String.join (byName.map (Head.fetchLine "not-for-merge" url)))

/-- Fetches one object of a remote by its id. The tags that lead to fetched objects come with it. -/
def fetchOne (own remote : Repository) (stopped : Bool) (url : String) (id : ObjectId) :
    Except GitError Repository := do
  let shown ← remote.heads
  let own ← own.receiveWanted remote stopped shown [id]
  let tags := shown.filter fun head => RefName.isValid head.name && head.isTag
  let own ← tags.foldlM followTag own
  return own.noteFetched (Head.fetchLine "" url ⟨id.hex, id⟩)

def fetchFault (stopped : Bool) (cause : GitError) : FetchError :=
  if stopped then .cancelled else .git cause

/-- Fetches what a revision needs: the one commit if it is an id in full and the remote has it, and
all branches and tags otherwise. -/
def refresh (own : Repository) (remote : Except GitError Repository) (stopped : Bool)
    (url revision : String) : Except FetchError Repository :=
  let everything (own : Repository) : Except FetchError Repository :=
    (remote.bind fun remote => own.fetchAll remote stopped url).mapError (fetchFault stopped)
  match ObjectId.ofText? revision with
  | none => everything own
  | some id =>
    match remote.bind fun remote => own.fetchOne remote stopped url id with
    | .ok fetched => if (fetched.commit? id).isSome then .ok fetched else everything fetched
    | .error _ => if stopped then .error .cancelled else everything own

/-- The repository in which a revision can be looked up: as it is if the revision is an id in full
that it knows, and brought up to date otherwise. -/
def obtain (own : Repository) (remote : Except GitError Repository) (stopped : Bool)
    (url revision : String) : Except FetchError Repository :=
  if ObjectId.isFull revision && (own.resolve revision).isSome then .ok own
  else own.refresh remote stopped url revision

end Repository

end PinnedTree.Git
