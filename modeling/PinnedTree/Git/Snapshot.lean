import PinnedTree.Error
import PinnedTree.Git.Repository

namespace PinnedTree.Git

structure SnapshotFile where
  path : List String
  mode : String
  content : ByteArray
deriving DecidableEq

namespace SnapshotFile

def executableMode : String := "100755"

def plainMode : String := "100644"

def linkMode : String := "120000"

end SnapshotFile

def isSafeName (name : String) : Bool :=
  name ∉ ["", ".", ".."] && name.toLower ∉ [".git", "git~1"]
    && !name.toList.any fun c => c = '/' || c = '\x00'

namespace Repository

def filesOf (r : Repository) : Nat → ObjectId → Except GitError (List SnapshotFile)
  | 0, _ => .error .missingObject
  | depth + 1, id =>
    match r.object? id with
    | some (.tree entries) => do
      let parts ← entries.mapM fun entry => do
        if !isSafeName entry.name then throw .checkoutConflict
        if entry.isTree then
          let inner ← filesOf r depth entry.id
          return inner.map fun file => { file with path := entry.name :: file.path }
        else if entry.isForeign then return [⟨[entry.name], entry.mode, .empty⟩]
        else match r.object? entry.id with
          | some (.blob content) => return [⟨[entry.name], entry.mode, content⟩]
          | _ => throw .missingObject
      return parts.flatten
    | _ => .error .missingObject

def filesAt (r : Repository) (id : ObjectId) : Except GitError (List SnapshotFile) :=
  match r.commit? id with
  | some commit => r.filesOf (r.objects.length + 1) commit.tree
  | none => .error .missingObject

end Repository

def TreeEntry.sortKey (entry : TreeEntry) : String :=
  if entry.isTree then entry.name ++ "/" else entry.name

/-- The trees and blobs that hold some files, the outermost tree first; trees are nested so deep at
most. -/
def objectsOfFiles : Nat → List SnapshotFile → List Object
  | 0, _ => [.tree []]
  | depth + 1, files =>
    let parts := (files.filterMap (·.path.head?)).eraseDups.map fun name =>
      match files.find? (·.path = [name]) with
      | some file =>
        let blob := Object.blob file.content
        ((⟨file.mode, name, blob.id⟩ : TreeEntry), [blob])
      | none =>
        let inner := files.filterMap fun (file : SnapshotFile) =>
          if file.path.head? = some name then some { file with path := file.path.drop 1 } else none
        let objects := objectsOfFiles depth inner
        (⟨"40000", name, (objects.headD (.tree [])).id⟩, objects)
    .tree ((parts.map (·.1)).mergeSort fun a b => a.sortKey ≤ b.sortKey)
      :: parts.flatMap (·.2)

/-- The trees and blobs that hold some files, the outermost tree first. -/
def snapshot (files : List SnapshotFile) : List Object :=
  objectsOfFiles (files.foldl (fun depth file => max depth file.path.length) 0 + 1) files

end PinnedTree.Git
