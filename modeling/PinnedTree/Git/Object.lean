import PinnedTree.Bytes
import PinnedTree.Digest.Sha1
import PinnedTree.Git.ObjectId
import PinnedTree.Text.Encodings
import PinnedTree.Text.Fields

namespace PinnedTree.Git

inductive Kind
  | blob
  | tree
  | commit
  | tag
deriving DecidableEq, Repr

def Kind.word : Kind → String
  | .blob => "blob"
  | .tree => "tree"
  | .commit => "commit"
  | .tag => "tag"

def Kind.ofWord? (word : String) : Option Kind :=
  [Kind.blob, .tree, .commit, .tag].find? (·.word = word)

theorem Kind.ofWord?_word (kind : Kind) : Kind.ofWord? kind.word = some kind := by
  cases kind <;> decide

/-- An entry of a tree; the mode is written in octal digits. -/
structure TreeEntry where
  mode : String
  name : String
  id : ObjectId
deriving DecidableEq, Repr

/-- A commit; what stands behind its parents is kept as it is written. -/
structure Commit where
  tree : ObjectId
  parents : List ObjectId
  rest : ByteArray
deriving DecidableEq

/-- A tag; what stands behind its target is kept as it is written. -/
structure Tag where
  target : ObjectId
  rest : ByteArray
deriving DecidableEq

inductive Object
  | blob (content : ByteArray)
  | tree (entries : List TreeEntry)
  | commit (commit : Commit)
  | tag (tag : Tag)
deriving DecidableEq

def Object.kind : Object → Kind
  | .blob _ => .blob
  | .tree _ => .tree
  | .commit _ => .commit
  | .tag _ => .tag

namespace TreeEntry

def isTree (entry : TreeEntry) : Bool := entry.mode = "40000"

def isForeign (entry : TreeEntry) : Bool := entry.mode = "160000"

def bytes (entry : TreeEntry) : List UInt8 :=
  (entry.mode ++ " " ++ entry.name).toUTF8.toList ++ 0 :: entry.id.bytes

end TreeEntry

namespace Object

def bytes : Object → ByteArray
  | .blob content => content
  | .tree entries => ⟨(entries.flatMap TreeEntry.bytes).toArray⟩
  | .commit c =>
    ("tree " ++ c.tree.hex ++ "\n"
      ++ String.join (c.parents.map fun id => "parent " ++ id.hex ++ "\n")).toUTF8 ++ c.rest
  | .tag t => ("object " ++ t.target.hex ++ "\n").toUTF8 ++ t.rest

def framed (object : Object) : ByteArray :=
  (object.kind.word ++ " " ++ toString object.bytes.size ++ "\x00").toUTF8 ++ object.bytes

def id (object : Object) : ObjectId := ⟨Digest.Sha1.hex object.framed⟩

def links : Object → List ObjectId
  | .blob _ => []
  | .tree entries => (entries.filter (!·.isForeign)).map (·.id)
  | .commit c => c.tree :: c.parents
  | .tag t => [t.target]

def cut (byte : UInt8) (bytes : List UInt8) : Option (List UInt8 × List UInt8) :=
  if byte ∈ bytes then some (bytes.takeWhile (· ≠ byte), (bytes.dropWhile (· ≠ byte)).drop 1)
  else none

def textOf? (bytes : List UInt8) : Option String := String.fromUTF8? ⟨bytes.toArray⟩

def takeLink (word : String) (bytes : List UInt8) : Option (ObjectId × List UInt8) := do
  let (line, rest) ← cut 10 bytes
  let id ← Text.dropStart? (← textOf? line) (word ++ " ")
  return (← ObjectId.ofText? id, rest)

def takeParents : Nat → List UInt8 → List ObjectId × List UInt8
  | 0, bytes => ([], bytes)
  | fuel + 1, bytes =>
    match takeLink "parent" bytes with
    | none => ([], bytes)
    | some (id, rest) =>
      let (ids, rest) := takeParents fuel rest
      (id :: ids, rest)

def takeEntries : Nat → List UInt8 → Option (List TreeEntry)
  | _, [] => some []
  | 0, _ => none
  | fuel + 1, bytes => do
    let (head, rest) ← cut 0 bytes
    let (mode, name) ← Text.cutFirst? ' ' (← textOf? head)
    if rest.length < 20 then none
    return ⟨mode, name, ObjectId.ofBytes (rest.take 20)⟩ :: (← takeEntries fuel (rest.drop 20))

def ofBytes? (kind : Kind) (bytes : List UInt8) : Option Object :=
  match kind with
  | .blob => some (.blob ⟨bytes.toArray⟩)
  | .tree => (takeEntries bytes.length bytes).map .tree
  | .commit => do
    let (root, rest) ← takeLink "tree" bytes
    let (parents, rest) := takeParents rest.length rest
    return .commit ⟨root, parents, ⟨rest.toArray⟩⟩
  | .tag => do
    let (target, rest) ← takeLink "object" bytes
    return .tag ⟨target, ⟨rest.toArray⟩⟩

def ofFramed? (bytes : List UInt8) : Option Object := do
  let (head, body) ← cut 0 bytes
  let (word, size) ← Text.cutFirst? ' ' (← textOf? head)
  if size = toString body.length then ofBytes? (← Kind.ofWord? word) body else none

end Object

namespace Commit

def text (commit : Commit) : String := Text.ofUtf8Lossy commit.rest.toList

def lines (commit : Commit) : List String := Text.split '\n' commit.text

def time (commit : Commit) : Int :=
  let headers := commit.lines.takeWhile (· ≠ "")
  let moment? := headers.findSome? fun line => do
    let made ← Text.dropStart? line "committer "
    let (_, moment) ← Text.cutLast? '>' made
    (Text.split ' ' moment).findSome? String.toInt?
  moment?.getD 0

/-- The message of a commit. -/
def message (commit : Commit) : String :=
  Text.join '\n' ((commit.lines.dropWhile (· ≠ "")).drop 1)

end Commit

end PinnedTree.Git
