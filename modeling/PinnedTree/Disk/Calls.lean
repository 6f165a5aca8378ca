import PinnedTree.Disk.Step
import PinnedTree.Disk.Walk

namespace PinnedTree.Disk

def stat (d : Disk) (l : Location) : Except IoFault Node := do
  match ← d.resolve true l with
  | .taken _ node => return node
  | .free _ => throw (.errno .noEntry)

def linkStat (d : Disk) (l : Location) : Except IoFault Node := do
  match ← d.resolve false l with
  | .taken _ node => return node
  | .free _ => throw (.errno .noEntry)

def leadsSomewhere (d : Disk) (l : Location) : Bool :=
  match d.stat l with
  | .ok _ => true
  | .error _ => false

def leadsToDir (d : Disk) (l : Location) : Bool :=
  match d.stat l with
  | .ok .dir => true
  | _ => false

def holdsSomething (d : Disk) (l : Location) : Bool :=
  match d.linkStat l with
  | .ok _ => true
  | .error _ => false

def readBytes (d : Disk) (l : Location) : Except IoFault ByteArray := do
  match ← d.stat l with
  | .file content mode => if mayRead mode then return content else throw (.errno .permissionDenied)
  | .dir => throw (.errno .isDirectory)
  | .link _ => throw (.errno .tooManyLinks)

def readText (d : Disk) (l : Location) : Except IoFault String := do
  match String.fromUTF8? (← d.readBytes l) with
  | some text => return text
  | none => throw .invalidUtf8

def list (d : Disk) (l : Location) : Except IoFault (List String) := do
  match ← d.resolve true l with
  | .taken path .dir => return d.namesIn path
  | .taken _ _ => throw (.errno .notDirectory)
  | .free _ => throw (.errno .noEntry)

def makeDir (d : Disk) (l : Location) : Except IoFault Step := do
  match ← d.resolve false l.bare with
  | .free path => return .makeDir path
  | .taken _ _ => throw (.errno .fileExists)

/-- Opens a file for writing from its start; the place says where its content goes. -/
def openToWrite (d : Disk) (l : Location) (mode : Nat) : Except IoFault Step := do
  match ← d.resolve true l with
  | .free path => return .create path mode
  | .taken path (.file _ old) =>
    if mayWrite old then return .create path mode else throw (.errno .permissionDenied)
  | .taken _ .dir => throw (.errno .isDirectory)
  | .taken _ (.link _) => throw (.errno .tooManyLinks)

def writeFile (d : Disk) (l : Location) (content : ByteArray) (mode : Nat) :
    Except IoFault (List Step) := do
  match ← d.openToWrite l mode with
  | .create path mode => return [.create path mode, .write path content]
  | step => return [step]

def fill (d : Disk) (l : Location) (content : ByteArray) : Except IoFault Step := do
  match ← d.resolve true l with
  | .taken path _ => return .write path content
  | .free _ => throw (.errno .noEntry)

def setMode (d : Disk) (l : Location) (mode : Nat) : Except IoFault Step := do
  match ← d.resolve true l with
  | .taken path _ => return .setMode path mode
  | .free _ => throw (.errno .noEntry)

def makeLink (d : Disk) (target : String) (l : Location) : Except IoFault Step := do
  if target.toList.contains '\x00' then throw .nulInName
  if target.isEmpty then throw (.errno .noEntry)
  match ← d.resolve false l with
  | .free path => return .makeLink path target
  | .taken _ _ => throw (.errno .fileExists)

def removeFile (d : Disk) (l : Location) : Except IoFault Step := do
  match ← d.resolve false l with
  | .taken _ .dir => throw (.errno .isDirectory)
  | .taken path _ => return .unlink path
  | .free _ => throw (.errno .noEntry)

def removalOf (entry : DiskPath × Node) : Step :=
  match entry.2 with
  | .dir => .removeDir entry.1
  | _ => .unlink entry.1

def removalSteps (d : Disk) (path : DiskPath) : List Step :=
  ((d.inside path).mergeSort fun a b => b.1.length ≤ a.1.length).map removalOf
    ++ [.removeDir path]

def removeAll (d : Disk) (l : Location) : Except IoFault (List Step) := do
  match ← d.resolve false l with
  | .taken path .dir => return d.removalSteps path
  | .taken path (.link _) => return [.unlink path]
  | .taken _ (.file _ _) => throw (.errno .notDirectory)
  | .free _ => throw (.errno .noEntry)

def isEmptyDir (d : Disk) (path : DiskPath) : Bool := (d.namesIn path).isEmpty

def rename (d : Disk) (source target : Location) : Except IoFault (List Step) := do
  let start ← d.resolve false source
  let goal ← d.resolve false target.bare
  if !source.endsInName || !target.endsInName then throw (.errno .busy)
  match start, goal with
  | .free _, _ => throw (.errno .noEntry)
  | .taken a old, .free b =>
    if target.asksForDir && old ≠ .dir then throw (.errno .notDirectory)
    if a.isPrefixOf b then throw (.errno .invalidArgument)
    return [.rename a b]
  | .taken a old, .taken b new =>
    if a = b then return []
    if a.isPrefixOf b then throw (.errno .invalidArgument)
    if b.isPrefixOf a then throw (.errno .notEmpty)
    match old, new with
    | .dir, .dir =>
      if !d.isEmptyDir b then throw (.errno .notEmpty)
      return [.rename a b]
    | .dir, _ => throw (.errno .notDirectory)
    | _, .dir => throw (.errno .isDirectory)
    | _, _ => return [.rename a b]

def temporaryName (n : Nat) : String := ".tmp" ++ toString n

def freeTemporaryName (d : Disk) (l : Location) : String :=
  match d.resolve true l with
  | .ok (.taken path _) =>
    let taken := d.namesIn path
    temporaryName (((List.range (taken.length + 1)).find? fun n =>
      !taken.contains (temporaryName n)).getD 0)
  | _ => temporaryName 0

/-- Makes an empty file that only its owner may read and that was not there before. -/
def makeTemporary (d : Disk) (l : Location) : Except IoFault Step := do
  match ← d.resolve false l with
  | .free path => return .create path 0o600
  | .taken _ _ => throw (.errno .fileExists)

end PinnedTree.Disk
