import PinnedTree.World

namespace PinnedTree.Files

def plainMode : Nat := 0o644

/-- Makes a directory after another try to make it has failed: it may have been made meanwhile. -/
def makeLast (l : Location) : Action IoFault Unit := do
  match ← Action.outcome (Action.changeOnce (·.makeDir l)) with
  | .ok _ => return ()
  | .error fault => if ← Action.observe (·.leadsToDir l) then return () else throw fault

/-- Makes the first directory of a list, after those that hold it where they are missing. -/
def makeDirsFrom : List Location → Action IoFault Unit
  | [] => throw .wholeTree
  | l :: above => do
    if l.text.isEmpty then return ()
    match ← Action.outcome (Action.changeOnce (·.makeDir l)) with
    | .ok _ => return ()
    | .error (.errno .noEntry) =>
      makeDirsFrom above
      makeLast l
    | .error fault => if ← Action.observe (·.leadsToDir l) then return () else throw fault

def makeDirs (l : Location) : Action IoFault Unit := makeDirsFrom l.ancestors

def makeParents (l : Location) : Action IoFault Unit :=
  match l.parent? with
  | some above => makeDirs above
  | none => return ()

def removeAll (l : Location) : Action IoFault Unit := Action.change (·.removeAll l)

def removeFile (l : Location) : Action IoFault Unit := Action.changeOnce (·.removeFile l)

def rename (source target : Location) : Action IoFault Unit :=
  Action.change (·.rename source target)

def write (l : Location) (content : ByteArray) : Action IoFault Unit :=
  Action.change (·.writeFile l content plainMode)

def writeText (l : Location) (text : String) : Action IoFault Unit := write l text.toUTF8

def makeTemporary (directory : Location) : Action IoFault Location := do
  let place := directory / (← Action.observe (·.freeTemporaryName directory))
  Action.reporting (IoFault.temporary · place.text) (Action.changeOnce (·.makeTemporary place))
  return place

/-- Does something with a temporary file and removes it, whether that failed or not. -/
def withTemporary {ε α : Type} (directory : Location) (report : IoFault → ε)
    (body : Location → Action ε α) : Action ε α := do
  let place ← Action.reporting report (makeTemporary directory)
  let result ← Action.outcome (body place)
  Action.ignoringFailure (removeFile place)
  match result with
  | .ok value => return value
  | .error e => throw e

def isLocked (l : Location) : Action IoFault Bool := do
  let w ← get
  match w.disk.resolve true l with
  | .ok (.taken path _) => return w.locks.contains path
  | _ => return false

def hold (l : Location) : Action IoFault Unit :=
  modify fun w =>
    match w.disk.resolve true l with
    | .ok (.taken path _) => { w with locks := path :: w.locks }
    | _ => w

/-- Lets go of the file at a place. -/
def release {ε : Type} (l : Location) : Action ε Unit :=
  modify fun w =>
    match w.disk.resolve true l with
    | .ok (.taken path _) => { w with locks := w.locks.erase path }
    | _ => w

end PinnedTree.Files
