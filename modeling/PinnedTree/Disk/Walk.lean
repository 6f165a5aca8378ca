import PinnedTree.Disk.Basic
import PinnedTree.Disk.Fault
import PinnedTree.Path.Location

namespace PinnedTree

/-- Where a walk ends: at an object, or at a free name in an existing directory. -/
inductive Place
  | taken (path : DiskPath) (node : Node)
  | free (path : DiskPath)
deriving DecidableEq

inductive Stretch
  | ended (place : Place)
  | turned (directory : DiskPath) (target : String) (rest : List String)

def maxNameBytes : Nat := 255

def maxPathBytes : Nat := 4095

def maxLinks : Nat := 40

namespace Disk

/-- Walks from a directory until the path or the way without links ends. A link in last place is an
end unless it is to be followed. -/
def advance (d : Disk) (follow : Bool) (here : DiskPath) : List String → Except Errno Stretch
  | [] => .ok (.ended (.taken here .dir))
  | "." :: rest => advance d follow here rest
  | ".." :: rest => advance d follow here.dropLast rest
  | name :: rest =>
    if name.utf8ByteSize > maxNameBytes then .error .nameTooLong
    else match d.look (here ++ [name]) with
      | none => if rest.isEmpty then .ok (.ended (.free (here ++ [name]))) else .error .noEntry
      | some .dir => advance d follow (here ++ [name]) rest
      | some (.file content mode) =>
        if rest.isEmpty then .ok (.ended (.taken (here ++ [name]) (.file content mode)))
        else .error .notDirectory
      | some (.link target) =>
        if rest.isEmpty && !follow then .ok (.ended (.taken (here ++ [name]) (.link target)))
        else .ok (.turned here target rest)

theorem advance_step {d : Disk} {here : DiskPath} (follow : Bool) {name : String}
    (notHere : name ≠ ".") (notUp : name ≠ "..") (rest : List String) :
    d.advance follow here (name :: rest) =
      if name.utf8ByteSize > maxNameBytes then .error .nameTooLong
      else match d.look (here ++ [name]) with
        | none => if rest.isEmpty then .ok (.ended (.free (here ++ [name]))) else .error .noEntry
        | some .dir => d.advance follow (here ++ [name]) rest
        | some (.file content mode) =>
          if rest.isEmpty then .ok (.ended (.taken (here ++ [name]) (.file content mode)))
          else .error .notDirectory
        | some (.link target) =>
          if rest.isEmpty && !follow then .ok (.ended (.taken (here ++ [name]) (.link target)))
          else .ok (.turned here target rest) :=
  advance.eq_4 d follow here name rest notHere notUp

def walk (d : Disk) (follow : Bool) : Nat → DiskPath → List String → Except Errno Place
  | links, here, path => do
    match ← d.advance follow here path with
    | .ended place => return place
    | .turned directory target rest =>
      match links with
      | 0 => throw .tooManyLinks
      | left + 1 =>
        let link := Location.ofText target
        d.walk follow left (if link.anchored then [] else directory) (link.segments ++ rest)

/-- Where a written path leads; a link in last place is followed if asked for. -/
def resolve (d : Disk) (follow : Bool) (l : Location) : Except IoFault Place :=
  let text := l.text
  if text.toList.contains '\x00' then .error .nulInName
  else if text.isEmpty then .error (.errno .noEntry)
  else if text.utf8ByteSize > maxPathBytes then .error (.errno .nameTooLong)
  else
    (d.walk follow maxLinks (if l.anchored then [] else d.home) l.segments).mapError .errno

end Disk

end PinnedTree
