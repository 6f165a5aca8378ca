import PinnedTree.Archive.Deflate
import PinnedTree.Digest.Crc32
import PinnedTree.Error
import PinnedTree.Text.Encodings

namespace PinnedTree.Zip

def number (bytes : ByteArray) (place : Nat) : Nat → Nat
  | 0 => 0
  | count + 1 =>
    (bytes.data.getD place 0).toNat + 256 * number bytes (place + 1) count

def marks (bytes : ByteArray) (place signature : Nat) : Bool :=
  place + 4 ≤ bytes.size && number bytes place 4 = signature

def headerMark : Nat := 0x04034b50

def entryMark : Nat := 0x02014b50

def endMark : Nat := 0x06054b50

def headerSize : Nat := 30

def entrySize : Nat := 46

def endSize : Nat := 22

/-- Where the directory of an archive is: its first entry, their number, and by how much the archive
has been moved from the start of the file. -/
structure Directory where
  start : Nat
  count : Nat
  shift : Nat
  isSplit : Bool
deriving DecidableEq, Repr

def directoryEndingAt (bytes : ByteArray) (place : Nat) : Option Directory :=
  let comment := number bytes (place + 20) 2
  let count := number bytes (place + 10) 2
  let written := number bytes (place + 16) 4
  let isSplit := number bytes (place + 4) 2 ≠ number bytes (place + 6) 2
  if !marks bytes place endMark || bytes.size < place + endSize + comment then none
  else if count = 0 then some ⟨written, 0, place - written, isSplit⟩
  else
    ((List.range (place - written)).find? fun shift =>
      marks bytes (written + shift) entryMark).map fun shift =>
        ⟨written + shift, count, shift, isSplit⟩

def directory? (bytes : ByteArray) : Option Directory :=
  (List.range bytes.size).reverse.findSome? (directoryEndingAt bytes)

structure Entry where
  name : String
  isEncrypted : Bool
  method : Nat
  check : Nat
  packedSize : Nat
  mode : Option Nat
  header : Nat
deriving DecidableEq, Repr

def modeOfAttributes (attributes : Nat) : Nat :=
  let mode := if attributes / 0x10 % 2 = 1 then 0o40775 else 0o100664
  if attributes % 2 = 1 then mode &&& 0o555 else mode

def mode? (system attributes : Nat) : Option Nat :=
  if attributes = 0 then none
  else if system = 3 then some (attributes / 0x10000)
  else if system = 0 then some (modeOfAttributes attributes)
  else none

def entryAt (bytes : ByteArray) (shift place : Nat) : Except ArchiveError (Entry × Nat) :=
  let nameSize := number bytes (place + 28) 2
  let next := place + entrySize + nameSize + number bytes (place + 30) 2
    + number bytes (place + 32) 2
  if !marks bytes place entryMark || bytes.size < next then .error .invalid
  else
    let flags := number bytes (place + 8) 2
    let rawName := (bytes.extract (place + entrySize) (place + entrySize + nameSize)).toList
    .ok ({
      name := if flags / 0x800 % 2 = 1 then Text.ofUtf8Lossy rawName else Text.of437 rawName
      isEncrypted := flags % 2 = 1
      method := number bytes (place + 10) 2
      check := number bytes (place + 16) 4
      packedSize := number bytes (place + 20) 4
      mode := mode? (number bytes (place + 5) 1) (number bytes (place + 38) 4)
      header := number bytes (place + 42) 4 + shift }, next)

def entriesAt (bytes : ByteArray) (shift : Nat) : Nat → Nat → Except ArchiveError (List Entry)
  | 0, _ => .ok []
  | count + 1, place => do
    let (entry, next) ← entryAt bytes shift place
    return entry :: (← entriesAt bytes shift count next)

def addEntry (entries : List Entry) (entry : Entry) : List Entry :=
  if entries.any (·.name = entry.name) then
    entries.map fun other => if other.name = entry.name then entry else other
  else entries ++ [entry]

def entries (bytes : ByteArray) : Except ArchiveError (List Entry) :=
  match directory? bytes with
  | none => .error .invalid
  | some directory =>
    if directory.isSplit then .error .unsupported
    else do
      let found ← entriesAt bytes directory.shift directory.count directory.start
      return found.foldl addEntry []

def packedData (bytes : ByteArray) (entry : Entry) : Except ArchiveError ByteArray :=
  if entry.isEncrypted || (entry.method ≠ 0 && entry.method ≠ 8) then .error .unsupported
  else if !marks bytes entry.header headerMark || bytes.size < entry.header + headerSize then
    .error .invalid
  else
    let start := entry.header + headerSize + number bytes (entry.header + 26) 2
      + number bytes (entry.header + 28) 2
    .ok (bytes.extract start (start + entry.packedSize))

def pieceSize : Nat := 8192

/-- The data of an entry, as far as it can be had, and what is wrong with the rest. -/
def content (entry : Entry) (packed : ByteArray) : ByteArray × Option IoFault :=
  let (out, ending) := if entry.method = 8 then Deflate.unpack packed else (packed, none)
  if ending = some .corrupt then
    (out.extract 0 (out.size / pieceSize * pieceSize), some .corruptStream)
  else (out,
    if (Digest.Crc32.check out).toNat = entry.check then none else some .wrongChecksum)

end PinnedTree.Zip
