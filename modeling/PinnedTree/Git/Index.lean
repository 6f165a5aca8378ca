import PinnedTree.Digest.Words
import PinnedTree.Git.Snapshot

namespace PinnedTree.Git.Index

def word (n : Nat) : List UInt8 := Digest.wordBytes n.toUInt32

def octal (digits : String) : Nat :=
  digits.toList.foldl (fun n c => 8 * n + (c.toNat - '0'.toNat)) 0

/-- The bytes of an entry. The times and places that an entry can note are left at zero. -/
def entryBytes (file : SnapshotFile) : List UInt8 :=
  let path := (Text.join '/' file.path).toUTF8.toList
  let unknown := List.replicate 24 (0 : UInt8)
  let body := unknown ++ word (octal file.mode) ++ word 0 ++ word 0 ++ word file.content.size
    ++ (Object.blob file.content).id.bytes
    ++ [((path.length % 4096) / 256).toUInt8, path.length.toUInt8] ++ path
  body ++ List.replicate (8 - body.length % 8) 0

/-- The bytes of an index. -/
def bytes (files : List SnapshotFile) : ByteArray :=
  let sorted := files.mergeSort fun a b => Text.join '/' a.path ≤ Text.join '/' b.path
  let content := "DIRC".toUTF8.toList ++ word 2 ++ word files.length ++ sorted.flatMap entryBytes
  ⟨(content ++ (Digest.Sha1.digest ⟨content.toArray⟩).flatMap Digest.wordBytes).toArray⟩

end PinnedTree.Git.Index
