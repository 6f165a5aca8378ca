import PinnedTree.Archive.Deflate
import PinnedTree.Digest.Adler32
import PinnedTree.Digest.Words

namespace PinnedTree.Zlib

def blockSize : Nat := 65535

def pair (n : Nat) : List UInt8 := [n.toUInt8, (n / 256).toUInt8]

/-- The bytes from some place on in blocks that are not packed, so many of them before the last. -/
def blocks (content : ByteArray) (start : Nat) : Nat → List UInt8
  | 0 =>
    let last := (content.extract start content.size).toList
    1 :: pair last.length ++ pair (blockSize - last.length) ++ last
  | more + 1 =>
    let block := (content.extract start (start + blockSize)).toList
    0 :: pair blockSize ++ pair 0 ++ block ++ blocks content (start + blockSize) more

def wrap (content : ByteArray) : ByteArray :=
  ⟨([0x78, 0x01] ++ blocks content 0 (content.size / blockSize)
    ++ Digest.wordBytes (Digest.Adler32.check content)).toArray⟩

/-- The bytes that a stream holds. -/
def unwrap? (stream : ByteArray) : Option ByteArray :=
  match stream.toList with
  | method :: flags :: _ =>
    if method % 16 ≠ 8 || (method.toNat * 256 + flags.toNat) % 31 ≠ 0 then none
    else
      let (content, ending) := Deflate.unpack (stream.extract 2 stream.size)
      let check := Digest.wordBytes (Digest.Adler32.check content)
      if ending = none && check.isSuffixOf stream.toList then some content else none
  | _ => none

end PinnedTree.Zlib
