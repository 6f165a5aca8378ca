namespace PinnedTree.Digest

def rotateLeft (x : UInt32) (n : UInt32) : UInt32 := (x <<< n) ||| (x >>> (32 - n))

def rotateRight (x : UInt32) (n : UInt32) : UInt32 := (x >>> n) ||| (x <<< (32 - n))

def lengthBytes (n : Nat) : ByteArray :=
  (List.range 8).foldl (fun bytes k => bytes.push (n / Nat.pow 256 (7 - k)).toUInt8) .empty

/-- A message with a one bit, zeros and its length in bits behind it, so that it fills blocks of 64
bytes. -/
def padded (message : ByteArray) : ByteArray :=
  let zeros := (119 - message.size % 64) % 64
  (List.range zeros).foldl (fun bytes _ => bytes.push 0) (message.push 0x80)
    ++ lengthBytes (8 * message.size)

def byteAt (bytes : ByteArray) (i : Nat) : UInt32 :=
  if h : i < bytes.size then bytes[i].toUInt32 else 0

def wordAt (bytes : ByteArray) (i : Nat) : UInt32 :=
  (byteAt bytes i <<< 24) ||| (byteAt bytes (i + 1) <<< 16) ||| (byteAt bytes (i + 2) <<< 8)
    ||| byteAt bytes (i + 3)

def blockWords (bytes : ByteArray) (start : Nat) : Array UInt32 :=
  ((List.range 16).map fun k => wordAt bytes (start + 4 * k)).toArray

def hexWord (w : UInt32) : List Char :=
  [7, 6, 5, 4, 3, 2, 1, 0].map fun k => Nat.digitChar (w.toNat / Nat.pow 16 k % 16)

def hexText (words : List UInt32) : String := String.ofList (words.flatMap hexWord)

/-- The four bytes of a word, the highest first. -/
def wordBytes (w : UInt32) : List UInt8 :=
  [(w >>> 24).toUInt8, (w >>> 16).toUInt8, (w >>> 8).toUInt8, w.toUInt8]

end PinnedTree.Digest
