namespace PinnedTree.Digest.Crc32

def shift (r : UInt32) : UInt32 :=
  if r &&& 1 = 1 then (r >>> 1) ^^^ 0xedb88320 else r >>> 1

def step (r : UInt32) (byte : UInt8) : UInt32 :=
  (List.range 8).foldl (fun r _ => shift r) (r ^^^ byte.toUInt32)

/-- The check of some bytes. -/
def check (bytes : ByteArray) : UInt32 := bytes.foldl step 0xffffffff ^^^ 0xffffffff

end PinnedTree.Digest.Crc32
