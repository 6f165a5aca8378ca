namespace PinnedTree.Digest.Adler32

def modulus : Nat := 65521

def step (sums : Nat × Nat) (byte : UInt8) : Nat × Nat :=
  let low := (sums.1 + byte.toNat) % modulus
  (low, (sums.2 + low) % modulus)

/-- The check of some bytes. -/
def check (bytes : ByteArray) : UInt32 :=
  let (low, high) := bytes.foldl step (1, 0)
  (high * 65536 + low).toUInt32

end PinnedTree.Digest.Adler32
