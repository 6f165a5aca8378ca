import PinnedTree.Digest.Words

namespace PinnedTree.Digest.Sha1

/-- The five words that the blocks of a message change. -/
structure State where
  a : UInt32 := 0x67452301
  b : UInt32 := 0xefcdab89
  c : UInt32 := 0x98badcfe
  d : UInt32 := 0x10325476
  e : UInt32 := 0xc3d2e1f0

namespace State

def mixing (s : State) (k : Nat) : UInt32 × UInt32 :=
  if k < 20 then ((s.b &&& s.c) ||| (~~~s.b &&& s.d), 0x5a827999)
  else if k < 40 then (s.b ^^^ s.c ^^^ s.d, 0x6ed9eba1)
  else if k < 60 then ((s.b &&& s.c) ||| (s.b &&& s.d) ||| (s.c &&& s.d), 0x8f1bbcdc)
  else (s.b ^^^ s.c ^^^ s.d, 0xca62c1d6)

def round (s : State) (k : Nat) (word : UInt32) : State :=
  let (mixed, constant) := s.mixing k
  ⟨rotateLeft s.a 5 + mixed + s.e + constant + word, s.a, rotateLeft s.b 30, s.c, s.d⟩

def add (s t : State) : State := ⟨s.a + t.a, s.b + t.b, s.c + t.c, s.d + t.d, s.e + t.e⟩

def words (s : State) : List UInt32 := [s.a, s.b, s.c, s.d, s.e]

end State

def nextWord (schedule : Array UInt32) : UInt32 :=
  let back (n : Nat) : UInt32 := schedule.getD (schedule.size - n) 0
  rotateLeft (back 3 ^^^ back 8 ^^^ back 14 ^^^ back 16) 1

def schedule (bytes : ByteArray) (start : Nat) : Array UInt32 :=
  (List.range 64).foldl (fun words _ => words.push (nextWord words)) (blockWords bytes start)

def block (bytes : ByteArray) (s : State) (start : Nat) : State :=
  let words := schedule bytes start
  s.add ((List.range 80).foldl (fun t k => t.round k (words.getD k 0)) s)

def digest (message : ByteArray) : List UInt32 :=
  let bytes := padded message
  ((List.range (bytes.size / 64)).foldl (fun s k => block bytes s (64 * k)) {}).words

/-- The digest of a message as 40 hexadecimal digits. -/
def hex (message : ByteArray) : String := hexText (digest message)

end PinnedTree.Digest.Sha1
