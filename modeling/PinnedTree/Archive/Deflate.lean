namespace PinnedTree.Deflate

inductive Ending
  | truncated
  | corrupt
deriving DecidableEq, Repr

abbrev Bits := List Bool

def byteBits (byte : UInt8) : Bits := (List.range 8).map fun k => byte.toNat / Nat.pow 2 k % 2 = 1

def takeNumber : Nat → Bits → Except Ending (Nat × Bits)
  | 0, bits => .ok (0, bits)
  | _ + 1, [] => .error .truncated
  | count + 1, bit :: rest => do
    let (high, rest) ← takeNumber count rest
    return ((if bit then 1 else 0) + 2 * high, rest)

inductive Code
  | unused
  | symbol (n : Nat)
  | branch (zero one : Code)
deriving Repr

namespace Code

def insert (n : Nat) : Bits → Code → Code
  | [], _ => .symbol n
  | bit :: rest, code =>
    let (zero, one) := match code with
      | .branch zero one => (zero, one)
      | _ => (.unused, .unused)
    if bit then .branch zero (one.insert n rest) else .branch (zero.insert n rest) one

def read : Code → Bits → Except Ending (Nat × Bits)
  | .symbol n, bits => .ok (n, bits)
  | .unused, _ => .error .corrupt
  | .branch _ _, [] => .error .truncated
  | .branch zero one, bit :: rest => if bit then one.read rest else zero.read rest

def maxLength : Nat := 15

def wordBits (length word : Nat) : Bits :=
  (List.range length).reverse.map fun k => word / Nat.pow 2 k % 2 = 1

def assign : Nat → Nat → List (Nat × Nat) → Code → Code
  | _, _, [], code => code
  | word, length, (next, n) :: rest, code =>
    let word := word * Nat.pow 2 (next - length)
    assign (word + 1) next rest (code.insert n (wordBits next word))

def used (lengths : List Nat) : List (Nat × Nat) :=
  (lengths.zipIdx.filter (·.1 ≠ 0)).mergeSort fun a b => a.1 ≤ b.1

def ofLengths (lengths : List Nat) : Except Ending Code :=
  let words := used lengths
  let filled := words.foldl (fun sum entry => sum + Nat.pow 2 (maxLength - entry.1)) 0
  if 1 < words.length && filled ≠ Nat.pow 2 maxLength then .error .corrupt
  else .ok (assign 0 0 words .unused)

end Code

/-- The codes of a block: one for bytes and the lengths of copies, one for their distances. -/
structure Codes where
  lengths : Code
  distances : Code

def fixedCodes : Except Ending Codes := do
  let lengths ← Code.ofLengths (List.replicate 144 8 ++ List.replicate 112 9
    ++ List.replicate 24 7 ++ List.replicate 8 8)
  return ⟨lengths, ← Code.ofLengths (List.replicate 32 5)⟩

def lengthOrder : List Nat :=
  [16, 17, 18, 0, 8, 7, 9, 6, 10, 5, 11, 4, 12, 3, 13, 2, 14, 1, 15]

def takeTriples : Nat → Bits → Except Ending (List Nat × Bits)
  | 0, bits => .ok ([], bits)
  | count + 1, bits => do
    let (n, bits) ← takeNumber 3 bits
    let (rest, bits) ← takeTriples count bits
    return (n :: rest, bits)

def takeLengths (code : Code) (wanted : Nat) : Nat → List Nat → Bits →
    Except Ending (List Nat × Bits)
  | 0, _, _ => .error .truncated
  | fuel + 1, found, bits =>
    if wanted < found.length then .error .corrupt
    else if found.length = wanted then .ok (found, bits)
    else do
      let (n, bits) ← code.read bits
      if n < 16 then takeLengths code wanted fuel (found ++ [n]) bits
      else if n = 16 then
        match found.getLast? with
        | none => throw .corrupt
        | some last =>
          let (more, bits) ← takeNumber 2 bits
          takeLengths code wanted fuel (found ++ List.replicate (3 + more) last) bits
      else if n = 17 then
        let (more, bits) ← takeNumber 3 bits
        takeLengths code wanted fuel (found ++ List.replicate (3 + more) 0) bits
      else
        let (more, bits) ← takeNumber 7 bits
        takeLengths code wanted fuel (found ++ List.replicate (11 + more) 0) bits

def takeCodes (bits : Bits) : Except Ending (Codes × Bits) := do
  let (moreLengths, bits) ← takeNumber 5 bits
  let (moreDistances, bits) ← takeNumber 5 bits
  let (moreOrder, bits) ← takeNumber 4 bits
  let (triples, bits) ← takeTriples (moreOrder + 4) bits
  let order := lengthOrder.zip triples
  let code ← Code.ofLengths ((List.range 19).map fun n => (order.lookup n).getD 0)
  let wanted := 257 + moreLengths
  let (found, bits) ← takeLengths code (wanted + 1 + moreDistances) (bits.length + 1) [] bits
  let lengths ← Code.ofLengths (found.take wanted)
  let distances ← Code.ofLengths (found.drop wanted)
  return (⟨lengths, distances⟩, bits)

def copyLengths : List (Nat × Nat) :=
  [(3, 0), (4, 0), (5, 0), (6, 0), (7, 0), (8, 0), (9, 0), (10, 0), (11, 1), (13, 1), (15, 1),
   (17, 1), (19, 2), (23, 2), (27, 2), (31, 2), (35, 3), (43, 3), (51, 3), (59, 3), (67, 4),
   (83, 4), (99, 4), (115, 4), (131, 5), (163, 5), (195, 5), (227, 5), (258, 0)]

def copyDistances : List (Nat × Nat) :=
  [(1, 0), (2, 0), (3, 0), (4, 0), (5, 1), (7, 1), (9, 2), (13, 2), (17, 3), (25, 3), (33, 4),
   (49, 4), (65, 5), (97, 5), (129, 6), (193, 6), (257, 7), (385, 7), (513, 8), (769, 8),
   (1025, 9), (1537, 9), (2049, 10), (3073, 10), (4097, 11), (6145, 11), (8193, 12), (12289, 12),
   (16385, 13), (24577, 13)]

def takeExtended (table : List (Nat × Nat)) (n : Nat) (bits : Bits) :
    Except Ending (Nat × Bits) :=
  match table[n]? with
  | none => .error .corrupt
  | some (least, extra) => do
    let (more, bits) ← takeNumber extra bits
    return (least + more, bits)

def copyBack (distance : Nat) : Nat → ByteArray → ByteArray
  | 0, out => out
  | length + 1, out =>
    copyBack distance length (out.push (out.data.getD (out.size - distance) 0))

def symbols (codes : Codes) : Nat → ByteArray → Bits → ByteArray × Except Ending Bits
  | 0, out, _ => (out, .error .truncated)
  | fuel + 1, out, bits =>
    match codes.lengths.read bits with
    | .error ending => (out, .error ending)
    | .ok (n, bits) =>
      if n < 256 then symbols codes fuel (out.push n.toUInt8) bits
      else if n = 256 then (out, .ok bits)
      else
        let copy : Except Ending (Nat × Nat × Bits) := do
          let (length, bits) ← takeExtended copyLengths (n - 257) bits
          let (symbol, bits) ← codes.distances.read bits
          let (distance, bits) ← takeExtended copyDistances symbol bits
          return (length, distance, bits)
        match copy with
        | .error ending => (out, .error ending)
        | .ok (length, distance, bits) =>
          if out.size < distance then (out, .error .corrupt)
          else symbols codes fuel (copyBack distance length out) bits

def literals : Nat → ByteArray → Bits → ByteArray × Except Ending Bits
  | 0, out, bits => (out, .ok bits)
  | count + 1, out, bits =>
    match takeNumber 8 bits with
    | .error ending => (out, .error ending)
    | .ok (byte, bits) => literals count (out.push byte.toUInt8) bits

def plainBlock (out : ByteArray) (bits : Bits) : ByteArray × Except Ending Bits :=
  let header : Except Ending (Nat × Bits) := do
    let (length, bits) ← takeNumber 16 (bits.drop (bits.length % 8))
    let (complement, bits) ← takeNumber 16 bits
    if length + complement = 0xffff then return (length, bits) else throw .corrupt
  match header with
  | .error ending => (out, .error ending)
  | .ok (length, bits) => literals length out bits

def codedBlock (codes : Except Ending (Codes × Bits)) (out : ByteArray) :
    ByteArray × Except Ending Bits :=
  match codes with
  | .error ending => (out, .error ending)
  | .ok (codes, bits) => symbols codes (bits.length + 1) out bits

def block (out : ByteArray) (bits : Bits) : ByteArray × Except Ending (Bool × Bits) :=
  match takeNumber 3 bits with
  | .error ending => (out, .error ending)
  | .ok (header, bits) =>
    let (out, result) := match header / 2 with
      | 0 => plainBlock out bits
      | 1 => codedBlock (fixedCodes.map (·, bits)) out
      | 2 => codedBlock (takeCodes bits) out
      | _ => (out, .error .corrupt)
    (out, result.map (header % 2 = 1, ·))

def blocks : Nat → ByteArray → Bits → ByteArray × Option Ending
  | 0, out, _ => (out, some .truncated)
  | fuel + 1, out, bits =>
    match block out bits with
    | (out, .error ending) => (out, some ending)
    | (out, .ok (true, _)) => (out, none)
    | (out, .ok (false, bits)) => blocks fuel out bits

/-- Unpacks data; tells why that ends too early, if it does. -/
def unpack (data : ByteArray) : ByteArray × Option Ending :=
  let bits := data.toList.flatMap byteBits
  blocks (bits.length + 1) .empty bits

end PinnedTree.Deflate
