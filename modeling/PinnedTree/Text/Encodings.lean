namespace PinnedTree.Text

def page437 : List Char :=
  ("ÇüéâäàåçêëèïîìÄÅÉæÆôöòûùÿÖÜ¢£¥₧ƒ"
    ++ "áíóúñÑªº¿⌐¬½¼¡«»░▒▓│┤╡╢╖╕╣║╗╝╜╛┐"
    ++ "└┴┬├─┼╞╟╚╔╩╦╠═╬╧╨╤╥╙╘╒╓╫╪┘┌█▄▌▐▀"
    ++ "αßΓπΣσµτΦΘΩδ∞φε∩≡±≥≤⌠⌡÷≈°∙·√ⁿ²■ ").toList

def char437 (byte : UInt8) : Char :=
  if byte < 0x80 then Char.ofNat byte.toNat else page437.getD (byte.toNat - 0x80) ' '

def of437 (bytes : List UInt8) : String := String.ofList (bytes.map char437)

/-- The number of bytes that should follow a first byte, and the range of the first of them. -/
def following (first : UInt8) : Option (Nat × UInt8 × UInt8) :=
  if first < 0x80 then some (0, 0x80, 0xBF)
  else if 0xC2 ≤ first && first ≤ 0xDF then some (1, 0x80, 0xBF)
  else if first = 0xE0 then some (2, 0xA0, 0xBF)
  else if first = 0xED then some (2, 0x80, 0x9F)
  else if 0xE1 ≤ first && first ≤ 0xEF then some (2, 0x80, 0xBF)
  else if first = 0xF0 then some (3, 0x90, 0xBF)
  else if first = 0xF4 then some (3, 0x80, 0x8F)
  else if 0xF1 ≤ first && first ≤ 0xF3 then some (3, 0x80, 0xBF)
  else none

def belonging : Nat → UInt8 → UInt8 → List UInt8 → Nat
  | 0, _, _, _ => 0
  | _, _, _, [] => 0
  | wanted + 1, low, high, byte :: rest =>
    if low ≤ byte && byte ≤ high then 1 + belonging wanted 0x80 0xBF rest else 0

/-- The character of a first byte with the bytes that belong to it; it is replaced if some of these
are lacking. -/
def charOf (first : UInt8) (rest : List UInt8) : Char × Nat :=
  match following first with
  | none => ('\uFFFD', 0)
  | some (wanted, low, high) =>
    let found := belonging wanted low high rest
    if found < wanted then ('\uFFFD', found)
    else
      let top := if wanted = 0 then first.toNat else first.toNat % Nat.pow 2 (6 - wanted)
      (Char.ofNat ((rest.take wanted).foldl (fun n byte => n * 64 + byte.toNat % 64) top), found)

/-- A text in UTF-8 whose faulty bytes are replaced; so many of the first ones are passed over. -/
def lossyChars (skip : Nat) : List UInt8 → List Char
  | [] => []
  | first :: rest =>
    match skip with
    | n + 1 => lossyChars n rest
    | 0 =>
      let (c, taken) := charOf first rest
      c :: lossyChars taken rest

/-- A text in UTF-8; faulty bytes are replaced. -/
def ofUtf8Lossy (bytes : List UInt8) : String := String.ofList (lossyChars 0 bytes)

end PinnedTree.Text
