import PinnedTree.Terminal.WidthTable
import PinnedTree.Text.Marks

namespace PinnedTree.Terminal

open Text (inRanges)

def isControl (c : Char) : Bool := c.toNat < 0x20 || (0x7F ≤ c.toNat && c.toNat < 0xA0)

def charColumns (c : Char) : Nat :=
  let n := c.toNat
  if isControl c then 0
  else if n < 0xA0 then 1
  else if inRanges zeroRanges n then 0
  else if inRanges wideRanges n then 2
  else 1

def isEmoji (c : Char) : Bool := inRanges emojiRanges c.toNat

def isTextEmoji (c : Char) : Bool := inRanges textEmojiRanges c.toNat

def takesSkinTone (c : Char) : Bool := inRanges skinRanges c.toNat

def isSkinTone (c : Char) : Bool := 0x1F3FB ≤ c.toNat && c.toNat ≤ 0x1F3FF

def pictureSelector : Char := '\uFE0F'

def pictureJoiner : Char := '\u200D'

/-- How a character can join what stands before it: not at all, as part of a picture, or as a
picture joined to another one. -/
inductive Joint
  | free
  | picture (last : Char)
  | joined
deriving DecidableEq, Repr

def startsPicture (c : Char) (next : Option Char) : Bool :=
  isEmoji c || (isTextEmoji c && next = some pictureSelector)
    || (takesSkinTone c && next.any isSkinTone)

def extendsPicture (c : Char) : Joint → Bool
  | .picture last => c = pictureSelector || (isSkinTone c && takesSkinTone last)
  | _ => false

def step (joint : Joint) (c : Char) (next : Option Char) : Nat × Joint :=
  if extendsPicture c joint then (0, .picture c)
  else if startsPicture c next then (if joint = .joined then 0 else 2, .picture c)
  else if c = pictureJoiner && joint != .free then (0, .joined)
  else if c = '\r' && next = some '\n' then (0, .free)
  else if isControl c then (1, .free)
  else (charColumns c, .free)

def columnsAfter (joint : Joint) : List Char → Nat
  | [] => 0
  | c :: rest =>
    let (here, next) := step joint c rest.head?
    here + columnsAfter next rest

/-- The columns that some characters take; a control character takes one. -/
def columns (text : List Char) : Nat := columnsAfter .free text

end PinnedTree.Terminal
