import PinnedTree.Text.Blank
import PinnedTree.Text.Marks

namespace PinnedTree.Text

def hex (n : Nat) : String := String.ofList (Nat.toDigits 16 n)

def isShown (c : Char) : Bool :=
  c = ' ' ||
    !(c.toNat < 0x20 || (0x7F ≤ c.toNat && c.toNat < 0xA0) || isBlank c || isMark c || isFormat c
      || (0xE000 ≤ c.toNat && c.toNat ≤ 0xF8FF) || 0xF0000 ≤ c.toNat)

def quotedChar (c : Char) : String :=
  if c = '"' then "\\\"" else if c = '\\' then "\\\\"
  else if c = '\t' then "\\t" else if c = '\r' then "\\r" else if c = '\n' then "\\n"
  else if c.toNat = 0 then "\\0"
  else if isShown c then c.toString
  else "\\u\x7b" ++ hex c.toNat ++ "\x7d"

/-- A text between quotes. -/
def quoted (s : String) : String := "\"" ++ String.join (s.toList.map quotedChar) ++ "\""

end PinnedTree.Text
