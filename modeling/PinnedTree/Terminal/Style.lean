import PinnedTree.Text.Fields

namespace PinnedTree

/-- A terminal: how wide it is and whether it shows styles. -/
structure Terminal where
  width : Nat := 80
  styled : Bool := false
deriving DecidableEq, Repr

namespace Terminal

inductive Style
  | bold
  | dim
  | red
  | green
  | yellow
  | blue
  | cyan
  | boldRed
  | boldCyan
deriving DecidableEq, Repr

def Style.code : Style → String
  | .bold => "1"
  | .dim => "2"
  | .red => "31"
  | .green => "32"
  | .yellow => "33"
  | .blue => "34"
  | .cyan => "36"
  | .boldRed => "1;31"
  | .boldCyan => "1;36"

def Style.start (style : Style) : String := "\x1b[" ++ style.code ++ "m"

def reset : String := "\x1b[0m"

/-- A text in a style, which is selected again wherever the text itself ends it. -/
def paint (terminal : Terminal) (style : Style) (text : String) : String :=
  if terminal.styled then
    style.start ++ Text.replace text reset (reset ++ style.start) ++ reset
  else text

theorem paint_plain {terminal : Terminal} (plain : terminal.styled = false) (style : Style)
    (text : String) : terminal.paint style text = text := by simp [paint, plain]

end Terminal

end PinnedTree
