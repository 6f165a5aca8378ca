import Mathlib.Data.List.Basic
import PinnedTree.Text.Hex

namespace PinnedTree.Text

variable {α : Type} {letter : Char → List Char → Prop} {gap : List Char → Prop}
  {item : α → List Char → Prop} {close : Char} {loose : Prop}

def hexNumber? (digits : List Char) : Option Nat :=
  digits.foldlM (fun number c => (hexDigit? c).map (number * 16 + ·)) 0

inductive Spelled (letter : Char → List Char → Prop) : List Char → List Char → Prop
  | nil : Spelled letter [] []
  | cons {c : Char} {cs first rest : List Char} (head : letter c first)
      (tail : Spelled letter cs rest) : Spelled letter (c :: cs) (first ++ rest)

/-- Items with commas between them up to a closing letter; gaps may stand between all of these. The
first item has no comma before it, and a loose series may end with a comma. -/
inductive Series (loose : Prop) (gap : List Char → Prop) (item : α → List Char → Prop)
    (close : Char) : Bool → List α → List Char → Prop
  | done {first : Bool} {space : List Char} (apart : gap space) :
      Series loose gap item close first [] (space ++ [close])
  | trailing {space after : List Char} (allowed : loose) (apart : gap space)
      (apartAfter : gap after) :
      Series loose gap item close false [] (space ++ ',' :: (after ++ [close]))
  | head {x : α} {xs : List α} {space text rest : List Char} (apart : gap space)
      (spelled : item x text) (tail : Series loose gap item close false xs rest) :
      Series loose gap item close true (x :: xs) (space ++ (text ++ rest))
  | next {x : α} {xs : List α} {space after text rest : List Char} (apart : gap space)
      (apartAfter : gap after) (spelled : item x text)
      (tail : Series loose gap item close false xs rest) :
      Series loose gap item close false (x :: xs) (space ++ ',' :: (after ++ (text ++ rest)))

theorem Series.length_pos {first : Bool} {xs : List α} {text : List Char}
    (series : Series loose gap item close first xs text) : 0 < text.length := by
  induction series
  all_goals
    simp only [List.length_append, List.length_cons]
    omega

theorem Series.behind {xs : List α} {text : List Char}
    (series : Series loose gap item close false xs text) :
    (∃ space, gap space ∧ xs = [] ∧ text = space ++ [close]) ∨
      ∃ space more, gap space ∧ text = space ++ ',' :: more ∧
        Series loose gap item close true xs more := by
  cases series with
  | done apart => exact .inl ⟨_, apart, rfl, rfl⟩
  | trailing allowed apart apartAfter => exact .inr ⟨_, _, apart, rfl, .done apartAfter⟩
  | next apart apartAfter spelled tail => exact .inr ⟨_, _, apart, rfl, .head apartAfter spelled tail⟩

end PinnedTree.Text
