namespace PinnedTree.Text

/-- The pieces between the occurrences of the separator; a text without one is a single piece. -/
def fields (sep : Char) : List Char → List (List Char)
  | [] => [[]]
  | c :: rest =>
    if c = sep then [] :: fields sep rest
    else match fields sep rest with
      | [] => [[c]]
      | piece :: pieces => (c :: piece) :: pieces

def joined (sep : Char) : List (List Char) → List Char
  | [] => []
  | [piece] => piece
  | piece :: pieces => piece ++ sep :: joined sep pieces

def split (sep : Char) (s : String) : List String :=
  (fields sep s.toList).map String.ofList

def join (sep : Char) (pieces : List String) : String :=
  String.ofList (joined sep (pieces.map String.toList))

def startsWith (s start : String) : Bool := start.toList.isPrefixOf s.toList

def endsWith (s ending : String) : Bool := ending.toList.isSuffixOf s.toList

def dropStart? (s start : String) : Option String :=
  if startsWith s start then some (String.ofList (s.toList.drop start.toList.length)) else none

def cutFirst? (sep : Char) (s : String) : Option (String × String) :=
  if sep ∈ s.toList then
    some (String.ofList (s.toList.takeWhile (· ≠ sep)),
      String.ofList ((s.toList.dropWhile (· ≠ sep)).drop 1))
  else none

def cutLast? (sep : Char) (s : String) : Option (String × String) :=
  let back := s.toList.reverse
  if sep ∈ back then
    some (String.ofList ((back.dropWhile (· ≠ sep)).drop 1).reverse,
      String.ofList (back.takeWhile (· ≠ sep)).reverse)
  else none

def occurs (pattern : List Char) : List Char → Bool
  | [] => pattern.isEmpty
  | c :: rest => pattern.isPrefixOf (c :: rest) || occurs pattern rest

/-- Every occurrence of the pattern replaced, from left to right; `skip` counts the letters of an
occurrence that are still to be passed over. -/
def replaceFrom (pattern replacement : List Char) (skip : Nat) : List Char → List Char
  | [] => []
  | c :: rest =>
    match skip with
    | n + 1 => replaceFrom pattern replacement n rest
    | 0 =>
      if pattern.isPrefixOf (c :: rest) then
        replacement ++ replaceFrom pattern replacement (pattern.length - 1) rest
      else c :: replaceFrom pattern replacement 0 rest

/-- Every occurrence of a non-empty pattern replaced. -/
def replace (s pattern replacement : String) : String :=
  if pattern.isEmpty then s
  else String.ofList (replaceFrom pattern.toList replacement.toList 0 s.toList)

theorem fields_of_notMem {sep : Char} {piece : List Char} (absent : sep ∉ piece) :
    fields sep piece = [piece] := by
  induction piece with
  | nil => rfl
  | cons c rest ih =>
    simp only [List.mem_cons, not_or] at absent
    simp [fields, Ne.symm absent.1, ih absent.2]

theorem fields_append {sep : Char} {piece rest : List Char} (absent : sep ∉ piece) :
    fields sep (piece ++ sep :: rest) = piece :: fields sep rest := by
  induction piece with
  | nil => simp [fields]
  | cons c cs ih =>
    simp only [List.mem_cons, not_or] at absent
    simp [fields, Ne.symm absent.1, ih absent.2]

theorem notMem_of_mem_fields {sep : Char} {text piece : List Char}
    (member : piece ∈ fields sep text) : sep ∉ piece := by
  induction text generalizing piece with
  | nil =>
    simp only [fields, List.mem_singleton] at member
    simp [member]
  | cons c rest ih =>
    simp only [fields] at member
    split at member
    · rcases List.mem_cons.mp member with rfl | member
      · simp
      · exact ih member
    · rename_i different
      cases cut : fields sep rest with
      | nil =>
        simp only [cut, List.mem_singleton] at member
        subst member
        simpa using fun same => different same.symm
      | cons first others =>
        simp only [cut, List.mem_cons] at member
        rcases member with rfl | member
        · simp only [List.mem_cons, not_or]
          exact ⟨fun same => different same.symm, ih (by simp [cut])⟩
        · exact ih (by simp [cut, member])

theorem fields_joined {sep : Char} {pieces : List (List Char)} (some_piece : pieces ≠ [])
    (absent : ∀ piece ∈ pieces, sep ∉ piece) : fields sep (joined sep pieces) = pieces := by
  induction pieces with
  | nil => exact absurd rfl some_piece
  | cons piece pieces ih =>
    cases pieces with
    | nil => simpa [joined] using fields_of_notMem (absent piece (by simp))
    | cons next others =>
      simp only [joined]
      rw [fields_append (absent piece (by simp)),
        ih (by simp) (fun p member => absent p (List.mem_cons_of_mem _ member))]

theorem split_of_joined {sep : Char} {pieces : List String} {text : String}
    (some_piece : pieces ≠ []) (absent : ∀ piece ∈ pieces, sep ∉ piece.toList)
    (written : text.toList = joined sep (pieces.map String.toList)) : split sep text = pieces := by
  rw [split, written, fields_joined (by simpa using some_piece) (by simpa using absent)]
  simp

end PinnedTree.Text
