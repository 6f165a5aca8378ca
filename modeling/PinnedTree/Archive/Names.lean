import PinnedTree.Destination

namespace PinnedTree.Archive

def isSeparator (c : Char) : Bool := c = '/' || c = '\\'

def withoutDrive (name : List Char) : List Char :=
  match name with
  | a :: b :: rest =>
    if b = ':' && a.isAlpha then rest
    else if isSeparator a && isSeparator b then
      let share := rest.dropWhile (!isSeparator ·)
      let server := rest.takeWhile (!isSeparator ·)
      let path := (share.drop 1).dropWhile (!isSeparator ·)
      if server.isEmpty || ((share.drop 1).takeWhile (!isSeparator ·)).isEmpty then name else path
    else name
  | _ => name

def pieces (name : List Char) : List String :=
  (Text.fields '/' (name.map fun c => if isSeparator c then '/' else c)).map String.ofList

/-- Walks the pieces of a name from a directory; climbing above the start is refused. -/
def walk (below : List String) : List String → Option (List String)
  | [] => some below
  | piece :: rest =>
    if piece = "" || piece = "." then walk below rest
    else if piece = ".." then if below.isEmpty then none else walk below.dropLast rest
    else walk (below ++ [piece]) rest

/-- The path that the library for archives gives for a name, unless it leads outside. -/
def path? (name : String) : Option (List String) :=
  if name.toList.contains '\x00' then none else walk [] (pieces (withoutDrive name.toList))

def isDirectoryName (name : String) : Bool := name.toList.getLast?.any isSeparator

def liesIn (top : String) (entry : List String × Bool) : Bool :=
  match entry.1 with
  | [] => false
  | [name] => name = top && entry.2
  | name :: _ => name = top

/-- The directory at the top that holds all entries, if there is one with a name and something in
it. An entry is given by the parts of its path and whether it is a directory. -/
def commonTop? (entries : List (List String × Bool)) : Option String :=
  match entries with
  | (top :: _, _) :: _ =>
    if top ≠ "." && top ≠ ".." && entries.all (liesIn top)
      && entries.any fun entry => 2 ≤ entry.1.length then some top
    else none
  | _ => none

theorem isName_of_walk {below parts result : List String} (plain : ∀ name ∈ below, IsName name)
    (slashless : ∀ part ∈ parts, '/' ∉ part.toList) (walked : walk below parts = some result) :
    ∀ name ∈ result, IsName name := by
  induction parts generalizing below with
  | nil =>
    simp only [walk, Option.some.injEq] at walked
    exact walked ▸ plain
  | cons part rest ih =>
    have later : ∀ p ∈ rest, '/' ∉ p.toList := fun p member =>
      slashless p (List.mem_cons_of_mem _ member)
    simp only [walk] at walked
    split at walked
    · exact ih plain later walked
    · rename_i moving
      split at walked
      · split at walked
        · exact absurd walked nofun
        · exact ih (fun name member => plain name ((List.dropLast_sublist _).subset member))
            later walked
      · rename_i down
        refine ih (fun name member => ?_) later walked
        rcases List.mem_append.mp member with member | member
        · exact plain name member
        · simp only [List.mem_singleton] at member
          subst member
          simp only [Bool.or_eq_true, decide_eq_true_eq, not_or] at moving
          exact ⟨moving.1, moving.2, down, slashless _ List.mem_cons_self⟩

theorem isName_of_path {name : String} {path : List String} (found : path? name = some path) :
    ∀ part ∈ path, IsName part := by
  simp only [path?] at found
  split at found
  · exact absurd found nofun
  · refine isName_of_walk (by simp) (fun part member => ?_) found
    simp only [pieces, List.mem_map] at member
    obtain ⟨letters, field, rfl⟩ := member
    simpa using Text.notMem_of_mem_fields field

end PinnedTree.Archive
