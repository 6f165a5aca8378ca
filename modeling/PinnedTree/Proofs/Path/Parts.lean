import PinnedTree.Proofs.Path.Written

namespace PinnedTree.Path

variable {path text first piece : String} {pieces more : List String} {n : Nat}

namespace Spelling

def startOf (piece : String) : Part :=
  if piece = "" then .top else if piece = "." then .here else (partOf? piece).getD .here

def gapAfter (piece : String) : String := if piece = "" then "" else "/"

theorem parts_ofPieces (gap : String) (pieces : List String) :
    (ofPieces gap pieces).map (·.part) = pieces.filterMap partOf? := by
  induction pieces generalizing gap with
  | nil => rfl
  | cons piece rest ih => cases found : partOf? piece <;> simp [ofPieces, found, ih]

theorem startOf_solid (solid : piece ≠ "" ∧ piece ≠ ".") :
    partOf? piece = some (startOf piece) ∧ (startOf piece).text = piece := by
  obtain ⟨part, found, same, -⟩ := partOf_solid solid
  simp [startOf, solid, found, same]

theorem parse_split (filled : text ≠ "") (cut : Text.split '/' text = first :: pieces) :
    parse text = ⟨"", startOf first⟩ :: ofPieces (gapAfter first) pieces := by
  by_cases top : first = ""
  · simp [parse, cut, filled, top, startOf, gapAfter]
  by_cases dot : first = "."
  · simp [parse, cut, filled, dot, startOf, gapAfter]
  · simp [parse, cut, filled, top, dot, gapAfter, ofPieces, (startOf_solid ⟨top, dot⟩).1]

end Spelling

open Spelling

theorem map_part_parse (text : String) : (parse text).map (·.part) = parts text := rfl

theorem parts_split (filled : text ≠ "") (cut : Text.split '/' text = first :: pieces) :
    parts text = startOf first :: pieces.filterMap partOf? := by
  rw [parts, parse_split filled cut, List.map_cons, parts_ofPieces]

theorem parts_empty : parts "" = [] := rfl

theorem exists_split (text : String) : ∃ first pieces, Text.split '/' text = first :: pieces := by
  refine List.exists_cons_of_ne_nil ?_
  simp [Text.split, Text.fields_ne_nil]

theorem parts_eq_nil : parts text = [] ↔ text = "" := by
  refine ⟨fun none => ?_, fun empty => by rw [empty, parts_empty]⟩
  by_contra filled
  obtain ⟨first, pieces, cut⟩ := exists_split text
  simp [parts_split filled cut] at none

theorem plain_of_split (cut : Text.split '/' text = pieces) :
    ∀ piece ∈ pieces, '/' ∉ piece.toList := by
  subst cut
  intro piece member
  obtain ⟨letters, field, rfl⟩ := List.mem_map.mp member
  simpa using Text.notMem_of_mem_fields field

/-- A text from one part on is cut into the piece of that part and pieces that stand for the parts after
it. -/
theorem split_text (gap : String) (plain : ∀ piece ∈ first :: more, '/' ∉ piece.toList) :
    Spelling.text (⟨gap, startOf first⟩ :: ofPieces (gapAfter first) more) ≠ "" ∧
      ∃ kept, Text.split '/' (Spelling.text (⟨gap, startOf first⟩ :: ofPieces (gapAfter first) more))
        = first :: kept ∧ kept.filterMap partOf? = more.filterMap partOf? := by
  obtain ⟨kept, hollow, rfl, empty, -, written⟩ :=
    foldl_ofPieces (startOf first).text (gapAfter first) more
  rw [Spelling.text]
  generalize List.foldl _ _ _ = text at written
  have dropped : hollow.filterMap partOf? = [] := by
    refine List.filterMap_eq_nil_iff.mpr fun piece member => partOf_hollow ?_
    rcases empty piece member with rfl | rfl <;> simp
  rw [List.forall_mem_cons] at plain
  have plainKept : ∀ piece ∈ kept, '/' ∉ piece.toList :=
    fun piece member => plain.2 piece (List.mem_append_left _ member)
  rw [List.filterMap_append, dropped, List.append_nil]
  by_cases top : first = ""
  · subst top
    have slash : text.toList = '/' :: Text.joined '/' (kept.map String.toList) := by
      rw [written]
      cases kept <;> simp [startOf, gapAfter, Part.text, Text.joined]
    refine ⟨fun none => by simp [none] at slash, ?_⟩
    cases kept with
    | nil => exact ⟨[""], Text.split_of_joined (by simp) (by simp) (by simp [slash, Text.joined]), rfl⟩
    | cons next others =>
      refine ⟨next :: others, Text.split_of_joined (by simp) (by simpa using plainKept) ?_, rfl⟩
      rw [slash]
      rfl
  · have spelled : (startOf first).text = first := by
      by_cases dot : first = "."
      · simp [startOf, dot, Part.text]
      · exact (startOf_solid ⟨top, dot⟩).2
    have joined : text.toList = Text.joined '/' ((first :: kept).map String.toList) := by
      rw [written, spelled]
      cases kept <;> simp [gapAfter, top, Text.joined]
    refine ⟨fun none => top ?_, kept, Text.split_of_joined (by simp) ?_ joined, rfl⟩
    · rw [none, spelled] at written
      exact String.toList_eq_nil_iff.mp (List.append_eq_nil_iff.mp written.symm).1
    · exact List.forall_mem_cons.mpr ⟨plain.1, plainKept⟩

theorem drop_ofPieces (gap : String) (pieces : List String) (n : Nat) :
    (ofPieces gap pieces).drop n = [] ∨ ∃ gap' piece more, (piece ≠ "" ∧ piece ≠ ".") ∧
      piece :: more <:+ pieces ∧
      (ofPieces gap pieces).drop n = ⟨gap', startOf piece⟩ :: ofPieces (gapAfter piece) more := by
  induction pieces generalizing gap n with
  | nil => exact .inl (by simp [ofPieces])
  | cons piece rest ih =>
    have later : ∀ gap n, (ofPieces gap rest).drop n = [] ∨ ∃ gap' next more,
        (next ≠ "" ∧ next ≠ ".") ∧ next :: more <:+ piece :: rest ∧
        (ofPieces gap rest).drop n = ⟨gap', startOf next⟩ :: ofPieces (gapAfter next) more := by
      intro gap n
      obtain none | ⟨gap', next, more, solid, ends, same⟩ := ih gap n
      · exact .inl none
      · exact .inr ⟨gap', next, more, solid, ends.trans (List.suffix_cons piece rest), same⟩
    by_cases solid : piece ≠ "" ∧ piece ≠ "."
    · rw [ofPieces, (startOf_solid solid).1]
      cases n with
      | zero => exact .inr ⟨gap, piece, rest, solid, List.suffix_rfl, by simp [gapAfter, solid.1]⟩
      | succ n => exact later "/" n
    · rw [ofPieces, partOf_hollow solid]
      exact later _ n

theorem drop_parse (filled : text ≠ "") (cut : Text.split '/' text = first :: pieces) (n : Nat) :
    (parse text).drop n = [] ∨ ∃ gap piece more, (n ≠ 0 → piece ≠ "" ∧ piece ≠ ".") ∧
      piece :: more <:+ first :: pieces ∧
      (parse text).drop n = ⟨gap, startOf piece⟩ :: ofPieces (gapAfter piece) more := by
  rw [parse_split filled cut]
  cases n with
  | zero => exact .inr ⟨"", first, pieces, by simp, List.suffix_rfl, rfl⟩
  | succ n =>
    obtain none | ⟨gap, piece, more, solid, ends, same⟩ := drop_ofPieces (gapAfter first) pieces n
    · exact .inl none
    · exact .inr ⟨gap, piece, more, fun _ => solid, ends.trans (List.suffix_cons first pieces), same⟩

theorem parts_drop (text : String) (n : Nat) :
    parts (Spelling.text ((parse text).drop n)) = (parts text).drop n := by
  by_cases empty : text = ""
  · subst empty
    simp [parts_empty, parse, Text.split, Text.fields, Spelling.text]
  obtain ⟨first, pieces, cut⟩ := exists_split text
  rw [parts.eq_1 text, ← List.map_drop]
  obtain none | ⟨gap, piece, more, -, ends, same⟩ := drop_parse empty cut n
  · rw [none]
    rfl
  · obtain ⟨filled, kept, split, rest⟩ := split_text gap fun piece member =>
      plain_of_split cut piece (ends.subset member)
    rw [same, parts_split filled split, rest, List.map_cons, parts_ofPieces]

theorem split_appendPiece (filled : path ≠ "") (text : String) :
    Location.appendPiece path text ≠ "" ∧ ∃ first pieces more, Text.split '/' path = first :: pieces ∧
      Text.split '/' (Location.appendPiece path text) = first :: (more ++ Text.split '/' text) ∧
      more.filterMap partOf? = pieces.filterMap partOf? := by
  obtain ⟨empty, -⟩ | ⟨front, ends, written⟩ | ⟨-, written⟩ := Location.appendPiece_eq path text
  · exact absurd empty filled
  · obtain ⟨first, more, cut⟩ := exists_split (String.ofList front)
    rw [Text.split, String.toList_ofList] at cut
    refine ⟨fun none => by simp [none] at written, first, more ++ [""], more, ?_, ?_, ?_⟩
    · simp [Text.split, ends, Text.fields_concat_sep, cut]
    · simp [Text.split, written, Text.fields_append_sep, cut]
    · simp [partOf?]
  · obtain ⟨first, pieces, cut⟩ := exists_split path
    refine ⟨fun none => by simp [none] at written, first, pieces, pieces, cut, ?_, rfl⟩
    rw [Text.split] at cut
    simp [Text.split, written, Text.fields_append_sep, cut]

theorem parts_appendPiece (filled : path ≠ "") (text : String) :
    parts (Location.appendPiece path text) = parts path ++ (Text.split '/' text).filterMap partOf? := by
  obtain ⟨still, first, pieces, more, cut, split, same⟩ := split_appendPiece filled text
  rw [parts_split filled cut, parts_split still split, List.filterMap_append, same, List.cons_append]

theorem startsWith_of_split (cut : Text.split '/' text = first :: pieces) (filled : first ≠ "") :
    Text.startsWith text "/" = false := by
  rw [← Bool.not_eq_true]
  intro anchored
  obtain ⟨rest, same⟩ : ['/'] <+: text.toList := by
    simpa [Text.startsWith, List.isPrefixOf_iff_prefix] using anchored
  rw [Text.split, ← same] at cut
  exact filled (by simpa [Text.fields] using (List.cons.inj cut).1.symm)

theorem parts_join_drop (parent text : String) (inner : (parts text).drop (parts parent).length ≠ []) :
    parts ((Location.ofText parent).join
        (Spelling.text ((parse text).drop (parts parent).length))).text
      = parts parent ++ (parts text).drop (parts parent).length := by
  have filled : text ≠ "" := by
    rintro rfl
    simp [parts_empty] at inner
  obtain ⟨first, pieces, cut⟩ := exists_split text
  rw [← parts_drop] at inner ⊢
  generalize rest : Spelling.text ((parse text).drop (parts parent).length) = c at inner ⊢
  by_cases empty : parent = ""
  · subst empty
    unfold Location.join
    split
    · simp [Location.text, Location.ofText, parts_empty]
    · simp [Location.text, Location.ofText, Location.appendPiece, parts_empty]
  have above : (parts parent).length ≠ 0 := by simpa [parts_eq_nil] using empty
  obtain none | ⟨gap, piece, more, solid, ends, same⟩ := drop_parse filled cut (parts parent).length
  · rw [none] at rest
    subst rest
    exact absurd parts_empty inner
  · obtain ⟨some, kept, split, -⟩ := split_text gap fun piece member =>
      plain_of_split cut piece (ends.subset member)
    rw [← same, rest] at some split
    have relative : Text.startsWith c "/" = false := startsWith_of_split split (solid above).1
    have joined : ((Location.ofText parent).join c).text = Location.appendPiece parent c := by
      simp [Location.join, relative, Location.text, Location.ofText]
    rw [joined, parts_appendPiece empty, split, parts_split some split,
      List.filterMap_cons_some (startOf_solid (solid above)).1]

theorem startOf_eq_name {first : String} : Spelling.startOf first = .name text ↔
    first = text ∧ text ≠ "" ∧ text ≠ "." ∧ text ≠ ".." := by
  by_cases empty : first = ""
  · refine iff_of_false (by simp [Spelling.startOf, empty]) ?_
    rintro ⟨rfl, filled, -⟩
    exact filled empty
  by_cases dot : first = "."
  · refine iff_of_false (by simp [Spelling.startOf, dot]) ?_
    rintro ⟨rfl, -, moving, -⟩
    exact moving dot
  by_cases up : first = ".."
  · refine iff_of_false (by simp [Spelling.startOf, Spelling.partOf?, up]) ?_
    rintro ⟨rfl, -, -, down⟩
    exact down up
  have begins : Spelling.startOf first = .name first := by
    simp [Spelling.startOf, Spelling.partOf?, empty, dot, up]
  rw [begins, Part.name.injEq]
  constructor
  · rintro rfl
    exact ⟨rfl, empty, dot, up⟩
  · exact And.left

theorem parts_eq_name : parts text = [.name text] ↔ IsName text := by
  by_cases empty : text = ""
  · subst empty
    exact iff_of_false (by simp [parts_empty]) fun named => named.1 rfl
  obtain ⟨first, pieces, cut⟩ := exists_split text
  rw [parts_split empty cut, List.cons.injEq, startOf_eq_name]
  constructor
  · rintro ⟨⟨rfl, filled, moving, down⟩, -⟩
    exact ⟨filled, moving, down, plain_of_split cut first List.mem_cons_self⟩
  · rintro ⟨filled, moving, down, unslashed⟩
    have single : first = text ∧ pieces = [] := by
      simpa [Text.split, Text.fields_of_notMem unslashed, eq_comm] using cut
    obtain ⟨rfl, rfl⟩ := single
    exact ⟨⟨rfl, filled, moving, down⟩, rfl⟩

theorem split_name (named : IsName text) : Text.split '/' text = [text] := by
  rw [Text.split, Text.fields_of_notMem named.2.2.2]
  simp

theorem parts_appendPiece_name (path : String) (named : IsName text) :
    parts (Location.appendPiece path text) = parts path ++ [.name text] := by
  by_cases empty : path = ""
  · simp [empty, Location.appendPiece, parts_empty, parts_eq_name.mpr named]
  · rw [parts_appendPiece empty, split_name named]
    simp [partOf?, named.1, named.2.1, named.2.2.1]

theorem parent_of_parse {front : List Spelled} {gap : String} {part : Part} (below : part ≠ .top)
    (parsed : parse text = front ++ [⟨gap, part⟩]) : parent? text = some (Spelling.text front) := by
  rw [parent?, parsed, List.getLast?_concat, List.dropLast_concat]
  cases part <;> simp_all

theorem parent_appendPiece (path : String) (named : IsName text) :
    ∃ above, parent? (Location.appendPiece path text) = some above ∧ parts above = parts path := by
  have solid : text ≠ "" ∧ text ≠ "." := ⟨named.1, named.2.1⟩
  by_cases empty : path = ""
  · subst empty
    have parsed : parse text = [] ++ [⟨"", startOf text⟩] := by
      rw [parse_split named.1 (split_name named)]
      rfl
    refine ⟨"", ?_, rfl⟩
    exact parent_of_parse (by simp [startOf_eq_name.mpr ⟨rfl, named.1, named.2.1, named.2.2.1⟩]) parsed
  · obtain ⟨still, first, pieces, more, cut, split, same⟩ := split_appendPiece empty text
    rw [split_name named] at split
    have ends : ∀ piece ∈ ([] : List String), piece = "" ∨ piece = "." := by simp
    obtain ⟨gap, part, below, last⟩ := ofPieces_concat (gapAfter first) more solid ends
    have parsed := parse_split still split
    rw [last, ← List.cons_append] at parsed
    refine ⟨_, parent_of_parse below parsed, ?_⟩
    have plain : ∀ piece ∈ first :: more, '/' ∉ piece.toList := fun piece member =>
      plain_of_split split piece (List.mem_append_left [text] member)
    obtain ⟨filled, kept, whole, rest⟩ := split_text "" plain
    rw [parts_split filled whole, rest, same, parts_split empty cut]

end PinnedTree.Path
