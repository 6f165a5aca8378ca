import PinnedTree.Destination
import PinnedTree.Proofs.Disk.Root

namespace PinnedTree

namespace Text

theorem fields_append_sep (sep : Char) (front back : List Char) :
    fields sep (front ++ sep :: back) = fields sep front ++ fields sep back := by
  induction front with
  | nil => simp [fields]
  | cons c rest ih =>
    simp only [List.cons_append, fields, ih]
    split
    · rfl
    · cases cut : fields sep rest with
      | nil => exact absurd cut (fields_ne_nil sep rest)
      | cons piece pieces => rfl

theorem joined_cons (sep : Char) {piece : List Char} {pieces : List (List Char)}
    (more : pieces ≠ []) : joined sep (piece :: pieces) = piece ++ sep :: joined sep pieces := by
  obtain ⟨next, others, rfl⟩ := List.exists_cons_of_ne_nil more
  rfl

theorem joined_append (sep : Char) {front back : List (List Char)} (first : front ≠ [])
    (second : back ≠ []) :
    joined sep (front ++ back) = joined sep front ++ sep :: joined sep back := by
  induction front with
  | nil => exact absurd rfl first
  | cons piece pieces ih =>
    rw [List.cons_append, joined_cons sep (by simp [second])]
    cases pieces with
    | nil => rfl
    | cons next others =>
      rw [ih (by simp), joined_cons sep (List.cons_ne_nil next others), List.append_assoc]
      rfl

theorem joined_fields (sep : Char) (text : List Char) : joined sep (fields sep text) = text := by
  induction text with
  | nil => rfl
  | cons c rest ih =>
    have filled := fields_ne_nil sep rest
    simp only [fields]
    split
    · rename_i same
      rw [joined_cons sep filled, ih, same, List.nil_append]
    · obtain ⟨piece, pieces, cut⟩ := List.exists_cons_of_ne_nil filled
      rw [cut] at ih
      simp only [cut]
      cases pieces with
      | nil => rw [joined, ← ih]; rfl
      | cons next others =>
        rw [← ih, joined_cons sep (List.cons_ne_nil next others),
          joined_cons sep (List.cons_ne_nil next others), List.cons_append]

end Text

inductive Undotted : List String → List String → Prop
  | nil : Undotted [] []
  | keep (name : String) {pieces fewer : List String} (rest : Undotted pieces fewer) :
    Undotted (name :: pieces) (name :: fewer)
  | drop {pieces fewer : List String} (rest : Undotted pieces fewer) :
    Undotted ("." :: pieces) fewer

namespace Undotted

variable {pieces fewer : List String}

theorem refl (pieces : List String) : Undotted pieces pieces := by
  induction pieces with
  | nil => exact .nil
  | cons name rest ih => exact .keep name ih

theorem append {more less : List String} (first : Undotted pieces fewer)
    (second : Undotted more less) : Undotted (pieces ++ more) (fewer ++ less) := by
  induction first with
  | nil => exact second
  | keep name _ ih => exact .keep name ih
  | drop _ ih => exact .drop ih

theorem dots {dots : List String} (all : ∀ dot ∈ dots, dot = ".") : Undotted dots [] := by
  induction dots with
  | nil => exact .nil
  | cons dot rest ih =>
    obtain ⟨rfl, others⟩ := List.forall_mem_cons.mp all
    exact .drop (ih others)

end Undotted

namespace Location

variable {path : String} {names : List String}

def written (path : String) (names : List String) : Location :=
  ofText ((ofText path).below names).text

theorem text_below_concat (path : String) (names : List String) (name : String) :
    ((ofText path).below (names ++ [name])).text
      = appendPiece ((ofText path).below names).text name := by
  simp [text, below, ofText]

theorem appendPiece_eq (path piece : String) :
    (path = "" ∧ appendPiece path piece = piece) ∨
      (∃ front, path.toList = front ++ ['/'] ∧
        (appendPiece path piece).toList = front ++ '/' :: piece.toList) ∨
      (path ≠ "" ∧ (appendPiece path piece).toList = path.toList ++ '/' :: piece.toList) := by
  unfold appendPiece
  by_cases empty : path = ""
  · simp [empty]
  by_cases slashed : Text.endsWith path "/" = true
  · right; left
    obtain ⟨front, same⟩ : ['/'] <:+ path.toList := by
      simpa [Text.endsWith, List.isSuffixOf_iff_suffix] using slashed
    exact ⟨front, same.symm, by simp [slashed, ← same]⟩
  · right; right
    simp [empty, slashed]

theorem utf8ByteSize_appendPiece (path piece : String) :
    path.utf8ByteSize + piece.utf8ByteSize ≤ (appendPiece path piece).utf8ByteSize := by
  unfold appendPiece
  split <;> simp only [String.utf8ByteSize_append] <;> omega

def filled (text : String) : List (List Char) := (Text.fields '/' text.toList).filter (· ≠ [])

theorem fields_appendPiece (path : String) {piece : String} (plain : IsName piece) :
    ∃ front, Text.fields '/' (appendPiece path piece).toList = front ++ [piece.toList] ∧
      front.filter (· ≠ []) = filled path := by
  obtain ⟨-, -, -, unslashed⟩ := plain
  have single := Text.fields_of_notMem unslashed
  rcases appendPiece_eq path piece with ⟨empty, same⟩ | ⟨front, slashed, same⟩ | ⟨-, same⟩
  · exact ⟨[], by rw [same, single]; rfl, by rw [empty]; rfl⟩
  · refine ⟨Text.fields '/' front, by rw [same, Text.fields_append_sep, single], ?_⟩
    rw [filled, slashed, Text.fields_concat_sep]
    simp
  · exact ⟨Text.fields '/' path.toList, by rw [same, Text.fields_append_sep, single], rfl⟩

theorem filled_text (plain : ∀ name ∈ names, IsName name) :
    filled ((ofText path).below names).text = filled path ++ names.map String.toList := by
  induction names using List.reverseRecOn with
  | nil => simp [text, below, ofText]
  | append_singleton names name ih =>
    obtain ⟨front, cut, same⟩ := fields_appendPiece ((ofText path).below names).text
      (plain name (by simp))
    have named : name.toList ≠ [] := by
      simpa using (plain name (by simp)).1
    rw [text_below_concat, filled, cut, List.filter_append, same,
      ih fun n member => plain n (List.mem_append_left _ member)]
    simp [named]

def pieces (path : String) : List String := (filled path).map String.ofList

theorem split_filled (path : String) : (Text.split '/' path).filter (· ≠ "") = pieces path := by
  simp only [Text.split, pieces, filled, List.filter_map]
  congr 1
  refine List.filter_congr fun piece _ => ?_
  simp

theorem undotted_segments (path : String) : Undotted (ofText path).segments (pieces path) := by
  rw [segments, ofText, split_filled, List.append_nil]
  split
  · have := (Undotted.refl (pieces path)).append (.drop .nil)
    rwa [List.append_nil] at this
  · have := (Undotted.refl (pieces path)).append .nil
    rwa [List.append_nil] at this ⊢

theorem not_slash_end {piece : String} (plain : IsName piece) (path : String) :
    Text.endsWith (appendPiece path piece) "/" = false := by
  obtain ⟨named, -, -, unslashed⟩ := plain
  rw [← Bool.not_eq_true]
  intro slashed
  obtain ⟨front, same⟩ : ['/'] <:+ (appendPiece path piece).toList := by
    simpa [Text.endsWith, List.isSuffixOf_iff_suffix] using slashed
  have ends : ∃ before, (appendPiece path piece).toList = before ++ piece.toList := by
    rcases appendPiece_eq path piece with ⟨-, whole⟩ | ⟨before, -, whole⟩ | ⟨-, whole⟩
    · exact ⟨[], by rw [whole]; rfl⟩
    · exact ⟨before ++ ['/'], by simp [whole]⟩
    · exact ⟨path.toList ++ ['/'], by simp [whole]⟩
  obtain ⟨before, whole⟩ := ends
  have last : (appendPiece path piece).toList.getLast? = some '/' := by
    rw [← same]
    simp
  have letters : piece.toList ≠ [] := by simpa using named
  rw [whole, List.getLast?_append, List.getLast?_eq_some_getLast letters, Option.some_or,
    Option.some.injEq] at last
  exact unslashed (last ▸ List.getLast_mem letters)

theorem written_not_slashed (inner : names ≠ []) (plain : ∀ name ∈ names, IsName name) :
    Text.endsWith ((ofText path).below names).text "/" = false := by
  obtain ⟨init, last, rfl⟩ : ∃ init last, names = init ++ [last] :=
    ⟨_, _, (List.dropLast_concat_getLast inner).symm⟩
  rw [text_below_concat]
  exact not_slash_end (plain last (by simp)) _

theorem written_segments (inner : names ≠ []) (plain : ∀ name ∈ names, IsName name) :
    (written path names).segments = pieces path ++ names := by
  have same : pieces ((ofText path).below names).text = pieces path ++ names := by
    simp [pieces, filled_text plain]
  rw [written, segments, ofText, split_filled, written_not_slashed inner plain, same]
  simp

theorem written_bare (inner : names ≠ []) (plain : ∀ name ∈ names, IsName name) :
    (written path names).bare = written path names := by
  rw [bare, asksForDir, written, ofText, written_not_slashed inner plain]
  simp

theorem startsWith_appendPiece {piece : String} (plain : IsName piece) :
    Text.startsWith (appendPiece path piece) "/" = Text.startsWith path "/" := by
  obtain ⟨named, -, -, unslashed⟩ := plain
  rcases appendPiece_eq path piece with ⟨empty, same⟩ | ⟨front, slashed, same⟩ | ⟨filled, same⟩
  · rw [same, empty]
    cases letters : piece.toList with
    | nil => simp [Text.startsWith, letters]
    | cons c rest =>
      have other : '/' ≠ c := fun slash => unslashed (by rw [letters, slash]; exact List.mem_cons_self)
      simp [Text.startsWith, letters, List.isPrefixOf, other]
  · cases front <;> simp [Text.startsWith, slashed, same, List.isPrefixOf]
  · have letters : path.toList ≠ [] := by simpa using filled
    obtain ⟨c, rest, cut⟩ := List.exists_cons_of_ne_nil letters
    simp [Text.startsWith, same, cut, List.isPrefixOf]

theorem written_anchored (plain : ∀ name ∈ names, IsName name) :
    (written path names).anchored = (ofText path).anchored := by
  induction names using List.reverseRecOn with
  | nil => rfl
  | append_singleton names name ih =>
    have before := ih fun n member => plain n (List.mem_append_left _ member)
    rw [← before, written, text_below_concat]
    exact startsWith_appendPiece (plain name (by simp))

end Location

namespace Path.Spelling

theorem partOf_solid {piece : String} (solid : piece ≠ "" ∧ piece ≠ ".") :
    ∃ part, partOf? piece = some part ∧ part.text = piece ∧ part ≠ .top := by
  unfold partOf?
  rw [if_neg (by simp [solid])]
  split
  · rename_i same
    exact ⟨_, rfl, same.symm, by simp⟩
  · exact ⟨_, rfl, rfl, by simp⟩

theorem partOf_hollow {piece : String} (hollow : ¬ (piece ≠ "" ∧ piece ≠ ".")) :
    partOf? piece = none := by
  have empty : piece = "" ∨ piece = "." := by simpa only [not_and_or, not_not] using hollow
  rcases empty with rfl | rfl <;> rfl

theorem ofPieces_hollow (gap : String) {pieces : List String}
    (hollow : ∀ piece ∈ pieces, piece = "" ∨ piece = ".") : ofPieces gap pieces = [] := by
  induction pieces generalizing gap with
  | nil => rfl
  | cons piece pieces ih =>
    have empty : partOf? piece = none := partOf_hollow (by
      rcases hollow piece (by simp) with rfl | rfl <;> simp)
    simp only [ofPieces, empty]
    exact ih _ fun p member => hollow p (List.mem_cons_of_mem _ member)

theorem ofPieces_concat (gap : String) (pieces : List String) {last : String} {tail : List String}
    (solid : last ≠ "" ∧ last ≠ ".") (hollow : ∀ piece ∈ tail, piece = "" ∨ piece = ".") :
    ∃ gap' part, part ≠ .top ∧
      ofPieces gap (pieces ++ last :: tail) = ofPieces gap pieces ++ [⟨gap', part⟩] := by
  induction pieces generalizing gap with
  | nil =>
    obtain ⟨part, found, -, other⟩ := partOf_solid solid
    exact ⟨gap, part, other, by simp [ofPieces, found, ofPieces_hollow _ hollow]⟩
  | cons piece pieces ih =>
    simp only [List.cons_append, ofPieces]
    cases partOf? piece with
    | none => exact ih _
    | some part =>
      obtain ⟨gap', final, other, same⟩ := ih "/"
      exact ⟨gap', final, other, by simp [same]⟩

theorem foldl_ofPieces (written gap : String) (pieces : List String) :
    ∃ kept hollow, pieces = kept ++ hollow ∧ (∀ piece ∈ hollow, piece = "" ∨ piece = ".") ∧
      (∀ piece, kept.getLast? = some piece → piece ≠ "") ∧
      ((ofPieces gap pieces).foldl (fun text next => text ++ next.gap ++ next.part.text)
          written).toList
        = written.toList ++ if kept = [] then [] else gap.toList
          ++ Text.joined '/' (kept.map String.toList) := by
  induction pieces generalizing written gap with
  | nil => exact ⟨[], [], by simp [ofPieces]⟩
  | cons piece pieces ih =>
    by_cases solid : piece ≠ "" ∧ piece ≠ "."
    · obtain ⟨part, found, same, -⟩ := partOf_solid solid
      obtain ⟨kept, hollow, rfl, empty, ends, text⟩ := ih (written ++ gap ++ piece) "/"
      refine ⟨piece :: kept, hollow, rfl, empty, ?_, ?_⟩
      · intro last found
        cases kept with
        | nil =>
          simp only [List.getLast?_singleton, Option.some.injEq] at found
          exact found ▸ solid.1
        | cons next more => exact ends last (by simpa [List.getLast?_cons_cons] using found)
      · simp only [ofPieces, found, List.foldl_cons, same, text]
        cases kept with
        | nil => simp [Text.joined]
        | cons next more =>
          simp only [List.map_cons, String.toList_append, reduceCtorEq, if_false,
            Text.joined_cons '/' (List.cons_ne_nil next.toList (more.map String.toList))]
          simp
    · obtain ⟨kept, hollow, rfl, empty, ends, text⟩ := ih written (gap ++ piece ++ "/")
      have emptyPiece : piece = "" ∨ piece = "." := by
        simpa only [not_and_or, not_not] using solid
      have passed : ofPieces gap (piece :: (kept ++ hollow))
          = ofPieces (gap ++ piece ++ "/") (kept ++ hollow) := by
        simp [ofPieces, partOf_hollow solid]
      rw [passed, text]
      cases kept with
      | nil => exact ⟨[], piece :: hollow, rfl, by simpa [emptyPiece] using empty, by simp, rfl⟩
      | cons next more =>
        refine ⟨piece :: next :: more, hollow, rfl, empty, by simpa [List.getLast?_cons_cons]
          using ends, ?_⟩
        simp only [List.map_cons, String.toList_append, reduceCtorEq, if_false,
          Text.joined_cons '/' (List.cons_ne_nil next.toList (more.map String.toList))]
        simp

theorem parent_spelled {start : Part} {gap : String} {pieces : List String} {last : String}
    {tail : List String} (solid : last ≠ "" ∧ last ≠ ".")
    (bare : ∀ piece ∈ tail, piece = "" ∨ piece = ".") {text : String}
    (parsed : parse text = ⟨"", start⟩ :: ofPieces gap (pieces ++ last :: tail)) :
    ∃ kept hollow, pieces = kept ++ hollow ∧ (∀ piece ∈ hollow, piece = "" ∨ piece = ".") ∧
      (∀ piece, kept.getLast? = some piece → piece ≠ "") ∧
      ∃ above, Path.parent? text = some above ∧
        above.toList = start.text.toList ++ if kept = [] then [] else gap.toList
          ++ Text.joined '/' (kept.map String.toList) := by
  obtain ⟨kept, hollow, same, empty, ends, written⟩ := foldl_ofPieces start.text gap pieces
  obtain ⟨gap', part, other, whole⟩ := ofPieces_concat gap pieces solid bare
  refine ⟨kept, hollow, same, empty, ends, Spelling.text (⟨"", start⟩ :: ofPieces gap pieces), ?_,
    written⟩
  rw [Path.parent?, parsed, whole, ← List.cons_append, List.getLast?_concat, List.dropLast_concat]
  split
  · rename_i impossible
    cases impossible
  · rename_i impossible
    cases impossible
    exact absurd rfl other
  · rfl

theorem parent_split {first : String} {pieces : List String} {last : String} {tail : List String}
    (solid : last ≠ "" ∧ last ≠ ".") (bare : ∀ piece ∈ tail, piece = "" ∨ piece = ".")
    {text : String} (cut : Text.split '/' text = first :: (pieces ++ last :: tail)) :
    ∃ kept hollow, pieces = kept ++ hollow ∧ (∀ piece ∈ hollow, piece = "" ∨ piece = ".") ∧
      (∀ piece, kept.getLast? = some piece → piece ≠ "") ∧
      ∃ above, Path.parent? text = some above ∧
        above.toList = if first = "" ∧ kept = [] then ['/'] else
          Text.joined '/' ((first :: kept).map String.toList) := by
  have filled : text ≠ "" := by
    rintro rfl
    simp [Text.split, Text.fields] at cut
  have joins : ∀ (start : List Char) (kept : List String), kept ≠ [] →
      Text.joined '/' (start :: kept.map String.toList)
        = start ++ '/' :: Text.joined '/' (kept.map String.toList) := fun start kept inner =>
    Text.joined_cons '/' (by simpa using inner)
  by_cases top : first = ""
  · have parsed : parse text = ⟨"", .top⟩ :: ofPieces "" (pieces ++ last :: tail) := by
      simp [parse, cut, filled, top]
    obtain ⟨kept, hollow, same, empty, ends, above, found, written⟩ := parent_spelled solid bare parsed
    refine ⟨kept, hollow, same, empty, ends, above, found, written.trans ?_⟩
    by_cases none : kept = []
    · simp [top, none, Part.text]
    · simp [joins _ kept none, top, none, Part.text]
  by_cases here : first = "."
  · have parsed : parse text = ⟨"", .here⟩ :: ofPieces "/" (pieces ++ last :: tail) := by
      simp [parse, cut, filled, here]
    obtain ⟨kept, hollow, same, empty, ends, above, found, written⟩ := parent_spelled solid bare parsed
    refine ⟨kept, hollow, same, empty, ends, above, found, written.trans ?_⟩
    by_cases none : kept = []
    · simp [here, none, Part.text, Text.joined]
    · simp [joins _ kept none, here, none, Part.text]
  · obtain ⟨part, found, same, -⟩ := partOf_solid ⟨top, here⟩
    have parsed : parse text = ⟨"", part⟩ :: ofPieces "/" (pieces ++ last :: tail) := by
      simp [parse, cut, filled, top, here, ofPieces, found]
    obtain ⟨kept, hollow, whole, empty, ends, above, found, written⟩ := parent_spelled solid bare parsed
    refine ⟨kept, hollow, whole, empty, ends, above, found, written.trans ?_⟩
    by_cases none : kept = []
    · simp [top, none, same, Text.joined]
    · simp [joins _ kept none, top, none, same]

end Path.Spelling

namespace Location

variable {path : String} {names : List String}

theorem segments_ofText {first : String} {kept : List String}
    (unslashed : ∀ piece ∈ first :: kept, '/' ∉ piece.toList)
    (ends : ∀ piece, (first :: kept).getLast? = some piece → piece ≠ "") {text : String}
    (written : text.toList = Text.joined '/' ((first :: kept).map String.toList)) :
    (ofText text).segments = (first :: kept).filter (· ≠ "") := by
  have cut : Text.fields '/' text.toList = (first :: kept).map String.toList := by
    rw [written]
    refine Text.fields_joined (by simp) fun piece member => ?_
    obtain ⟨name, there, rfl⟩ := List.mem_map.mp member
    exact unslashed name there
  have notSlashed : Text.endsWith text "/" = false := by
    rw [← Bool.not_eq_true]
    intro slashed
    obtain ⟨front, same⟩ : ['/'] <:+ text.toList := by
      simpa [Text.endsWith, List.isSuffixOf_iff_suffix] using slashed
    rw [← same, Text.fields_concat_sep] at cut
    have last := congrArg List.getLast? cut
    rw [List.getLast?_concat, List.getLast?_map] at last
    obtain ⟨piece, found, empty⟩ := Option.map_eq_some_iff.mp last.symm
    exact ends piece found (by simpa using empty)
  rw [segments, ofText, Text.split, cut, notSlashed]
  simp [Function.comp_def]

theorem parent_of_split {front tail : List String} {last text : String}
    (solid : last ≠ "" ∧ last ≠ ".") (bare : ∀ piece ∈ tail, piece = "" ∨ piece = ".")
    (cut : Text.split '/' text = front ++ last :: tail) :
    ∃ above, Path.parent? text = some above ∧ above.toList <+: text.toList ∧
      ∃ fewer, Undotted (front.filter (· ≠ "")) fewer ∧
        ((ofText above).segments = fewer ∨ fewer = [] ∧ (ofText above).segments = ["."]) := by
  have whole : Text.joined '/' ((front ++ last :: tail).map String.toList) = text.toList := by
    rw [← Text.joined_fields '/' text.toList, ← cut]
    simp [Text.split, Function.comp_def]
  have unslashed : ∀ piece ∈ front, '/' ∉ piece.toList := by
    intro piece member
    have there : piece ∈ Text.split '/' text := cut ▸ List.mem_append_left _ member
    obtain ⟨field, inside, rfl⟩ := List.mem_map.mp there
    rw [String.toList_ofList]
    exact Text.notMem_of_mem_fields inside
  cases front with
  | nil =>
    have filled : text ≠ "" := by
      rintro rfl
      have empty : Text.split '/' "" = [""] := rfl
      rw [empty] at cut
      exact solid.1 (List.cons.inj cut).1.symm
    obtain ⟨part, found, -, other⟩ := Path.Spelling.partOf_solid solid
    have parsed : Path.Spelling.parse text = [⟨"", part⟩] := by
      simp [Path.Spelling.parse, cut, filled, solid, Path.Spelling.ofPieces, found,
        Path.Spelling.ofPieces_hollow _ bare]
    refine ⟨"", ?_, by simp, [], .nil, .inl rfl⟩
    rw [Path.parent?, parsed, List.getLast?_singleton]
    split
    · rename_i impossible
      cases impossible
    · rename_i impossible
      cases impossible
      exact absurd rfl other
    · rfl
  | cons first mid =>
    obtain ⟨kept, hollow, rfl, empty, ends, above, found, written⟩ :=
      Path.Spelling.parent_split solid bare cut
    have dotted : Undotted ((first :: (kept ++ hollow)).filter (· ≠ ""))
        ((first :: kept).filter (· ≠ "")) := by
      have dots : Undotted (hollow.filter (· ≠ "")) [] := by
        refine .dots fun dot member => ?_
        obtain ⟨inside, filled⟩ := List.mem_filter.mp member
        exact (empty dot inside).resolve_left (by simpa using filled)
      have both := (Undotted.refl ((first :: kept).filter (· ≠ ""))).append dots
      rwa [List.append_nil, ← List.filter_append, List.cons_append] at both
    refine ⟨above, found, ?_, _, dotted, ?_⟩
    · rw [written, ← whole]
      split
      · rename_i top
        rw [top.1, List.cons_append, List.map_cons, Text.joined_cons '/' (by simp)]
        exact List.prefix_append ['/'] _
      · have parts : first :: (kept ++ hollow) ++ last :: tail
            = (first :: kept) ++ (hollow ++ last :: tail) := by simp
        rw [parts, List.map_append, Text.joined_append '/' (by simp) (by simp)]
        exact List.prefix_append _ _
    · split at written
      · rename_i top
        right
        have slash : above = "/" := by
          rw [← String.toList_inj, written]
          rfl
        refine ⟨by simp [top], ?_⟩
        rw [slash]
        rfl
      · rename_i notTop
        left
        refine segments_ofText (fun piece member => unslashed piece ?_) ?_ written
        · exact (List.mem_append_left hollow member : piece ∈ (first :: kept) ++ hollow)
        · intro piece found
          cases kept with
          | nil =>
            simp only [List.getLast?_singleton, Option.some.injEq] at found
            exact fun same => notTop ⟨found ▸ same, rfl⟩
          | cons next more => exact ends piece (by simpa [List.getLast?_cons_cons] using found)

theorem parent_of_hollow {text above : String}
    (hollow : ∀ piece ∈ Text.split '/' text, piece = "" ∨ piece = ".")
    (found : Path.parent? text = some above) : above = "" := by
  have parsed : Path.Spelling.parse text = [] ∨ Path.Spelling.parse text = [⟨"", .top⟩] ∨
      Path.Spelling.parse text = [⟨"", .here⟩] := by
    unfold Path.Spelling.parse
    cases cut : Text.split '/' text with
    | nil => exact .inl rfl
    | cons first pieces =>
      rw [cut] at hollow
      have later := fun gap => Path.Spelling.ofPieces_hollow gap fun piece member =>
        hollow piece (List.mem_cons_of_mem _ member)
      by_cases empty : text.isEmpty = true
      · simp [empty]
      rcases hollow first List.mem_cons_self with rfl | rfl <;> simp [empty, later]
  rw [Path.parent?] at found
  rcases parsed with parsed | parsed | parsed <;> rw [parsed] at found
  · cases found
  · cases found
  · exact (Option.some.inj found).symm

theorem parent_pieces {text above : String} (found : Path.parent? text = some above) :
    above = "" ∨ (above.toList <+: text.toList ∧
      ∃ front last tail, pieces text = front ++ last :: tail ∧ ∃ fewer, Undotted front fewer ∧
        ((ofText above).segments = fewer ∨ fewer = [] ∧ (ofText above).segments = ["."])) := by
  by_cases hollow : ∀ piece ∈ Text.split '/' text, piece = "" ∨ piece = "."
  · exact .inl (parent_of_hollow hollow found)
  -- the last piece that stands for a part is the first one from behind
  obtain ⟨last, tail, front, split, bare, solid⟩ : ∃ last tail front,
      Text.split '/' text = front ++ last :: tail ∧
        (∀ piece ∈ tail, piece = "" ∨ piece = ".") ∧ last ≠ "" ∧ last ≠ "." := by
    generalize Text.split '/' text = parts at hollow
    induction parts using List.reverseRecOn with
    | nil => simp at hollow
    | append_singleton parts piece ih =>
      by_cases empty : piece = "" ∨ piece = "."
      · have inner : ¬ ∀ piece ∈ parts, piece = "" ∨ piece = "." := fun all => hollow fun p member =>
          (List.mem_append.mp member).elim (all p) fun here => List.mem_singleton.mp here ▸ empty
        obtain ⟨last, tail, front, rfl, bare, solid⟩ := ih inner
        exact ⟨last, tail ++ [piece], front, by simp, by simpa [empty, or_imp, forall_and] using bare,
          solid⟩
      · exact ⟨piece, [], parts, rfl, by simp, not_or.mp empty⟩
  obtain ⟨same, parent, leads, fewer, undotted, segments⟩ := parent_of_split solid bare split
  cases parent.symm.trans found
  refine .inr ⟨leads, front.filter (· ≠ ""), last, tail.filter (· ≠ ""), ?_, fewer, undotted, segments⟩
  rw [← split_filled, split, List.filter_append, List.filter_cons_of_pos (by simpa using solid.1)]

theorem written_parent {last : String} (plain : ∀ name ∈ names ++ [last], IsName name) :
    ∃ above, (written path (names ++ [last])).parent? = some (ofText above) ∧
      above.toList <+: (written path (names ++ [last])).text.toList ∧
      ∃ fewer, Undotted (pieces path ++ names) fewer ∧
        ((ofText above).segments = fewer ∨ fewer = [] ∧ (ofText above).segments = ["."]) := by
  have named := plain last (by simp)
  obtain ⟨front, cut, filledFront⟩ :=
    fields_appendPiece ((ofText path).below names).text named
  rw [← text_below_concat] at cut
  rw [filled_text fun n member => plain n (List.mem_append_left _ member)] at filledFront
  have same : (front.map String.ofList).filter (· ≠ "") = pieces path ++ names := by
    have mapped := congrArg (List.map String.ofList) filledFront
    rw [List.map_append, List.map_map] at mapped
    simp only [Function.comp_def, String.ofList_toList, List.map_id'] at mapped
    rw [pieces, ← mapped, List.filter_map]
    congr 1
    exact List.filter_congr fun piece _ => by simp
  have split : Text.split '/' (written path (names ++ [last])).text
      = front.map String.ofList ++ [last] := by
    simp only [Text.split, written, text, ofText, List.foldl_nil] at cut ⊢
    simp [cut]
  obtain ⟨above, found, leads, fewer, undotted, segments⟩ := parent_of_split ⟨named.1, named.2.1⟩ (by simp) split
  refine ⟨above, ?_, leads, fewer, same ▸ undotted, segments⟩
  change (Path.parent? (written path (names ++ [last])).text).map ofText = _
  rw [found]
  rfl

theorem parent_below_written (inner : names ≠ []) {last : String}
    (plain : ∀ name ∈ names ++ [last], IsName name) :
    Path.parent? ((ofText path).below (names ++ [last])).text
      = some ((ofText path).below names).text := by
  have plainAbove : ∀ name ∈ names, IsName name :=
    fun name member => plain name (List.mem_append_left _ member)
  have named := plain last (by simp)
  generalize written : ((ofText path).below names).text = text
  have unslashed : Text.endsWith text "/" = false := written ▸ written_not_slashed inner plainAbove
  -- the last piece of the path above is a name, and so there are no dots before the last one
  obtain ⟨front, final, ends, solid⟩ : ∃ front final, Text.split '/' text = front ++ [final] ∧
      final ≠ "" ∧ final ≠ "." := by
    obtain ⟨init, final, rfl⟩ : ∃ init final, names = init ++ [final] :=
      ⟨_, _, (List.dropLast_concat_getLast inner).symm⟩
    have isName := plainAbove final (by simp)
    obtain ⟨front, cut, -⟩ := fields_appendPiece ((ofText path).below init).text isName
    rw [← text_below_concat, written] at cut
    exact ⟨front.map String.ofList, final, by simp [Text.split, cut], isName.1, isName.2.1⟩
  have filled : text ≠ "" := by
    rintro rfl
    have single : Text.split '/' "" = [""] := rfl
    rw [single] at ends
    obtain ⟨rfl, same⟩ := List.append_eq_singleton_iff.mp ends.symm |>.resolve_right (by simp)
    exact solid.1 (List.singleton_inj.mp same)
  have whole : Text.split '/' (appendPiece text last) = Text.split '/' text ++ [last] := by
    have letters : (appendPiece text last).toList = text.toList ++ '/' :: last.toList := by
      simp [appendPiece, filled, unslashed]
    rw [Text.split, letters, Text.fields_append_sep, Text.fields_of_notMem named.2.2.2]
    simp [Text.split]
  obtain ⟨first, pieces, cut⟩ : ∃ first pieces, Text.split '/' text = first :: pieces := by
    rw [ends]
    exact List.exists_cons_of_ne_nil (by simp)
  have longer : Text.split '/' (appendPiece text last) = first :: (pieces ++ [last]) := by
    rw [whole, cut, List.cons_append]
  obtain ⟨kept, hollow, rfl, empty, -, above, found, spelled⟩ :=
    Path.Spelling.parent_split ⟨named.1, named.2.1⟩ (by simp) longer
  obtain rfl : hollow = [] := by
    cases hollow using List.reverseRecOn with
    | nil => rfl
    | append_singleton more dots =>
      rw [ends, ← List.append_assoc, ← List.cons_append] at cut
      obtain ⟨-, same⟩ := List.append_inj' cut rfl
      rcases empty dots (by simp) with rfl | rfl
      · exact absurd (List.singleton_inj.mp same) solid.1
      · exact absurd (List.singleton_inj.mp same) solid.2
  rw [List.append_nil] at cut
  rw [text_below_concat, written, found, Option.some.injEq, ← String.toList_inj, spelled, if_neg,
    ← Text.joined_fields '/' text.toList]
  · have letters : (Text.split '/' text).map String.toList = Text.fields '/' text.toList := by
      simp [Text.split, Function.comp_def]
    rw [← letters, cut]
  · rintro ⟨rfl, rfl⟩
    rw [ends] at cut
    exact solid.1 (List.singleton_inj.mp (List.append_inj' (cut.trans (List.nil_append _).symm) rfl).2)

end Location

end PinnedTree
