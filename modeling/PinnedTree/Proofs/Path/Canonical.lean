import PinnedTree.Proofs.Path.Parts
import PinnedTree.Proofs.Plan.Build

namespace PinnedTree

namespace Path

variable {raw : String}

def essentials (raw : String) : List Part := (parts raw).filter (· ≠ .here)

def partOf (piece : String) : Part := if piece = ".." then .up else .name piece

theorem partOf_eq_up {piece : String} : partOf piece = .up ↔ piece = ".." := by
  simp [partOf]

theorem partOf_eq_name {piece name : String} (down : name ≠ "..") :
    partOf piece = .name name ↔ piece = name := by
  unfold partOf
  split
  · rename_i up
    simpa [up] using down.symm
  · simp

theorem partOf_injective : Function.Injective partOf := by
  intro a b same
  by_cases up : b = ".."
  · subst up
    exact partOf_eq_up.mp same
  · have named : partOf b = .name b := (partOf_eq_name up).mpr rfl
    exact (partOf_eq_name up).mp (same.trans named)

theorem partOf_text (piece : String) : (partOf piece).text = piece := by
  unfold partOf
  split
  · rename_i up
    exact up.symm
  · rfl

theorem filterMap_partOf (pieces : List String) : pieces.filterMap Spelling.partOf?
    = (pieces.filter fun piece => piece ≠ "" && piece ≠ ".").map partOf := by
  induction pieces with
  | nil => rfl
  | cons piece rest ih =>
    by_cases hollow : piece = "" ∨ piece = "."
    · rcases hollow with rfl | rfl <;> simpa [Spelling.partOf?] using ih
    · obtain ⟨filled, moving⟩ := not_or.mp hollow
      by_cases up : piece = ".." <;> simp [Spelling.partOf?, partOf, filled, moving, up, ih]

theorem essentials_of_pieces (pieces : List String) :
    (pieces.filterMap Spelling.partOf?).filter (· ≠ .here) = pieces.filterMap Spelling.partOf? := by
  rw [List.filter_eq_self, filterMap_partOf]
  intro part member
  obtain ⟨piece, -, rfl⟩ := List.mem_map.mp member
  unfold partOf
  split <;> simp

theorem startsWith_of_split_empty {pieces : List String} (filled : raw ≠ "")
    (cut : Text.split '/' raw = "" :: pieces) : Text.startsWith raw "/" = true := by
  rw [Text.split] at cut
  obtain ⟨c, rest, letters⟩ := List.exists_cons_of_ne_nil (mt String.toList_eq_nil_iff.mp filled)
  rw [letters, Text.fields] at cut
  split at cut
  · rename_i slash
    simp [Text.startsWith, letters, slash, List.isPrefixOf]
  · cases more : Text.fields '/' rest <;> simp [more] at cut

theorem essentials_eq (relative : Text.startsWith raw "/" = false) :
    essentials raw = (Destination.significant raw).map partOf := by
  by_cases empty : raw = ""
  · subst empty
    rfl
  obtain ⟨first, pieces, cut⟩ := exists_split raw
  have filled : first ≠ "" := by
    rintro rfl
    rw [startsWith_of_split_empty empty cut] at relative
    cases relative
  rw [essentials, parts_split empty cut, Destination.significant, cut, ← filterMap_partOf,
    List.filter_cons, essentials_of_pieces]
  by_cases dot : first = "."
  · subst dot
    rfl
  have solid := (Spelling.startOf_solid ⟨filled, dot⟩).1
  have named : partOf first = Spelling.startOf first := by
    have alone := filterMap_partOf [first]
    simpa [solid, filled, dot] using alone.symm
  have counts : Spelling.startOf first ≠ .here := by
    rw [← named, partOf]
    split <;> simp
  rw [List.filterMap_cons_some solid, if_pos (by simpa using counts)]

theorem up_mem_parts (relative : Text.startsWith raw "/" = false) :
    .up ∈ parts raw ↔ ".." ∈ Destination.significant raw := by
  have counted : .up ∈ parts raw ↔ .up ∈ essentials raw := by simp [essentials]
  rw [counted, essentials_eq relative, ← partOf_eq_up.mpr rfl, List.mem_map_of_injective partOf_injective]

theorem head_essentials (relative : Text.startsWith raw "/" = false) {name : String}
    (down : name ≠ "..") : (essentials raw).head? = some (.name name) ↔
      (Destination.significant raw).head? = some name := by
  rw [essentials_eq relative, List.head?_map, Option.map_eq_some_iff]
  simp [partOf_eq_name down]

theorem essentials_text (relative : Text.startsWith raw "/" = false) :
    (essentials raw).map Part.text = Destination.significant raw := by
  rw [essentials_eq relative, List.map_map]
  exact List.map_id'' partOf_text _

end Path

namespace Destination

open PinnedTree.Path

variable {raw : String} {d : Destination}

def Climbs (raw : String) : Prop := Text.startsWith raw "/" = true ∨ .up ∈ parts raw

theorem climbs_iff : Climbs raw ↔ Text.startsWith raw "/" = true ∨ ".." ∈ significant raw := by
  cases anchored : Text.startsWith raw "/" with
  | true => simp [Climbs, anchored]
  | false => simp [Climbs, anchored, up_mem_parts anchored]

theorem relative_of_stays (stays : ¬ Climbs raw) : Text.startsWith raw "/" = false :=
  Bool.eq_false_iff.mpr (not_or.mp stays).1

inductive Reads (raw : String) : Except Defect Destination → Prop
  | climbing (climbs : Climbs raw) : Reads raw (.error .escapesRoot)
  | hollow (stays : ¬ Climbs raw) (hollow : essentials raw = []) : Reads raw (.error .empty)
  | own (stays : ¬ Climbs raw) (own : (essentials raw).head? = some (.name stateDirectory)) :
    Reads raw (.error (.reserved ((essentials raw).map Part.text)))
  | placed (stays : ¬ Climbs raw) (filled : essentials raw ≠ [])
    (other : (essentials raw).head? ≠ some (.name stateDirectory)) {d : Destination}
    (names : d.names = (essentials raw).map Part.text) : Reads raw (.ok d)

theorem reads_parse (raw : String) : Reads raw (parse raw) := by
  unfold parse
  split
  · rename_i climbs
    exact .climbing (climbs_iff.mpr climbs)
  rename_i climbs
  have stays : ¬ Climbs raw := mt climbs_iff.mp climbs
  have relative := relative_of_stays stays
  have texts := essentials_text relative
  have hollow : essentials raw = [] ↔ significant raw = [] := by simp [← texts]
  have own := head_essentials relative (by decide : stateDirectory ≠ "..")
  split
  · rename_i empty
    exact .hollow stays (hollow.mpr empty)
  rename_i filled
  split
  · rename_i reserved
    have read := Reads.own stays (own.mpr reserved)
    rwa [texts] at read
  · rename_i other
    exact .placed stays (mt hollow.mp filled) (mt own.mp other) texts.symm

theorem text_ne_empty (d : Destination) : d.text ≠ "" := by
  intro empty
  have none := significant_text d
  rw [empty] at none
  exact d.nonempty none.symm

theorem parts_text (d : Destination) : parts d.text = d.names.map .name := by
  obtain ⟨first, rest, names⟩ := List.exists_cons_of_ne_nil d.nonempty
  have cut : Text.split '/' d.text = first :: rest := by
    rw [← names]
    exact Text.split_of_joined d.nonempty (fun name listed => (d.plain name listed).2.2.2)
      String.toList_ofList
  have solid : ∀ name ∈ d.names, Spelling.partOf? name = some (.name name) := by
    intro name listed
    obtain ⟨filled, moving, down, -⟩ := d.plain name listed
    simp [Spelling.partOf?, filled, moving, down]
  obtain ⟨filled, moving, -⟩ := d.plain first (by simp [names])
  have begins := (Spelling.startOf_solid ⟨filled, moving⟩).1
  rw [parts_split d.text_ne_empty cut, ← List.filterMap_cons_some begins, ← names]
  exact List.filterMap_eq_map_iff_forall_eq_some.mpr solid

theorem parts_join {root : String} (named : root ≠ "") (d : Destination) :
    parts ((Location.ofText root).join d.text).text = parts root ++ d.names.map .name := by
  have joined : ((Location.ofText root).join d.text).text = Location.appendPiece root d.text := by
    simp [Location.join, text_unanchored, Location.text, Location.ofText]
  obtain ⟨first, pieces, cut⟩ := exists_split d.text
  have same := significant_text d
  rw [joined, parts_appendPiece named, filterMap_partOf]
  change _ ++ (significant d.text).map partOf = _
  rw [same]
  refine congrArg _ (List.map_congr_left fun name listed => ?_)
  exact (partOf_eq_name (d.plain name listed).2.2.1).mpr rfl

/-- What the text of a destination is like that a written path names: the names of the path with one
slash between two of them, which lead down from every root and never into the directory that the
program keeps for itself, nor to something that holds this directory. -/
structure Canonical (raw : String) (d : Destination) : Prop where
  spelled : d.text = Text.join '/' ((essentials raw).map Part.text)
  filled : d.text ≠ ""
  relative : Text.startsWith d.text "/" = false
  plain : ∀ part ∈ essentials raw, ∃ name, IsName name ∧ part = .name name
  below : ∀ root, root ≠ "" →
    parts ((Location.ofText root).join d.text).text = parts root ++ essentials raw
  outside : ¬ [.name stateDirectory] <+: parts d.text
  apart : ¬ parts d.text <+: [.name stateDirectory]

theorem essentials_of_names (stays : ¬ Climbs raw)
    (names : d.names = (essentials raw).map Part.text) : essentials raw = d.names.map .name := by
  have texts := essentials_text (relative_of_stays stays)
  rw [essentials_eq (relative_of_stays stays), ← texts, ← names]
  exact List.map_congr_left fun name listed => (partOf_eq_name (d.plain name listed).2.2.1).mpr rfl

theorem canonical_of_names (same : essentials raw = d.names.map .name) : Canonical raw d := by
  have texts : (essentials raw).map Part.text = d.names := by
    rw [same, List.map_map]
    exact List.map_id'' (fun _ => rfl) _
  have first : d.names.head? ≠ some stateDirectory := d.unreserved
  obtain ⟨name, rest, names⟩ := List.exists_cons_of_ne_nil d.nonempty
  have other : name ≠ stateDirectory := by simpa [names] using first
  refine ⟨by rw [texts, text], d.text_ne_empty, d.text_unanchored, fun part member => ?_,
    fun root named => by rw [same, parts_join named], ?_, ?_⟩
  · rw [same] at member
    obtain ⟨name, listed, rfl⟩ := List.mem_map.mp member
    exact ⟨name, d.plain name listed, rfl⟩
  · simp [parts_text, names, List.cons_prefix_cons, other.symm]
  · simp [parts_text, names, List.cons_prefix_cons, other]

end Destination

namespace PlacedPin

open PinnedTree.Path Destination

variable {id raw : String}

theorem destinationOf_accepts : (∃ d, destinationOf id raw = .ok d) ↔ ¬ Climbs raw ∧
    essentials raw ≠ [] ∧ (essentials raw).head? ≠ some (.name stateDirectory) := by
  have read := reads_parse raw
  unfold destinationOf
  generalize parse raw = answer at read ⊢
  cases read with
  | climbing climbs => simp [Except.mapError, climbs]
  | hollow stays hollow => simp [Except.mapError, hollow]
  | own stays own => simp [Except.mapError, own]
  | placed stays filled other names => simp [Except.mapError, stays, filled, other]

theorem destinationOf_error {e : ConfigError} : destinationOf id raw = .error e ↔
    (Climbs raw ∧ e = .escapesRoot id raw) ∨
    (¬ Climbs raw ∧ essentials raw = [] ∧ e = .emptyPath id) ∨
    (¬ Climbs raw ∧ (essentials raw).head? = some (.name stateDirectory) ∧
      e = .reservedPath id (Text.join '/' ((essentials raw).map Part.text))) := by
  have read := reads_parse raw
  unfold destinationOf
  generalize parse raw = answer at read ⊢
  cases read with
  | climbing climbs => simpa [Except.mapError, defectError, climbs] using eq_comm
  | hollow stays hollow => simpa [Except.mapError, defectError, stays, hollow] using eq_comm
  | own stays own =>
    have filled : essentials raw ≠ [] := fun none => by simp [none] at own
    simpa [Except.mapError, defectError, stays, own, filled] using eq_comm
  | placed stays filled other names => simp [Except.mapError, stays, filled, other]

theorem essentials_of_placed {d : Destination} (placed : destinationOf id raw = .ok d) :
    essentials raw = d.names.map .name := by
  have read := reads_parse raw
  rw [destinationOf_ok.mp placed] at read
  cases read with
  | placed stays filled other names => exact essentials_of_names stays names

/-- A written path names a destination if it is relative, goes nowhere up, and has a name that counts
of which the first is not the program's own directory. The destination is its canonical form: reading
its text again gives it again, and paths with the same parts that count get the same one. Of the other
paths those that start at the top or go up are refused as such, and the rest for what they lack. -/
theorem destinationOf_canonical (id raw : String) :
    ((∃ d, destinationOf id raw = .ok d) ↔ ¬ Climbs raw ∧ essentials raw ≠ [] ∧
      (essentials raw).head? ≠ some (.name stateDirectory)) ∧
    (∀ d, destinationOf id raw = .ok d → Canonical raw d ∧ destinationOf id d.text = .ok d ∧
      ∀ otherId other e, destinationOf otherId other = .ok e →
        (d.text = e.text ↔ essentials raw = essentials other)) ∧
    (destinationOf id raw = .error (.escapesRoot id raw) ↔ Climbs raw) ∧
    (destinationOf id raw = .error (.emptyPath id) ↔ ¬ Climbs raw ∧ essentials raw = []) ∧
    ∀ path, destinationOf id raw = .error (.reservedPath id path) ↔ ¬ Climbs raw ∧
      (essentials raw).head? = some (.name stateDirectory) ∧
      path = Text.join '/' ((essentials raw).map Part.text) := by
  refine ⟨destinationOf_accepts, fun d placed => ?_, by simp [destinationOf_error],
    by simp [destinationOf_error], by simp [destinationOf_error]⟩
  have names := essentials_of_placed placed
  refine ⟨canonical_of_names names, destinationOf_ok.mpr d.parse_text, fun otherId other e also => ?_⟩
  rw [names, essentials_of_placed also]
  constructor
  · intro same
    rw [text_injective same]
  · intro same
    have alike := List.map_injective_iff.mpr (fun _ _ => Part.name.inj) same
    rw [eq_of_names alike]

example : (destinationOf "x" "./a//.depsync/./b.").toOption.map text = some "a/.depsync/b." ∧
    destinationOf "x" ".//./" = .error (.emptyPath "x") ∧
    destinationOf "x" "./.depsync//" = .error (.reservedPath "x" ".depsync") := by
  decide +kernel

end PlacedPin

end PinnedTree
