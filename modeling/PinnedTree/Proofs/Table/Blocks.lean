import PinnedTree.Proofs.Toml.Document

namespace PinnedTree.Toml

open Read
open Text (Fresh insertAll insertKeyed keyed)

variable {name key : String} {fields held others : Members} {current : List String}
  {found : Toml} {origin : TableOrigin}

def fieldLines (fields : Members) : List Statement := fields.map fun field => .pair field.1 field.2

theorem follow_fields (current : List String) (place : Members → Members)
    (enters : ∀ change held, enter change current (place held) = (change held).map place)
    (fresh : Fresh fields held) :
    (fieldLines fields).foldlM Statement.follow (current, place held)
      = some (current, place (insertAll fields held)) := by
  induction fields generalizing held with
  | nil => rfl
  | cons field fields ih =>
    have added : Statement.follow (current, place held) (.pair field.1 field.2)
        = some (current, place (insertKeyed field.1 field.2 held)) := by
      simp [Statement.follow, enters, define_fresh true (fresh.2 field List.mem_cons_self)]
    rw [fieldLines, List.map_cons, List.foldlM_cons, added]
    exact ih fresh.tail

theorem enter_single (change : Members → Option Members) (path : List String)
    (notInline : origin ≠ .inline) :
    enter change (name :: path) [(name, .table origin held)]
      = (enter change path held).map fun inner => [(name, .table origin inner)] := by
  simp only [enter, List.lookup_cons_self]
  cases origin
  · exact absurd rfl notInline
  all_goals cases enter change path held <;> simp [bind, pure]

theorem enter_last (change : Members → Option Members) (done : List Toml) :
    enter change [name] [(name, .array true (done ++ [.table origin held]))]
      = (change held).map fun inner => [(name, .array true (done ++ [.table origin inner]))] := by
  simp only [enter, List.lookup_cons_self, List.getLast?_concat, List.dropLast_concat]
  cases change held <;> simp [bind, pure]

def arrayBlocks (name : String) (blocks : List Members) : List Statement :=
  blocks.flatMap fun fields => .arrayHeader [name] :: fieldLines fields

def arrayDocument (name : String) (items : List Toml) : Members :=
  if items.isEmpty then [] else [(name, .array true items)]

theorem append_document (items : List Toml) :
    Statement.follow (current, arrayDocument name items) (.arrayHeader [name])
      = some ([name], [(name, .array true (items ++ [.table .header []]))]) := by
  cases items with
  | nil => rfl
  | cons item items =>
    simp [Statement.follow, enter, appendTable, arrayDocument]

theorem follow_arrayBlocks {blocks : List Members} (current : List String) (items : List Toml)
    (distinct : ∀ fields ∈ blocks, (fields.map (·.1)).Nodup) :
    ∃ open_, (arrayBlocks name blocks).foldlM Statement.follow (current, arrayDocument name items)
      = some (open_, arrayDocument name
        (items ++ blocks.map fun fields => .table .header (keyed fields))) := by
  induction blocks generalizing items current with
  | nil => exact ⟨current, by simp [arrayBlocks]⟩
  | cons fields blocks ih =>
    have inBlock := follow_fields [name]
      (fun held => [(name, .array true (items ++ [.table .header held]))])
      (fun change held => enter_last change items)
      (Text.fresh_nil (distinct fields List.mem_cons_self))
    obtain ⟨open_, onward⟩ := ih [name] (items ++ [.table .header (keyed fields)])
      fun other member => distinct other (List.mem_cons_of_mem _ member)
    have filled : arrayDocument name (items ++ [.table .header (keyed fields)])
        = [(name, .array true (items ++ [.table .header (keyed fields)]))] := by
      simp [arrayDocument]
    refine ⟨open_, ?_⟩
    rw [arrayBlocks, List.flatMap_cons, List.foldlM_append, List.foldlM_cons, append_document]
    simp only [Option.bind_eq_bind, Option.bind_some, inBlock]
    rw [← keyed, ← filled]
    simpa [arrayBlocks] using onward

def keyedBlocks (name : String) (blocks : List (String × Members)) : List Statement :=
  blocks.flatMap fun block => .header [name, block.1] :: fieldLines block.2

def blockTable (block : String × Members) : String × Toml := (block.1, .table .header (keyed block.2))

/-- A document in which headers may add tables to the one of a name: there is one, or nothing yet. -/
def Holds (name : String) (origin : TableOrigin) (held members : Members) : Prop :=
  origin ≠ .inline ∧ (members = [(name, .table origin held)] ∨
    members = [] ∧ held = [] ∧ origin = .passedByHeader)

theorem Holds.follow {members : Members} (holds : Holds name origin held members)
    (current : List String) (key : String) (fresh : held.lookup key = none) :
    Statement.follow (current, members) (.header [name, key])
      = some ([name, key], [(name, .table origin (insertKeyed key (.table .header []) held))]) := by
  obtain ⟨notInline, rfl | ⟨rfl, rfl, rfl⟩⟩ := holds
  · simp [Statement.follow, enter_single _ _ notInline, enter, openTable, fresh]
  · rfl

theorem enter_keyed (change : Members → Option Members) (notInline : origin ≠ .inline) :
    enter change [name, key]
        [(name, .table origin (insertKeyed key (.table .header held) others))]
      = (change held).map fun inner =>
        [(name, .table origin (insertKeyed key (.table .header inner) others))] := by
  rw [enter_single change [key] notInline]
  simp only [enter, Text.lookup_insertKeyed, if_true]
  cases change held <;> simp [Text.insertKeyed_twice, bind, pure]

theorem follow_keyedBlocks {blocks : List (String × Members)} {members : Members}
    (current : List String) (holds : Holds name origin held members) (filled : blocks ≠ [] ∨ members ≠ [])
    (fresh : Fresh (blocks.map blockTable) held)
    (distinct : ∀ block ∈ blocks, (block.2.map (·.1)).Nodup) :
    ∃ open_, (keyedBlocks name blocks).foldlM Statement.follow (current, members)
      = some (open_, [(name, .table origin (insertAll (blocks.map blockTable) held))]) := by
  induction blocks generalizing held members current with
  | nil =>
    obtain ⟨-, rfl | ⟨rfl, -⟩⟩ := holds
    · exact ⟨current, rfl⟩
    · simp at filled
  | cons block blocks ih =>
    have notInline := holds.1
    have opened := holds.follow current block.1
      (fresh.2 (blockTable block) List.mem_cons_self)
    have inBlock := follow_fields [name, block.1]
      (fun inner => [(name, .table origin (insertKeyed block.1 (.table .header inner) held))])
      (fun change inner => enter_keyed change notInline)
      (Text.fresh_nil (distinct block List.mem_cons_self))
    obtain ⟨open_, onward⟩ := ih [name, block.1] ⟨notInline, .inl rfl⟩ (.inr (by simp))
      fresh.tail fun other member => distinct other (List.mem_cons_of_mem _ member)
    refine ⟨open_, ?_⟩
    rw [keyedBlocks, List.flatMap_cons, List.foldlM_append, List.foldlM_cons, opened]
    simp only [Option.bind_eq_bind, Option.bind_some, inBlock]
    exact onward

end PinnedTree.Toml
