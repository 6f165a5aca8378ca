import PinnedTree.Proofs.Files
import PinnedTree.Proofs.Text.Keyed
import PinnedTree.Proofs.Toml.RoundTrip
import PinnedTree.RunState

namespace PinnedTree

namespace RunState

open Toml Toml.Read

variable {id : String} {record : StateRecord} {records earlier : List (String × StateRecord)}

theorem get?_insert (state : RunState) (other : String) :
    (state.insert id record).get? other = if other = id then some record else state.get? other :=
  Text.lookup_insertKeyed other

theorem insert_same {state : RunState} (held : state.get? id = some record) :
    state.insert id record = state := by
  obtain ⟨records, ordered⟩ := state
  simp only [insert, Text.insertKeyed_same ordered held]

def fieldsOf (record : StateRecord) : Members :=
  [("locator", .string record.locator), ("path", .string record.path),
    ("revision", .string record.revision)]

def membersOf (records : List (String × StateRecord)) : Members :=
  records.map fun entry => (entry.1, .table .header (fieldsOf entry.2))

def documentOf (members : Members) : Members :=
  if members.isEmpty then [] else [(recordsField, .table .passedByHeader members)]

theorem enter_document (change : Members → Option Members) (members : Members)
    (rest : List String) : enter change (recordsField :: rest) (documentOf members)
      = (enter change rest members).map fun inner =>
        [(recordsField, .table .passedByHeader inner)] := by
  cases members with
  | nil =>
    simp only [documentOf, List.isEmpty_nil, if_true, enter, List.lookup_nil, bind, Option.bind]
    cases enter change rest [] <;> rfl
  | cons member more =>
    simp only [documentOf, List.isEmpty_cons, Bool.false_eq_true, if_false, enter,
      List.lookup_cons_self, bind, Option.bind]
    cases enter change rest (member :: more) <;> simp [Text.insertKeyed, pure]

theorem membersOf_before (before : ∀ entry ∈ earlier, entry.1 < id) :
    ∀ member ∈ membersOf earlier, member.1 < id := by
  intro member listed
  obtain ⟨entry, there, rfl⟩ := List.mem_map.mp listed
  exact before entry there

theorem open_record (before : ∀ entry ∈ earlier, entry.1 < id) :
    openTable id (membersOf earlier) = some (membersOf earlier ++ [(id, .table .header [])]) := by
  have after := membersOf_before before
  rw [openTable, Text.lookup_later after]
  exact congrArg some (Text.insertKeyed_last after)

theorem enter_record (before : ∀ entry ∈ earlier, entry.1 < id)
    (change : Members → Option Members) (fields : Members) :
    enter change [id] (membersOf earlier ++ [(id, .table .header fields)])
      = (change fields).map fun inner => membersOf earlier ++ [(id, .table .header inner)] := by
  have after := membersOf_before before
  simp only [enter, Text.lookup_last after, bind, Option.bind]
  cases change fields with
  | none => rfl
  | some inner => exact congrArg some (Text.insertKeyed_again after)

theorem lines_field {fuel : Nat} {name : String} {fields more : Members} {rest : List Char}
    (before : ∀ entry ∈ earlier, entry.1 < id) (bare : Write.isBareKey name.toList = true)
    (value : String) (added : define true (.string value) [name] fields = some more) :
    lines (fuel + 1) [recordsField, id]
        (documentOf (membersOf earlier ++ [(id, .table .header fields)]))
        (Write.line name value ++ rest)
      = lines fuel [recordsField, id]
        (documentOf (membersOf earlier ++ [(id, .table .header more)])) rest := by
  rw [lines_line bare, enter_document, enter_record before, added]
  simp [documentOf]

theorem lines_block {fuel : Nat} {current : List String} {rest : List Char}
    (before : ∀ entry ∈ earlier, entry.1 < id) (record : StateRecord) :
    lines (fuel + 4) current (documentOf (membersOf earlier)) (block (id, record) ++ rest)
      = lines fuel [recordsField, id] (documentOf (membersOf (earlier ++ [(id, record)]))) rest := by
  have whole : block (id, record) ++ rest = '[' :: (recordsField.toList ++ '.' :: (Write.key id ++
      ']' :: '\n' :: (Write.line "path" record.path ++ (Write.line "revision" record.revision ++
        (Write.line "locator" record.locator ++ rest))))) := by
    simp [block]
  have opened : enter (openTable id) [recordsField] (documentOf (membersOf earlier))
      = some (documentOf (membersOf earlier ++ [(id, .table .header [])])) := by
    rw [enter_document, enter, open_record before]
    simp [documentOf]
  rw [whole, lines_header (by decide), opened]
  change lines (fuel + 3) _ _ _ = _
  rw [lines_field before (by decide) _ rfl, lines_field before (by decide) _ (by rfl),
    lines_field before (by decide) _ (by rfl)]
  rw [membersOf, membersOf, List.map_append]
  rfl

theorem lines_blocks {fuel : Nat} {current : List String}
    (ordered : Text.InOrder (earlier ++ records)) (enough : 4 * records.length < fuel) :
    lines fuel current (documentOf (membersOf earlier)) (Text.joined '\n' (records.map block))
      = some (documentOf (membersOf (earlier ++ records))) := by
  induction records generalizing earlier fuel current with
  | nil =>
    obtain ⟨fuel, rfl⟩ := Nat.exists_eq_add_one.mpr enough
    simp [Text.joined, lines_nil]
  | cons entry rest ih =>
    obtain ⟨fuel, rfl⟩ : ∃ more, fuel = more + 4 :=
      Nat.exists_eq_add_of_le' (by simp only [List.length_cons] at enough; omega)
    have before : ∀ other ∈ earlier, other.1 < entry.1 := fun other member =>
      (List.pairwise_append.mp ordered).2.2 other member entry (by simp)
    have onward := @ih (earlier ++ [entry]) fuel [recordsField, entry.1] (by simpa using ordered)
      (by simp only [List.length_cons] at enough; omega)
    rw [List.append_assoc, List.singleton_append] at onward
    rw [← onward]
    cases rest with
    | nil =>
      simpa [Text.joined] using @lines_block entry.1 earlier fuel current [] before entry.2
    | cons next more =>
      obtain ⟨less, rfl⟩ : ∃ less, fuel = less + 1 :=
        Nat.exists_eq_add_of_le' (by simp only [List.length_cons] at enough; omega)
      rw [List.map_cons, List.map_cons, Text.joined, lines_block before]
      · exact lines_feed
      · simp

theorem length_block (entry : String × StateRecord) : 4 ≤ (block entry).length := by
  simp [block]
  omega

theorem length_joined (records : List (String × StateRecord)) :
    4 * records.length ≤ (Text.joined '\n' (records.map block)).length := by
  induction records with
  | nil => simp
  | cons entry rest ih =>
    have one := length_block entry
    cases rest with
    | nil => simpa [Text.joined] using one
    | cons next more =>
      simp only [List.map_cons, Text.joined, List.length_append, List.length_cons] at ih ⊢
      omega

theorem document_empty (ordered : Text.InOrder []) :
    document (text ⟨[], ordered⟩) = .ok [(recordsField, .table .header [])] := by
  rw [document, RunState.text, String.toList_ofList]
  rfl

theorem document_text {state : RunState} (filled : state.records ≠ []) :
    document state.text = .ok (documentOf (membersOf state.records)) := by
  have letters : state.text.toList = Text.joined '\n' (state.records.map block) := by
    unfold RunState.text
    split
    · rename_i empty
      exact absurd empty filled
    · simp
  obtain ⟨tail, begins⟩ : ∃ tail, Text.joined '\n' (state.records.map block) = '[' :: tail := by
    rcases listed : state.records with - | ⟨entry, - | ⟨next, more⟩⟩
    · exact absurd listed filled
    · exact ⟨_, rfl⟩
    · exact ⟨_, rfl⟩
  have read := @lines_blocks state.records [] ((Text.joined '\n' (state.records.map block)).length
    + 1) [] state.ordered (Nat.lt_succ_of_le (length_joined _))
  have start : documentOf (membersOf []) = [] := rfl
  rw [start, List.nil_append, begins] at read
  rw [List.length_cons] at read
  rw [document, letters, begins]
  simp [read]

theorem recordOf_fields (record : StateRecord) :
    recordOf (.table .header (fieldsOf record)) = .ok record := by
  rfl

theorem ofMembers_membersOf (ordered : Text.InOrder records) :
    ofMembers (membersOf records) = .ok ⟨records, ordered⟩ := by
  induction records with
  | nil => rfl
  | cons entry rest ih =>
    obtain ⟨first, later⟩ := List.pairwise_cons.mp ordered
    have onward := ih later
    simp only [membersOf, List.map_cons] at onward ⊢
    simp only [ofMembers, recordOf_fields, onward, bind, Except.bind, pure, Except.pure, insert,
      Text.insertKeyed_first first]

theorem parse_text (state : RunState) : parse state.text = .ok state := by
  obtain ⟨records, ordered⟩ := state
  by_cases filled : records = []
  · subst filled
    simp only [parse, document_empty, bind, Except.bind]
    rfl
  · have found := ofMembers_membersOf ordered
    have document := @document_text ⟨records, ordered⟩ filled
    have held : documentOf (membersOf records)
        = [(recordsField, .table .passedByHeader (membersOf records))] := by
      rw [documentOf, if_neg (by simpa [membersOf] using filled)]
    rw [held] at document
    simp only [parse, document, bind, Except.bind]
    simp [Toml.RecordForm.ofMembers, form, Toml.RecordForm.checkMembers, ofToml, found, bind,
      Except.bind, pure, Except.pure]

section Load

variable {d e : Disk} {root : Location} {top : DiskPath} {state : RunState}

theorem stateFile_below (root : Location) :
    Layout.stateFile root = root.below [stateDirectory, "state.toml"] := by
  simp [Layout.stateFile, Layout.directory, Location.child, Location.below]

theorem load_congr (straight : d.Straight root top [stateDirectory, "state.toml"])
    (sound : d.Sound)
    (unlinked : ∀ target, d.look (top ++ [stateDirectory, "state.toml"]) ≠ some (.link target))
    (straight' : e.Straight root top [stateDirectory, "state.toml"]) (sound' : e.Sound)
    (same : e.look (top ++ [stateDirectory, "state.toml"])
      = d.look (top ++ [stateDirectory, "state.toml"])) : load e root = load d root := by
  have alike := fun node => ((straight'.stat_ok sound' (same ▸ unlinked) node).trans
    (same ▸ (straight.stat_ok sound unlinked node).symm))
  unfold load
  simp only [stateFile_below]
  cases found : d.stat (root.below [stateDirectory, "state.toml"]) with
  | ok node =>
    have found' := (alike node).mpr found
    simp [Disk.leadsSomewhere, Disk.readText, Disk.readBytes, found, found']
  | error fault =>
    cases found' : e.stat (root.below [stateDirectory, "state.toml"]) with
    | ok node => cases ((alike node).mp found').symm.trans found
    | error other => simp [Disk.leadsSomewhere, found, found']

theorem load_free (straight : d.Straight root top [stateDirectory, "state.toml"])
    (sound : d.Sound) (free : d.look (top ++ [stateDirectory, "state.toml"]) = none) :
    load d root = .ok {} := by
  have nowhere : d.leadsSomewhere (root.below [stateDirectory, "state.toml"]) = false := by
    rw [← Bool.not_eq_true, straight.leadsSomewhere sound (by simp [free])]
    simp [free]
  rw [load, stateFile_below]
  simp [nowhere]

theorem load_of_stat (mode : Nat)
    (found : d.stat (Layout.stateFile root) = .ok (.file state.text.toUTF8 mode))
    (readable : mayRead mode = true) : load d root = .ok state := by
  have read : d.readText (Layout.stateFile root) = .ok state.text :=
    Disk.readText_ok.mpr ⟨_, _, found, readable, fromUTF8?_toUTF8 _⟩
  simp [load, Disk.leadsSomewhere, found, read, parse_text]

theorem load_saved {mode : Nat} (straight : d.Straight root top [stateDirectory, "state.toml"])
    (sound : d.Sound) (callable : root.Callable [stateDirectory, "state.toml"])
    (file : d.look (top ++ [stateDirectory, "state.toml"])
      = some (.file state.text.toUTF8 mode)) (readable : mayRead mode = true) :
    load d root = .ok state := by
  refine load_of_stat mode ?_ readable
  rw [stateFile_below]
  exact (straight.stat_ok sound (by simp [file]) _).mpr ⟨callable, file⟩

theorem readable_of_stat {content : ByteArray} {mode : Nat}
    (found : d.stat (Layout.stateFile root) = .ok (.file content mode))
    (loaded : load d root = .ok state) : mayRead mode = true := by
  unfold load at loaded
  simp only [Disk.leadsSomewhere, found, Bool.not_true, Bool.false_eq_true, if_false] at loaded
  split at loaded
  · cases loaded
  · rename_i text read
    obtain ⟨c, m, found', readable, -⟩ := Disk.readText_ok.mp read
    cases found.symm.trans found'
    exact readable

theorem readable_of_load {content : ByteArray} {mode : Nat}
    (straight : d.Straight root top [stateDirectory, "state.toml"]) (sound : d.Sound)
    (callable : root.Callable [stateDirectory, "state.toml"])
    (file : d.look (top ++ [stateDirectory, "state.toml"]) = some (.file content mode))
    (loaded : load d root = .ok state) : mayRead mode = true := by
  have found : d.stat (Layout.stateFile root) = .ok (.file content mode) := by
    rw [stateFile_below]
    exact (straight.stat_ok sound (by simp [file]) _).mpr ⟨callable, file⟩
  exact readable_of_stat found loaded

theorem load_congr_stat (same : e.stat (Layout.stateFile root) = d.stat (Layout.stateFile root)) :
    load e root = load d root := by
  simp [load, Disk.leadsSomewhere, Disk.readText, Disk.readBytes, same]

end Load

end RunState

end PinnedTree
