import PinnedTree.Proofs.Json.Grammar
import PinnedTree.Proofs.Table.Blocks
import PinnedTree.Proofs.Table.Forms
import PinnedTree.Proofs.Text.ByteOrder

namespace PinnedTree

open Text (keyed)

def Json.ofFields (fields : PinFields) : Json :=
  .object (fields.map fun field => (field.1, field.2.elim .null .string))

abbrev TextFields := List (String × String)

namespace TextFields

def given (fields : TextFields) : PinFields := fields.map fun field => (field.1, some field.2)

def members (fields : TextFields) : Toml.Read.Members :=
  fields.map fun field => (field.1, .string field.2)

def inline (fields : TextFields) : Toml := .table .inline (keyed fields.members)

end TextFields

namespace PinTable

open Toml (Statement arrayBlocks keyedBlocks fieldLines)

def Holds (content : String) (text : List Char) : Prop :=
  content.toList = text ∨ content.toList = '\uFEFF' :: text

inductive ListLines (given : List TextFields) : List Statement → Prop
  | blocks (filled : given ≠ []) :
      ListLines given (arrayBlocks pinsField (given.map TextFields.members))
  | inline : ListLines given [.pair pinsField (.array false (given.map TextFields.inline))]

/-- The lines that give pins under their ids: a block or a line for each, or all of them on one
line. -/
inductive KeyedLines (given : List (String × TextFields)) : List Statement → Prop
  | blocks (filled : given ≠ []) :
      KeyedLines given (keyedBlocks pinsField (given.map fun block => (block.1, block.2.members)))
  | openedBlocks : KeyedLines given (.header [pinsField] ::
      keyedBlocks pinsField (given.map fun block => (block.1, block.2.members)))
  | openedLines : KeyedLines given (.header [pinsField] ::
      fieldLines (given.map fun block => (block.1, block.2.inline)))
  | inline : KeyedLines given [.pair pinsField
      (.table .inline (keyed (given.map fun block => (block.1, block.2.inline))))]

inductive ListedIn (content : String) (entries : List ListedPin) : TableFormat → Prop
  | json {given : List PinFields} {nesting : Nat} (room : nesting < Json.Read.maxDepth - 1)
      (each : List.Forall₂ ListedPin.GivenBy entries given)
      (document : Json.Document (Json.Written nesting) pinsField
        (.array (given.map Json.ofFields)) content.toList) : ListedIn content entries .json
  | toml {given : List TextFields} {statements : List Statement} {text : List Char}
      (holds : Holds content text)
      (each : List.Forall₂ (fun entry fields => entry.GivenBy fields.given) entries given)
      (lines : ListLines given statements) (document : Toml.Document statements text) :
      ListedIn content entries .toml

inductive KeyedIn (content : String) (entries : List (String × ListedPin)) : TableFormat → Prop
  | json {given : List (String × PinFields)} {nesting : Nat}
      (room : nesting < Json.Read.maxDepth - 1)
      (each : List.Forall₂ (fun entry block => block.1 = entry.1 ∧ entry.2.GivenBy block.2)
        entries given)
      (document : Json.Document (Json.Written nesting) pinsField
        (.object (given.map fun block => (block.1, Json.ofFields block.2))) content.toList) :
      KeyedIn content entries .json
  | toml {given : List (String × TextFields)} {statements : List Statement} {text : List Char}
      (holds : Holds content text) (distinct : (entries.map (·.1)).Nodup)
      (each : List.Forall₂ (fun entry block => block.1 = entry.1 ∧ entry.2.GivenBy block.2.given)
        entries given)
      (lines : KeyedLines given statements) (document : Toml.Document statements text) :
      KeyedIn content entries .toml

/-- The order in which the pins under ids are taken: that of a JSON document, and in TOML that of the
bytes of the ids. -/
def taken (entries : List (String × ListedPin)) : TableFormat → List (String × ListedPin)
  | .json => entries
  | .toml => Text.byBytes entries

variable {content : String} {entries : List (String × ListedPin)} {listed : List ListedPin}

theorem memberDatums_map {α : Type} {f : α → Toml} {g : α → Datum}
    (each : ∀ x, (f x).datum = .ok (g x)) (members : List (String × α)) :
    Toml.memberDatums (members.map fun member => (member.1, f member.2))
      = .ok (members.map fun member => (member.1, g member.2)) := by
  induction members with
  | nil => rfl
  | cons member members ih =>
    rw [List.map_cons, Toml.memberDatums, each, ih]
    rfl

theorem datums_map {α : Type} {f : α → Toml} {g : α → Datum} (each : ∀ x, (f x).datum = .ok (g x))
    (items : List α) : Toml.datums (items.map f) = .ok (items.map g) := by
  induction items with
  | nil => rfl
  | cons item items ih =>
    rw [List.map_cons, Toml.datums, each, ih]
    rfl

theorem datum_members (origin : TableOrigin) (fields : TextFields) :
    (Toml.table origin (keyed fields.members)).datum
      = .ok (.fields (Datum.ofFields (keyed fields.given))) := by
  have said := memberDatums_map (f := Toml.string) (g := Datum.text) (fun _ => rfl) (keyed fields)
  rw [TextFields.members, Text.keyed_map, Toml.datum, said, TextFields.given, Text.keyed_map,
    Datum.ofFields, List.map_map]
  rfl

theorem ofDatum?_keyed {fields : TextFields} {entry : ListedPin} (givenBy : entry.GivenBy fields.given) :
    ListedPin.ofDatum? (.fields (Datum.ofFields (keyed fields.given))) = some entry :=
  ListedPin.ofMembers?_given (givenBy.perm (Text.keyed_perm givenBy.distinct))

theorem members_distinct {fields : TextFields} {entry : ListedPin}
    (givenBy : entry.GivenBy fields.given) : (fields.members.map (·.1)).Nodup := by
  have once := givenBy.distinct
  rw [TextFields.given, List.map_map] at once
  rw [TextFields.members, List.map_map]
  exact once

theorem memberDatums_eq (found : List (String × Json)) :
    Json.memberDatums found = found.map fun member => (member.1, member.2.datum) := by
  induction found with
  | nil => rfl
  | cons member found ih => rw [Json.memberDatums, ih, List.map_cons]

theorem datums_eq (found : List Json) : Json.datums found = found.map Json.datum := by
  induction found with
  | nil => rfl
  | cons item found ih => rw [Json.datums, ih, List.map_cons]

theorem datum_ofFields (fields : PinFields) :
    (Json.ofFields fields).datum = .fields (Datum.ofFields fields) := by
  rw [Json.ofFields, Json.datum, memberDatums_eq, List.map_map, Datum.ofFields]
  congr 1
  apply List.map_congr_left
  rintro ⟨name, given⟩ -
  cases given <;> rfl

theorem ofJson_document {nesting : Nat} {found : Json} (room : nesting < Json.Read.maxDepth - 1)
    (formed : hasForm found.datum = true)
    (document : Json.Document (Json.Written nesting) pinsField found content.toList) :
    ofJson content = ofFormed found.datum := by
  have reads : ∀ space held rest, Json.Blank space → Json.Written nesting found held →
      jsonForm.read (space ++ (held ++ rest)) = .ok (found.datum, rest) := by
    intro space held rest blank written
    obtain ⟨-, read⟩ := Json.reads_written room found held written
    have steps : 2 * held.length ≤ Json.Read.enough (space ++ (held ++ rest)) := by
      simp only [Json.Read.enough, List.length_append]
      omega
    have value : Json.Read.readValue .keep (Json.Read.maxDepth - 1) (space ++ (held ++ rest))
        = .ok (found, rest) := by
      rw [Json.Read.readValue, Json.value_blank blank, read _ _ steps]
    change readPins _ = _
    simp [readPins, value, formed, bind, Except.bind, pure, Except.pure]
  rw [ofJson, Json.parse_document rfl reads document]
  rfl

theorem ofToml_document {statements : List Statement} {text : List Char} {current : List String}
    {found : Toml} {datum : Datum} (holds : Holds content text)
    (document : Toml.Document statements text)
    (followed : statements.foldlM Statement.follow ([], []) = some (current, [(pinsField, found)]))
    (meant : found.datum = .ok datum) (formed : hasForm datum = true) :
    ofToml content = ofFormed datum := by
  have read := Toml.document_read document holds followed
  have pins : tomlPins content = .ok datum := by
    simp [tomlPins, read, tomlForm, Toml.RecordForm.ofMembers, Toml.RecordForm.checkMembers, meant,
      formed, bind, Except.bind, pure, Except.pure]
  rw [ofToml, pins]

def listDatum (given : List TextFields) : Datum :=
  .list (given.map fun fields => .fields (Datum.ofFields (keyed fields.given)))

def keyedDatum (given : List (String × TextFields)) : Datum :=
  .fields ((keyed given).map fun block => (block.1, .fields (Datum.ofFields (keyed block.2.given))))

/-- What a list of lines comes to: one value under the name of the pins, and what it says. -/
def ComesTo (statements : List Statement) (datum : Datum) : Prop :=
  ∃ current found, statements.foldlM Statement.follow ([], []) = some (current, [(pinsField, found)]) ∧
    found.datum = .ok datum

theorem comesTo_pair {found : Toml} {datum : Datum} (meant : found.datum = .ok datum) :
    ComesTo [.pair pinsField found] datum := ⟨[], found, rfl, meant⟩

theorem ListLines.comesTo {given : List TextFields} {statements : List Statement}
    (lines : ListLines given statements)
    (distinct : ∀ fields ∈ given, (fields.members.map (·.1)).Nodup) :
    ComesTo statements (listDatum given) := by
  cases lines with
  | blocks filled =>
    obtain ⟨current, followed⟩ := Toml.follow_arrayBlocks [] []
      (fun fields member => by
        obtain ⟨fields, there, rfl⟩ := List.mem_map.mp member
        exact distinct fields there)
    refine ⟨current, .array true (given.map fun fields => .table .header (keyed fields.members)),
      ?_, ?_⟩
    · have whole : Toml.arrayDocument pinsField ([] ++ (given.map TextFields.members).map fun fields =>
          Toml.table .header (keyed fields)) = [(pinsField, .array true (given.map fun fields =>
            Toml.table .header (keyed fields.members)))] := by
        simp [Toml.arrayDocument, filled]
      rw [← whole]
      exact followed
    · rw [Toml.datum, datums_map (datum_members .header)]
      rfl
  | inline =>
    apply comesTo_pair
    rw [Toml.datum, datums_map (f := TextFields.inline) (datum_members .inline)]
    rfl

theorem keyed_blocks (given : List (String × TextFields)) (origin origin' : TableOrigin) :
    (Toml.table origin (keyed (given.map fun block =>
      (block.1, .table origin' (keyed block.2.members))))).datum = .ok (keyedDatum given) := by
  have blocks := Text.keyed_map (fun fields : TextFields => Toml.table origin' (keyed fields.members))
    given
  rw [blocks, Toml.datum, memberDatums_map (datum_members origin')]
  rfl

theorem blockTable_members (given : List (String × TextFields)) :
    (given.map fun block => (block.1, block.2.members)).map Toml.blockTable
      = given.map fun block => (block.1, Toml.table .header (keyed block.2.members)) := by
  rw [List.map_map]
  rfl

theorem KeyedLines.comesTo {given : List (String × TextFields)} {statements : List Statement}
    (lines : KeyedLines given statements) (once : (given.map (·.1)).Nodup)
    (distinct : ∀ block ∈ given, (block.2.members.map (·.1)).Nodup) :
    ComesTo statements (keyedDatum given) := by
  have fresh : ∀ f : TextFields → Toml,
      Text.Fresh (given.map fun block => (block.1, f block.2)) [] := by
    intro f
    apply Text.fresh_nil
    rw [List.map_map]
    exact once
  have inBlock : ∀ block ∈ given.map fun block => (block.1, block.2.members),
      (block.2.map (·.1)).Nodup := by
    intro block member
    obtain ⟨block, there, rfl⟩ := List.mem_map.mp member
    exact distinct block there
  have tables : Text.Fresh ((given.map fun block => (block.1, block.2.members)).map
      Toml.blockTable) [] := by
    rw [blockTable_members]
    exact fresh fun fields => .table .header (keyed fields.members)
  cases lines with
  | blocks filled =>
    have nothing : Toml.Holds pinsField .passedByHeader [] [] :=
      ⟨by decide, .inr ⟨rfl, rfl, rfl⟩⟩
    obtain ⟨current, followed⟩ := Toml.follow_keyedBlocks [] nothing
      (.inl (by simpa using filled)) tables inBlock
    rw [blockTable_members] at followed
    exact ⟨current, _, followed, keyed_blocks given .passedByHeader .header⟩
  | openedBlocks =>
    have opened : Toml.Holds pinsField .header [] [(pinsField, .table .header [])] :=
      ⟨by decide, .inl rfl⟩
    obtain ⟨current, followed⟩ := Toml.follow_keyedBlocks [pinsField] opened
      (.inr (by simp)) tables inBlock
    rw [blockTable_members] at followed
    exact ⟨current, _, followed, keyed_blocks given .header .header⟩
  | openedLines =>
    have followed := Toml.follow_fields [pinsField]
      (fun held => [(pinsField, .table .header held)])
      (fun change held => Toml.enter_single change [] (by decide)) (fresh TextFields.inline)
    exact ⟨[pinsField], _, followed, keyed_blocks given .header .inline⟩
  | inline => exact comesTo_pair (keyed_blocks given .inline .inline)

theorem ListedIn.parse {format : TableFormat} (document : ListedIn content listed format) :
    parse format content = .ok ⟨listed.map fun entry => entry.pin (entry.id.getD "")⟩ := by
  cases document with
  | @json given nesting room each document =>
    have items : List.Forall₂ (fun entry item => ListedPin.ofDatum? item = some entry) listed
        (given.map fun fields => .fields (Datum.ofFields fields)) := by
      rw [List.forall₂_map_right_iff]
      exact each.imp fun _ _ => ListedPin.ofMembers?_given
    obtain ⟨formed, table⟩ := ofFormed_list items
    have meant : (Json.array (given.map Json.ofFields)).datum
        = .list (given.map fun fields => .fields (Datum.ofFields fields)) := by
      rw [Json.datum, datums_eq, List.map_map]
      congr 1
      exact List.map_congr_left fun fields _ => datum_ofFields fields
    rw [PinTable.parse, ofJson_document room (by rw [meant, formed]) document, meant, table]
  | @toml given statements text holds each lines document =>
    have items : List.Forall₂ (fun entry item => ListedPin.ofDatum? item = some entry) listed
        (given.map fun fields => .fields (Datum.ofFields (keyed fields.given))) := by
      rw [List.forall₂_map_right_iff]
      exact each.imp fun _ _ => ofDatum?_keyed
    obtain ⟨formed, table⟩ := ofFormed_list items
    have distinct : ∀ fields ∈ given, (fields.members.map (·.1)).Nodup := by
      intro fields member
      obtain ⟨entry, -, givenBy⟩ := forall₂_of_mem each member
      exact members_distinct givenBy
    obtain ⟨current, found, followed, meant⟩ := lines.comesTo distinct
    rw [PinTable.parse, ofToml_document holds document followed meant formed]
    exact table

/-- A document that gives pins under ids is read as the table of these pins, in the order in which
they are taken. -/
theorem KeyedIn.parse {format : TableFormat} (document : KeyedIn content entries format) :
    parse format content = ofIds (taken entries format) := by
  cases document with
  | @json given nesting room each document =>
    have members : List.Forall₂ (fun entry member => member.1 = entry.1 ∧
        ListedPin.ofDatum? member.2 = some entry.2) entries
        (given.map fun block => (block.1, .fields (Datum.ofFields block.2))) := by
      rw [List.forall₂_map_right_iff]
      exact each.imp fun _ _ both => ⟨both.1, ListedPin.ofMembers?_given both.2⟩
    obtain ⟨formed, table⟩ := ofFormed_fields members
    have meant : (Json.object (given.map fun block => (block.1, Json.ofFields block.2))).datum
        = .fields (given.map fun block => (block.1, .fields (Datum.ofFields block.2))) := by
      rw [Json.datum, memberDatums_eq, List.map_map]
      congr 1
      exact List.map_congr_left fun block _ => by rw [Function.comp, datum_ofFields]
    rw [PinTable.parse, ofJson_document room (by rw [meant, formed]) document, meant, table]
    rfl
  | @toml given statements text holds distinct each lines document =>
    let givenBy (entry : ListedPin) (fields : TextFields) : Prop := entry.GivenBy fields.given
    have ordered : List.Forall₂ (fun entry block => block.1 = entry.1 ∧ givenBy entry.2 block.2)
        (keyed entries) (keyed given) := Text.insertAll_related each .nil
    have members : List.Forall₂ (fun entry member => member.1 = entry.1 ∧
        ListedPin.ofDatum? member.2 = some entry.2) (keyed entries)
        ((keyed given).map fun block => (block.1, .fields (Datum.ofFields (keyed block.2.given)))) := by
      rw [List.forall₂_map_right_iff]
      exact ordered.imp fun _ _ both => ⟨both.1, ofDatum?_keyed both.2⟩
    obtain ⟨formed, table⟩ := ofFormed_fields members
    have once : (given.map (·.1)).Nodup := by
      have same : given.map (·.1) = entries.map (·.1) := Text.keys_related (R := givenBy) each
      rwa [same]
    have inBlock : ∀ block ∈ given, (block.2.members.map (·.1)).Nodup := by
      intro block member
      obtain ⟨entry, -, -, givenBy⟩ := forall₂_of_mem each member
      exact members_distinct givenBy
    obtain ⟨current, found, followed, meant⟩ := lines.comesTo once inBlock
    rw [PinTable.parse, ofToml_document holds document followed meant formed, taken,
      ← Text.keyed_eq_byBytes distinct]
    exact table

theorem mem_taken {format : TableFormat} {entry : String × ListedPin} :
    entry ∈ taken entries format ↔ entry ∈ entries := by
  cases format with
  | json => exact Iff.rfl
  | toml => exact (Text.byBytes_perm entries).mem_iff

def Agrees (entry : String × ListedPin) : Prop := entry.2.id = none ∨ entry.2.id = some entry.1

theorem strays_eq_false {entry : String × ListedPin} : strays entry = false ↔ Agrees entry := by
  unfold strays Agrees
  cases entry.2.id <;> simp

theorem ofIds_agree (agree : ∀ entry ∈ entries, Agrees entry) :
    ofIds entries = .ok ⟨entries.map fun entry => entry.2.pin entry.1⟩ := by
  have none : entries.find? strays = none := by
    rw [List.find?_eq_none]
    intro entry member
    simp [strays_eq_false.mpr (agree entry member)]
  rw [ofIds, none]

theorem ofIds_first {before after : List (String × ListedPin)} {key id : String} {entry : ListedPin}
    (agree : ∀ entry ∈ before, Agrees entry) (gives : entry.id = some id) (other : id ≠ key) :
    ofIds (before ++ (key, entry) :: after) = .error (.keyMismatch key id) := by
  have none : before.find? strays = none := by
    rw [List.find?_eq_none]
    intro entry member
    simp [strays_eq_false.mpr (agree entry member)]
  have found : (before ++ (key, entry) :: after).find? strays = some (key, entry) := by
    rw [List.find?_append, none, List.find?_cons_of_pos (by simp [strays, gives, other])]
    rfl
  rw [ofIds, found]
  simp [gives]

/-- All encodings of a table agree. A list is read as its pins in order. Pins under ids are read as
these pins, in the order in which a format takes them; the first in this order that gives itself
another id than the one it stands under is refused. -/
theorem parse_agrees (format : TableFormat) (content : String) :
    (∀ listed, ListedIn content listed format →
      parse format content = .ok ⟨listed.map fun entry => entry.pin (entry.id.getD "")⟩) ∧
    (∀ entries, KeyedIn content entries format → (∀ entry ∈ entries, Agrees entry) →
      parse format content
        = .ok ⟨(taken entries format).map fun entry => entry.2.pin entry.1⟩) ∧
    (∀ entries before after key entry id, KeyedIn content entries format →
      taken entries format = before ++ (key, entry) :: after → (∀ other ∈ before, Agrees other) →
      entry.id = some id → id ≠ key → parse format content = .error (.keyMismatch key id)) := by
  refine ⟨fun listed document => document.parse, fun entries document agree => ?_,
    fun entries before after key entry id document split agree gives other => ?_⟩
  · rw [document.parse, ofIds_agree fun entry member => agree entry (mem_taken.mp member)]
  · rw [document.parse, split, ofIds_first agree gives other]

/-- A list whose only pin gives its revision with an escape, and nothing as its locator. -/
def escapedList : String :=
  "\x7b\"deps\": [\x7b\"Version\": \"r\\u0031\", \"path\": \"p\", \"locator\": null\x7d]\x7d"

def strayingMap : String :=
  "\x7b\"deps\": \x7b\"k\": \x7b\"Id\": \"j\", \"version\": \"r\", \"path\": \"p\"\x7d\x7d\x7d"

def unorderedBlocks : String :=
  "[deps.b]\nrevision = \"r\"\nPath = \"q\"\n[deps.\"a\"]\nversion = \"s\"\npath = \"t\"\n"

def isWord (s : String) : Bool :=
  s.toList.all fun c => c != '"' && c != '\\' && 0x20 ≤ c.toNat && c.toNat != 0x7F

theorem isWord_letter {s : String} (word : isWord s = true) (c : Char) (member : c ∈ s.toList) :
    c ≠ '"' ∧ c ≠ '\\' ∧ 0x20 ≤ c.toNat ∧ c.toNat ≠ 0x7F := by
  simpa [and_assoc] using List.all_eq_true.mp word c member

section

open Json (blank_nil blank_space)

theorem quoted_word {s : String} (word : isWord s = true) :
    Json.Quoted s ('"' :: (s.toList ++ ['"'])) := by
  refine ⟨_, Json.spelled_plain fun c member => ?_, rfl⟩
  obtain ⟨notQuote, notSlash, visible, -⟩ := isWord_letter word c member
  exact ⟨notQuote, notSlash, visible⟩

theorem member_words {name value : String} (named : isWord name = true)
    (word : isWord value = true) :
    Json.Member (Json.Written 0) (name, .string value)
      ('"' :: (name.toList ++ ['"']) ++ ([] ++ ':' :: ([' '] ++ '"' :: (value.toList ++ ['"'])))) :=
  .mk (quoted_word named) blank_nil blank_space (.inr ⟨_, rfl, quoted_word word⟩)

theorem escapedList_listed : ListedIn escapedList [⟨none, "r1", "p", none⟩] .json := by
  have one : Json.Letter '1' ('\\' :: 'u' :: "0031".toList) := .unit (by decide) (by decide)
  have escaped : Json.Quoted "r1" ('"' :: ("r\\u0031".toList ++ ['"'])) :=
    ⟨_, .cons (.plain (by decide) (by decide) (by decide)) (.cons one .nil), rfl⟩
  have revision : Json.Member (Json.Written 0) ("Version", .string "r1") _ :=
    .mk (quoted_word (by decide)) blank_nil blank_space (.inr ⟨_, rfl, escaped⟩)
  have locator : Json.Member (Json.Written 0) ("locator", .null) _ :=
    .mk (quoted_word (by decide)) blank_nil blank_space (.inl ⟨rfl, rfl⟩)
  have fields : Text.Series False Json.Blank (Json.Member (Json.Written 0)) '}' true
      [("Version", .string "r1"), ("path", .string "p"), ("locator", .null)] _ :=
    .head blank_nil revision (.next blank_nil blank_space (member_words (by decide) (by decide))
      (.next blank_nil blank_space locator (.done blank_nil)))
  have pin : Json.Written 1 _ _ := .inr (.inr ⟨_, _, rfl, rfl, fields⟩)
  have list : Json.Written 2 _ _ :=
    .inr (.inl ⟨_, _, rfl, rfl, .head blank_nil pin (.done blank_nil)⟩)
  have given : ListedPin.GivenBy ⟨none, "r1", "p", none⟩
      [("Version", some "r1"), ("path", some "p"), ("locator", none)] :=
    ⟨_, _, _, _, .omitted, .text (by decide), .text (by decide), .nothing (by decide), .refl _⟩
  exact .json (by decide) (.cons given .nil) ⟨[], _, [], blank_nil, blank_nil,
    .head blank_nil (.mk (quoted_word (by decide)) blank_nil blank_space list) (.done blank_nil),
    by decide⟩

theorem strayingMap_keyed : KeyedIn strayingMap [("k", ⟨some "j", "r", "p", none⟩)] .json := by
  have fields : Text.Series False Json.Blank (Json.Member (Json.Written 0)) '}' true
      [("Id", .string "j"), ("version", .string "r"), ("path", .string "p")] _ :=
    .head blank_nil (member_words (by decide) (by decide))
      (.next blank_nil blank_space (member_words (by decide) (by decide))
        (.next blank_nil blank_space (member_words (by decide) (by decide)) (.done blank_nil)))
  have pin : Json.Written 1 _ _ := .inr (.inr ⟨_, _, rfl, rfl, fields⟩)
  have map : Json.Written 2 (.object [("k", _)]) _ := .inr (.inr ⟨_, _, rfl, rfl,
    .head blank_nil (.mk (quoted_word (by decide)) blank_nil blank_space pin) (.done blank_nil)⟩)
  have given : ListedPin.GivenBy ⟨some "j", "r", "p", none⟩
      [("Id", some "j"), ("version", some "r"), ("path", some "p")] :=
    ⟨_, _, _, _, .text (by decide), .text (by decide), .text (by decide), .omitted, .refl _⟩
  apply @KeyedIn.json _ _ [("k", [("Id", some "j"), ("version", some "r"), ("path", some "p")])] 2
  · decide
  · exact .cons ⟨rfl, given⟩ .nil
  · exact ⟨[], _, [], blank_nil, blank_nil,
      .head blank_nil (.mk (quoted_word (by decide)) blank_nil blank_space map) (.done blank_nil),
      by decide⟩

end

section

open Toml (blank_nil blank_space)

theorem basic_word {s : String} (word : isWord s = true) :
    Text.Spelled Toml.Letter s.toList s.toList := by
  apply Toml.spelled_plain
  intro c member
  obtain ⟨notQuote, notSlash, visible, notDelete⟩ := isWord_letter word c member
  exact ⟨notQuote, notSlash, by simp [Toml.Read.isPlain, visible, notDelete]⟩

def isBare (s : String) : Bool := s.toList != [] && s.toList.all Toml.Read.isBareKey

theorem key_bare {s : String} (bare : isBare s = true) : Toml.KeyText s s.toList := by
  simp only [isBare, Bool.and_eq_true, bne_iff_ne] at bare
  exact .bare bare.1 (List.all_eq_true.mp bare.2)

theorem pair_words {name value : String} (bare : isBare name = true) (word : isWord value = true) :
    Toml.Worded (.pair name (.string value))
      (name.toList ++ ([' '] ++ '=' :: ([' '] ++ '"' :: (value.toList ++ ['"'])))) :=
  .pair (Nat.zero_le _) (.mk (key_bare bare) blank_space blank_space
    ⟨_, rfl, .basic (basic_word word)⟩)

theorem unorderedBlocks_keyed : KeyedIn unorderedBlocks
    [("b", ⟨none, "r", "q", none⟩), ("a", ⟨none, "s", "t", none⟩)] .toml := by
  have feed : ∀ rest, Toml.LineEnd rest ['\n'] := fun _ =>
    ⟨[], [], ['\n'], blank_nil, .inl rfl, .inl (.inl rfl), rfl⟩
  have name : Toml.KeyText "deps" "deps".toList := key_bare (by decide)
  have quoted : Toml.KeyText "a" ('"' :: ("a".toList ++ ['"'])) := .basic (basic_word (by decide))
  have first : Toml.KeyPath ["deps", "b"] _ :=
    .dotted blank_nil name blank_nil (.last blank_nil (key_bare (by decide)) blank_nil)
  have second : Toml.KeyPath ["deps", "a"] _ :=
    .dotted blank_nil name blank_nil (.last blank_nil quoted blank_nil)
  have document : Toml.Document [.header ["deps", "b"], .pair "revision" (.string "r"),
      .pair "Path" (.string "q"), .header ["deps", "a"], .pair "version" (.string "s"),
      .pair "path" (.string "t")] _ :=
    .line .nil (.header first) (feed _) (.line .nil (pair_words (by decide) (by decide)) (feed _)
      (.line .nil (pair_words (by decide) (by decide)) (feed _) (.line .nil (.header second) (feed _)
        (.line .nil (pair_words (by decide) (by decide)) (feed _)
          (.line .nil (pair_words (by decide) (by decide)) (feed _) (.done .nil (.inl rfl)))))))
  have given : ListedPin.GivenBy ⟨none, "r", "q", none⟩
      (TextFields.given [("revision", "r"), ("Path", "q")]) :=
    ⟨_, _, _, _, .omitted, .text (by decide), .text (by decide), .omitted, .refl _⟩
  have given' : ListedPin.GivenBy ⟨none, "s", "t", none⟩
      (TextFields.given [("version", "s"), ("path", "t")]) :=
    ⟨_, _, _, _, .omitted, .text (by decide), .text (by decide), .omitted, .refl _⟩
  exact @KeyedIn.toml _ _
    [("b", [("revision", "r"), ("Path", "q")]), ("a", [("version", "s"), ("path", "t")])] _ _
    (.inl (by decide)) (by decide) (.cons ⟨rfl, given⟩ (.cons ⟨rfl, given'⟩ .nil))
    (.blocks (by decide)) document

end

theorem documents_read :
    parse .json escapedList = .ok ⟨[⟨"", "", "r1", "p"⟩]⟩ ∧
    parse .toml unorderedBlocks = .ok ⟨[⟨"a", "a", "s", "t"⟩, ⟨"b", "b", "r", "q"⟩]⟩ ∧
    parse .json strayingMap = .error (.keyMismatch "k" "j") := by
  have order : taken [("b", ⟨none, "r", "q", none⟩), ("a", ⟨none, "s", "t", none⟩)] .toml
      = [("a", ⟨none, "s", "t", none⟩), ("b", ⟨none, "r", "q", none⟩)] := by
    rw [taken, ← Text.keyed_eq_byBytes (by decide)]
    decide
  refine ⟨(parse_agrees .json escapedList).1 _ escapedList_listed, ?_,
    (parse_agrees .json strayingMap).2.2 _ [] [] "k" _ "j" strayingMap_keyed rfl (by simp) rfl
      (by decide)⟩
  have blocks := (parse_agrees .toml unorderedBlocks).2.1 _ unorderedBlocks_keyed
    (by simp [Agrees])
  rw [order] at blocks
  exact blocks

end PinTable

end PinnedTree
