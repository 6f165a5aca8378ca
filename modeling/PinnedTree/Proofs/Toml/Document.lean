import PinnedTree.Proofs.Text.Keyed
import PinnedTree.Proofs.Toml.Grammar

namespace PinnedTree.Toml

open Read
open Text (Series Fresh insertAll keyed)

inductive Member (spelled : Toml → List Char → Prop) : String × Toml → List Char → Prop
  | mk {key : String} {found : Toml} {name space after text : List Char} (named : KeyText key name)
      (apart : Blank space) (apartAfter : Blank after) (held : spelled found text) :
      Member spelled (key, found) (name ++ (space ++ '=' :: (after ++ text)))

/-- The ways to spell a value of texts, with at most so many brackets around any of them. -/
def Written : Nat → Toml → List Char → Prop
  | 0, found, text => ∃ s, found = .string s ∧ Quoted s text
  | depth + 1, found, text =>
    Written depth found text ∨
      (∃ items inner, found = .array false items ∧ text = '[' :: inner ∧
        Series True (Void True) (Written depth) ']' true items inner) ∨
      ∃ entries inner, found = .table .inline (keyed entries) ∧ (entries.map (·.1)).Nodup ∧
        text = '{' :: inner ∧
        Series True (Void True) (Member (Written depth)) '}' true entries inner

inductive Statement
  | header (path : List String)
  | arrayHeader (path : List String)
  | pair (key : String) (found : Toml)

def Statement.follow : List String × Members → Statement → Option (List String × Members)
  | (_, members), .header path => do
    return (path, ← enter (openTable (← path.getLast?)) path.dropLast members)
  | (_, members), .arrayHeader path => do
    return (path, ← enter (appendTable (← path.getLast?)) path.dropLast members)
  | (current, members), .pair key found => do
    return (current, ← enter (define true found [key]) current members)

inductive Worded : Statement → List Char → Prop
  | header {path : List String} {text : List Char} (named : KeyPath path text) :
      Worded (.header path) ('[' :: (text ++ [']']))
  | arrayHeader {path : List String} {text : List Char} (named : KeyPath path text) :
      Worded (.arrayHeader path) ('[' :: '[' :: (text ++ [']', ']']))
  | pair {key : String} {found : Toml} {text : List Char} {nesting : Nat}
      (room : nesting ≤ maxDepth) (member : Member (Written nesting) (key, found) text) :
      Worded (.pair key found) text

def Comment (text : List Char) : Prop :=
  text = [] ∨ ∃ words, text = '#' :: words ∧ ∀ c ∈ words, isPlain c = true

def LineEnd (rest text : List Char) : Prop :=
  ∃ space comment feed, Blank space ∧ Comment comment ∧ (LineFeed feed ∨ feed = [] ∧ rest = []) ∧
    text = space ++ (comment ++ feed)

inductive Document : List Statement → List Char → Prop
  | done {space comment : List Char} (void : Void True space) (words : Comment comment) :
      Document [] (space ++ comment)
  | line {statement : Statement} {statements : List Statement} {space words ending rest : List Char}
      (void : Void True space) (worded : Worded statement words) (ends : LineEnd rest ending)
      (tail : Document statements rest) :
      Document (statement :: statements) (space ++ (words ++ (ending ++ rest)))

variable {c : Char} {gap text rest : List Char} {key : String} {found : Toml} {first : Bool}
  {depth fuel : Nat} {spelled : Toml → List Char → Prop} {members : Members}

def Ended (text : List Char) : Prop := text.head? ≠ some '"' ∧ text.head? ≠ some '\''

/-- What a reader needs of the ways to spell a value: that each begins with a quote or a bracket, and
is read as the value in as many steps as its length allows. -/
def Reads (depth : Nat) (spelled : Toml → List Char → Prop) : Prop :=
  ∀ found text, spelled found text →
    (∃ c more, text = c :: more ∧ c ∈ ['"', '\'', '[', '{']) ∧
    ∀ fuel rest, Ended rest → 2 * text.length ≤ fuel →
      value fuel depth (text ++ rest) = some (found, rest)

theorem void_ended {commented : Prop} (void : Void commented gap) (ended : Ended rest) :
    Ended (gap ++ rest) := by
  cases void with
  | nil => exact ended
  | @blank c more blank =>
    constructor
    all_goals
      rw [List.cons_append, List.head?_cons]
      rintro ⟨⟩
      exact absurd blank (by decide)
  | feed feed =>
    rcases feed with rfl | rfl
    all_goals exact ⟨by simp, by simp⟩
  | comment => exact ⟨by simp, by simp⟩

theorem ended_cons (notDouble : c ≠ '"') (notSingle : c ≠ '\'') : Ended (c :: rest) := by
  simp [Ended, notDouble, notSingle]

theorem series_ended {α : Type} {item : α → List Char → Prop} {xs : List α} {close : Char}
    (series : Series True (Void True) item close false xs text) (other : close ≠ '"' ∧ close ≠ '\'') :
    Ended (text ++ rest) := by
  cases series with
  | done void =>
    rw [List.append_assoc]
    exact void_ended void (ended_cons other.1 other.2)
  | trailing allowed void =>
    rw [List.append_assoc]
    exact void_ended void (ended_cons (by decide) (by decide))
  | next void =>
    rw [List.append_assoc]
    exact void_ended void (ended_cons (by decide) (by decide))

theorem skipVoid_stop {commented : Prop} (void : Void commented gap) (filled : isBlank c = false)
    (stop : c ≠ '\n' ∧ c ≠ '\r' ∧ c ≠ '#') :
    skipVoid false (gap ++ c :: rest) = some (c :: rest) := by
  rw [skipVoid_void void]
  exact skipVoid_filled filled stop.1 stop.2.1 stop.2.2

theorem items_close (void : Void True gap) :
    items (fuel + 1) depth (gap ++ ']' :: rest) = some ([], rest) := by
  rw [items, skipVoid_stop void (by decide) (by decide)]
  rfl

theorem items_item {after : List Char} (reads : Reads depth spelled) (void : Void True gap)
    (held : spelled found text) (ended : Ended after) (enough : 2 * text.length ≤ fuel) :
    (skipVoid false after = some (']' :: rest) →
      items (fuel + 1) depth (gap ++ (text ++ after)) = some ([found], rest)) ∧
    (skipVoid false after = some (',' :: rest) → items (fuel + 1) depth (gap ++ (text ++ after))
      = (items fuel depth rest).map fun more => (found :: more.1, more.2)) := by
  obtain ⟨⟨c, letters, rfl, opens⟩, read⟩ := reads _ _ held
  have plain : ∀ c ∈ ['"', '\'', '[', '{'],
      isBlank c = false ∧ (c ≠ '\n' ∧ c ≠ '\r' ∧ c ≠ '#') ∧ c ≠ ']' := by simp [isBlank]
  obtain ⟨filled, stop, other⟩ := plain c opens
  have first := read fuel after ended enough
  rw [List.cons_append] at first
  rw [List.cons_append, items, skipVoid_stop void filled stop]
  simp only [bind, Option.bind]
  split
  · rename_i same
    exact absurd (List.cons.inj same).1 other
  · constructor
    · intro close
      simp only [first, close]
      rfl
    · intro comma
      simp only [first, comma]
      cases items fuel depth rest <;> rfl

theorem items_series {xs : List Toml} (reads : Reads depth spelled)
    (series : Series True (Void True) spelled ']' true xs text) (enough : 2 * text.length ≤ fuel)
    (rest : List Char) : items fuel depth (text ++ rest) = some (xs, rest) := by
  induction xs generalizing fuel text with
  | nil =>
    cases series with
    | done void =>
      simp only [List.length_append, List.length_cons] at enough
      obtain ⟨fuel, rfl⟩ := Nat.exists_eq_add_one.mpr (show 0 < fuel by omega)
      rw [List.append_assoc]
      exact items_close void
  | cons x xs ih =>
    cases series with
    | @head _ _ gap text more void held tail =>
      have left := tail.length_pos
      simp only [List.length_append] at enough
      obtain ⟨fuel, rfl⟩ := Nat.exists_eq_add_one.mpr (show 0 < fuel by omega)
      have ended : Ended (more ++ rest) := series_ended tail (by decide)
      rw [List.append_assoc, List.append_assoc]
      rcases tail.behind with ⟨gap, void', rfl, rfl⟩ | ⟨gap, more, void', rfl, series⟩
      · apply (items_item reads void held ended (by omega)).1
        rw [List.append_assoc]
        exact skipVoid_stop void' (by decide) (by decide)
      · rw [List.length_append, List.length_cons] at enough
        have comma : skipVoid false (gap ++ ',' :: more ++ rest) = some (',' :: (more ++ rest)) := by
          rw [List.append_assoc]
          exact skipVoid_stop void' (by decide) (by decide)
        rw [(items_item reads void held ended (by omega)).2 comma, ih series (by omega)]
        rfl

theorem pairs_close (void : Void True gap) :
    pairs (fuel + 1) depth members (gap ++ '}' :: rest) = some (members, rest) := by
  rw [pairs, skipVoid_stop void (by decide) (by decide)]
  rfl

theorem key_text {name space : List Char} (named : KeyText key name) (blank : Blank space)
    (rest : List Char) :
    Read.key (fuel + 1) (name ++ (space ++ '=' :: rest)) = some ([key], '=' :: rest) := by
  have path : KeyPath [key] ([] ++ (name ++ space)) := .last blank_nil named blank
  have read : Read.key (fuel + 1) ([] ++ (name ++ space) ++ '=' :: rest) = some ([key], '=' :: rest) :=
    key_path path (by decide) (by decide) (by decide) (by simp) rest
  simpa using read

theorem Reads.head (reads : Reads depth spelled) (held : spelled found text) (blank : Blank gap) :
    skipBlank (gap ++ (text ++ rest)) = text ++ rest := by
  obtain ⟨⟨c, more, rfl, opens⟩, -⟩ := reads _ _ held
  have filled : ∀ c ∈ ['"', '\'', '[', '{'], isBlank c = false := by simp [isBlank]
  rw [skipBlank_append blank, List.cons_append, skipBlank_cons (filled c opens)]

theorem define_fresh (isOpen : Bool) (fresh : members.lookup key = none) :
    define isOpen found [key] members = some (Text.insertKeyed key found members) := by
  simp [define, fresh]

theorem pairs_member {after : List Char} (reads : Reads depth spelled) (void : Void True gap)
    (member : Member spelled (key, found) text) (fresh : members.lookup key = none)
    (ended : Ended after) (enough : 2 * text.length ≤ fuel) :
    (skipVoid false after = some ('}' :: rest) →
      pairs (fuel + 1) depth members (gap ++ (text ++ after))
        = some (Text.insertKeyed key found members, rest)) ∧
    (skipVoid false after = some (',' :: rest) →
      pairs (fuel + 1) depth members (gap ++ (text ++ after))
        = pairs fuel depth (Text.insertKeyed key found members) rest) := by
  obtain @⟨_, _, name, space, behind, text, named, blank, blankAfter, held⟩ := member
  simp only [List.length_append, List.length_cons] at enough
  obtain ⟨-, read⟩ := reads _ _ held
  have read := read fuel after ended (by omega)
  obtain ⟨a, letters, begins, filled, plain⟩ := named.plain
  have stop : a ≠ '\n' ∧ a ≠ '\r' ∧ a ≠ '#' := by
    refine ⟨?_, ?_, ?_⟩
    all_goals
      rintro rfl
      exact plain (by decide)
  have start : skipVoid false (gap ++ (name ++ (space ++ '=' :: (behind ++ text)) ++ after))
      = some (name ++ (space ++ '=' :: (behind ++ (text ++ after)))) := by
    simp only [begins, List.append_assoc, List.cons_append]
    exact skipVoid_stop void filled stop
  rw [pairs]
  simp only [start, bind, Option.bind]
  split
  · rename_i same
    rw [begins] at same
    have close := (List.cons.inj same).1
    rw [close] at plain
    exact absurd plain (by decide)
  · simp only [key_text named blank, reads.head held blankAfter, read, define_fresh false fresh]
    constructor
    · intro close
      simp only [close]
      rfl
    · intro comma
      simp only [comma]

theorem pairs_series {entries : List (String × Toml)} (reads : Reads depth spelled)
    (series : Series True (Void True) (Member spelled) '}' true entries text)
    (fresh : Fresh entries members) (enough : 2 * text.length ≤ fuel) (rest : List Char) :
    pairs fuel depth members (text ++ rest) = some (insertAll entries members, rest) := by
  induction entries generalizing fuel text members with
  | nil =>
    cases series with
    | done void =>
      simp only [List.length_append, List.length_cons] at enough
      obtain ⟨fuel, rfl⟩ := Nat.exists_eq_add_one.mpr (show 0 < fuel by omega)
      rw [List.append_assoc]
      exact pairs_close void
  | cons entry entries ih =>
    cases series with
    | @head _ _ gap text more void member tail =>
      have left := tail.length_pos
      simp only [List.length_append] at enough
      obtain ⟨fuel, rfl⟩ := Nat.exists_eq_add_one.mpr (show 0 < fuel by omega)
      have ended : Ended (more ++ rest) := series_ended tail (by decide)
      have absent := fresh.2 entry List.mem_cons_self
      rw [List.append_assoc, List.append_assoc]
      rcases tail.behind with ⟨gap, void', rfl, rfl⟩ | ⟨gap, more, void', rfl, series⟩
      · apply (pairs_member reads void member absent ended (by omega)).1
        rw [List.append_assoc]
        exact skipVoid_stop void' (by decide) (by decide)
      · rw [List.length_append, List.length_cons] at enough
        have comma : skipVoid false (gap ++ ',' :: more ++ rest) = some (',' :: (more ++ rest)) := by
          rw [List.append_assoc]
          exact skipVoid_stop void' (by decide) (by decide)
        rw [(pairs_member reads void member absent ended (by omega)).2 comma]
        exact ih series fresh.tail (by omega)

theorem reads_text (depth : Nat) : Reads depth (Written 0) := by
  rintro found text ⟨s, rfl, quoted⟩
  have head : ∃ c more, text = c :: more ∧ c ∈ ['"', '\'', '[', '{'] := by
    cases quoted with
    | basic => exact ⟨'"', _, rfl, by decide⟩
    | literal => exact ⟨'\'', _, rfl, by decide⟩
    | basicLines => exact ⟨'"', _, rfl, by decide⟩
    | literalLines => exact ⟨'\'', _, rfl, by decide⟩
  refine ⟨head, fun fuel rest ended enough => ?_⟩
  obtain ⟨c, more, begins, -⟩ := head
  rw [begins, List.length_cons] at enough
  obtain ⟨fuel, rfl⟩ := Nat.exists_eq_add_one.mpr (show 0 < fuel by omega)
  rw [value.eq_def]
  simp [string?_quoted quoted ended]

theorem reads_written {nesting : Nat} (room : nesting ≤ depth) :
    Reads depth (Written nesting) := by
  induction nesting generalizing depth with
  | zero => exact reads_text depth
  | succ nesting ih =>
    have reads : Reads (depth - 1) (Written nesting) := ih (by omega)
    rintro found text (shallow | ⟨items, series, rfl, rfl, spelled⟩ |
      ⟨entries, series, rfl, distinct, rfl, spelled⟩)
    · exact ih (by omega) found text shallow
    · refine ⟨⟨'[', _, rfl, by decide⟩, fun fuel rest ended enough => ?_⟩
      rw [List.length_cons] at enough
      obtain ⟨fuel, rfl⟩ := Nat.exists_eq_add_one.mpr (show 0 < fuel by omega)
      simp [value, string?, show depth ≠ 0 by omega,
        items_series reads spelled (show _ ≤ fuel by omega)]
    · refine ⟨⟨'{', _, rfl, by decide⟩, fun fuel rest ended enough => ?_⟩
      rw [List.length_cons] at enough
      obtain ⟨fuel, rfl⟩ := Nat.exists_eq_add_one.mpr (show 0 < fuel by omega)
      simp [value, string?, show depth ≠ 0 by omega,
        pairs_series reads spelled (Text.fresh_nil distinct) (show _ ≤ fuel by omega), keyed]

theorem skipVoid_words {comment : List Char} (words : Comment comment) :
    skipVoid false comment = some [] := by
  rcases words with rfl | ⟨words, rfl, plain⟩
  · rfl
  · have passed := skipVoid_comment plain []
    rw [List.append_nil] at passed
    simp [skipVoid, isBlank, passed]

theorem lineEnd_feed {feed : List Char} (ends : LineFeed feed ∨ feed = [] ∧ rest = []) :
    lineEnd (feed ++ rest) = some rest := by
  rcases ends with (rfl | rfl) | ⟨rfl, rfl⟩
  all_goals rfl

theorem dropWhile_plain {words feed : List Char} (plain : ∀ c ∈ words, isPlain c = true)
    (ends : LineFeed feed ∨ feed = [] ∧ rest = []) :
    (words ++ (feed ++ rest)).dropWhile isPlain = feed ++ rest := by
  rw [List.dropWhile_append_of_pos plain]
  rcases ends with (rfl | rfl) | ⟨rfl, rfl⟩
  all_goals rfl

theorem lineEnd_ending (ends : LineEnd rest text) : lineEnd (text ++ rest) = some rest := by
  obtain ⟨space, comment, feed, blank, words, feeds, rfl⟩ := ends
  have same : skipBlank (space ++ (comment ++ feed) ++ rest)
      = skipBlank (comment ++ (feed ++ rest)) := by
    rw [List.append_assoc, skipBlank_append blank, List.append_assoc]
  rcases words with rfl | ⟨words, rfl, plain⟩
  · rw [← lineEnd_feed feeds, lineEnd, lineEnd, same, List.nil_append]
  · rw [← lineEnd_feed feeds, lineEnd, lineEnd, same, List.cons_append,
      skipBlank_cons (by decide)]
    simp only [dropWhile_plain plain feeds]
    rcases feeds with (rfl | rfl) | ⟨rfl, rfl⟩
    all_goals rfl

theorem lineEnd_ended (ends : LineEnd rest text) : Ended (text ++ rest) := by
  obtain ⟨space, comment, feed, blank, words, feeds, rfl⟩ := ends
  rw [List.append_assoc, List.append_assoc]
  apply void_ended (void_blank False blank)
  rcases words with rfl | ⟨words, rfl, -⟩
  · rcases feeds with (rfl | rfl) | ⟨rfl, rfl⟩
    all_goals exact ⟨by simp, by simp⟩
  · exact ended_cons (by decide) (by decide)

theorem KeyPath.bracket {path : List String} (named : KeyPath path text) (rest : List Char) :
    ∀ more, text ++ rest ≠ '[' :: more := by
  have first : ∀ {before after : List Char} {s part}, Blank before → KeyText s part →
      ∀ more, before ++ (part ++ after) ≠ '[' :: more := by
    intro before after s part blank key more same
    obtain ⟨a, letters, rfl, -, plain⟩ := key.plain
    cases before with
    | nil =>
      rw [(List.cons.inj same).1] at plain
      exact plain (by decide)
    | cons b before =>
      have isBlank := blank b List.mem_cons_self
      rw [(List.cons.inj same).1] at isBlank
      exact absurd isBlank (by decide)
  cases named with
  | last blank key =>
    rw [List.append_assoc, List.append_assoc]
    exact first blank key
  | dotted blank key =>
    rw [List.append_assoc, List.append_assoc]
    exact first blank key

theorem headerLine_path {path : List String} {ending : List Char} (named : KeyPath path text)
    (ends : LineEnd rest ending) :
    headerLine ('[' :: (text ++ ']' :: (ending ++ rest))) = some (false, path, rest) := by
  have enough : path.length ≤ (text ++ ']' :: (ending ++ rest)).length + 1 := by
    have := named.length_le
    simp only [List.length_append]
    omega
  have read := key_path named (show Read.isBareKey ']' = false by decide) (by decide) (by decide)
    enough (ending ++ rest)
  unfold headerLine
  split
  · rename_i same
    exact absurd (List.cons.inj same).2 (named.bracket _ _)
  · rename_i same
    cases same
    simp only [read, bind, Option.bind, lineEnd_ending ends]
    rfl
  · simp_all

theorem headerLine_array {path : List String} {ending : List Char} (named : KeyPath path text)
    (ends : LineEnd rest ending) :
    headerLine ('[' :: '[' :: (text ++ ']' :: ']' :: (ending ++ rest)))
      = some (true, path, rest) := by
  have enough : path.length ≤ (text ++ ']' :: ']' :: (ending ++ rest)).length + 1 := by
    have := named.length_le
    simp only [List.length_append]
    omega
  have read := key_path named (show Read.isBareKey ']' = false by decide) (by decide) (by decide)
    enough (']' :: (ending ++ rest))
  simp only [headerLine, read, bind, Option.bind, lineEnd_ending ends]
  rfl

theorem keyValue_member {ending : List Char} {nesting : Nat} (room : nesting ≤ maxDepth)
    (member : Member (Written nesting) (key, found) text) (ends : LineEnd rest ending) :
    keyValue (text ++ (ending ++ rest)) = some ([key], found, rest) := by
  obtain @⟨_, _, name, space, behind, text, named, blank, blankAfter, held⟩ := member
  have reads : Reads maxDepth (Written nesting) := reads_written room
  obtain ⟨-, read⟩ := reads _ _ held
  simp only [List.append_assoc, List.cons_append]
  rw [keyValue, key_text named blank]
  simp only [bind, Option.bind, reads.head held blankAfter]
  rw [read]
  · simp only [lineEnd_ending ends]
    rfl
  · exact lineEnd_ended ends
  · simp only [List.length_cons, List.length_append]
    omega

theorem lines_worded {statement : Statement} {words ending : List Char} {current : List String}
    (void : Void True gap) (worded : Worded statement words) (ends : LineEnd rest ending) :
    lines (fuel + 1) current members (gap ++ (words ++ (ending ++ rest)))
      = (statement.follow (current, members)).bind fun state => lines fuel state.1 state.2 rest := by
  cases worded with
  | @header path text named =>
    rw [lines]
    simp only [List.append_assoc, List.cons_append, List.nil_append]
    rw [skipVoid_stop void (by decide) (by decide)]
    simp only [bind, Option.bind, headerLine_path named ends, Statement.follow]
    cases path.getLast? with
    | none => rfl
    | some last =>
      simp only [Bool.false_eq_true, if_false]
      cases enter (openTable last) path.dropLast members <;> rfl
  | @arrayHeader path text named =>
    rw [lines]
    simp only [List.append_assoc, List.cons_append, List.nil_append]
    rw [skipVoid_stop void (by decide) (by decide)]
    simp only [bind, Option.bind, headerLine_array named ends, Statement.follow]
    cases path.getLast? with
    | none => rfl
    | some last =>
      simp only [if_true]
      cases enter (appendTable last) path.dropLast members <;> rfl
  | @pair key found words nesting room member =>
    have read := keyValue_member room member ends
    obtain @⟨_, _, name, space, behind, text, named, blank, blankAfter, held⟩ := member
    obtain ⟨a, letters, rfl, filled, plain⟩ := named.plain
    have stop : a ≠ '\n' ∧ a ≠ '\r' ∧ a ≠ '#' ∧ a ≠ '[' := by
      refine ⟨?_, ?_, ?_, ?_⟩
      all_goals
        rintro rfl
        exact plain (by decide)
    simp only [List.cons_append] at read ⊢
    rw [lines, skipVoid_stop void filled ⟨stop.1, stop.2.1, stop.2.2.1⟩]
    simp only [bind, Option.bind]
    split
    · rename_i same
      cases same
    · rename_i same
      exact absurd (List.cons.inj same).1 stop.2.2.2
    · rw [read]
      simp only [Statement.follow, bind, Option.bind]
      cases enter (define true found [key]) current members <;> rfl

theorem Worded.length_pos {statement : Statement} (worded : Worded statement text) :
    0 < text.length := by
  cases worded with
  | header => exact Nat.succ_pos _
  | arrayHeader => exact Nat.succ_pos _
  | pair room member =>
    obtain ⟨named, -, -, -⟩ := member
    rw [List.length_append]
    exact Nat.lt_of_lt_of_le named.length_pos (Nat.le_add_right _ _)

theorem lines_document {statements : List Statement} {current : List String}
    (document : Document statements text) (enough : text.length < fuel) :
    lines fuel current members text
      = (statements.foldlM Statement.follow (current, members)).map (·.2) := by
  induction document generalizing fuel current members with
  | done void words =>
    obtain ⟨fuel, rfl⟩ := Nat.exists_eq_add_one.mpr (Nat.zero_lt_of_lt enough)
    rw [lines, skipVoid_void void, skipVoid_words words]
    rfl
  | @line statement statements space words ending rest void worded ends tail ih =>
    obtain ⟨fuel, rfl⟩ := Nat.exists_eq_add_one.mpr (Nat.zero_lt_of_lt enough)
    have filled := worded.length_pos
    simp only [List.length_append] at enough
    rw [lines_worded void worded ends, List.foldlM_cons]
    cases statement.follow (current, members) with
    | none => rfl
    | some state => exact ih (by omega)

theorem lines_mark (current : List String) (held : Members) (rest : List Char) :
    lines fuel current held ('\uFEFF' :: rest) = none := by
  cases fuel with
  | zero => rfl
  | succ fuel => rfl

theorem document_read {statements : List Statement} {content : String} {state : List String × Members}
    (document : Document statements text)
    (whole : content.toList = text ∨ content.toList = '\uFEFF' :: text)
    (followed : statements.foldlM Statement.follow ([], []) = some state) :
    Read.document content = .ok state.2 := by
  have read : lines (text.length + 1) [] [] text = some state.2 := by
    rw [lines_document document (Nat.lt_succ_self _), followed]
    rfl
  rcases whole with same | same
  · rw [Read.document, same]
    cases text with
    | nil => simp only [read]
    | cons c text =>
      by_cases mark : c = '\uFEFF'
      · subst mark
        rw [lines_mark] at read
        cases read
      · rw [List.length_cons] at read
        simp [mark, read]
  · rw [Read.document, same]
    simp [read]

end PinnedTree.Toml
