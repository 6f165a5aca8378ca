import PinnedTree.Proofs.Json.RoundTrip
import PinnedTree.Proofs.Text.Spelling

namespace PinnedTree.Json

open Read
open Text (Series Spelled hexDigit? hexNumber?)

def shortEscapes : List (Char × Char) :=
  [('"', '"'), ('\\', '\\'), ('/', '/'), ('b', '\x08'), ('f', '\x0c'), ('n', '\n'), ('r', '\r'),
    ('t', '\t')]

inductive Letter : Char → List Char → Prop
  | plain {c : Char} (notQuote : c ≠ '"') (notSlash : c ≠ '\\') (visible : 0x20 ≤ c.toNat) :
      Letter c [c]
  | short {c e : Char} (listed : (e, c) ∈ shortEscapes) : Letter c ['\\', e]
  | unit {c : Char} {digits : List Char} (four : digits.length = 4)
      (number : hexNumber? digits = some c.toNat) : Letter c ('\\' :: 'u' :: digits)
  | pair {c : Char} {leading trailing : List Char} (wide : 0x10000 ≤ c.toNat)
      (four : leading.length = 4) (fourMore : trailing.length = 4)
      (first : hexNumber? leading = some (0xD800 + (c.toNat - 0x10000) / 0x400))
      (second : hexNumber? trailing = some (0xDC00 + (c.toNat - 0x10000) % 0x400)) :
      Letter c ('\\' :: 'u' :: (leading ++ '\\' :: 'u' :: trailing))

def Quoted (s : String) (text : List Char) : Prop :=
  ∃ inner, Spelled Letter s.toList inner ∧ text = '"' :: (inner ++ ['"'])

def Blank (gap : List Char) : Prop := ∀ c ∈ gap, isBlank c = true

theorem blank_nil : Blank [] := by simp [Blank]

theorem blank_space : Blank [' '] := by simp [Blank, isBlank]

inductive Member (spelled : Json → List Char → Prop) : String × Json → List Char → Prop
  | mk {key : String} {found : Json} {name space after text : List Char} (named : Quoted key name)
      (apart : Blank space) (apartAfter : Blank after) (held : spelled found text) :
      Member spelled (key, found) (name ++ (space ++ ':' :: (after ++ text)))

/-- The ways to spell a value of texts, with at most so many brackets around any of them. -/
def Written : Nat → Json → List Char → Prop
  | 0, found, text =>
    found = .null ∧ text = "null".toList ∨ ∃ s, found = .string s ∧ Quoted s text
  | depth + 1, found, text =>
    Written depth found text ∨
      (∃ items inner, found = .array items ∧ text = '[' :: inner ∧
        Series False Blank (Written depth) ']' true items inner) ∨
      ∃ members inner, found = .object members ∧ text = '{' :: inner ∧
        Series False Blank (Member (Written depth)) '}' true members inner

def Document (spelled : Json → List Char → Prop) (key : String) (found : Json)
    (text : List Char) : Prop :=
  ∃ before inner after, Blank before ∧ Blank after ∧
    Series False Blank (Member spelled) '}' true [(key, found)] inner ∧
    text = before ++ '{' :: (inner ++ after)

variable {c : Char} {cs digits gap text inner rest : List Char} {key s : String} {found : Json}
  {first : Bool} {depth fuel : Nat} {spelled : Json → List Char → Prop}

theorem hexUnit?_number {w x y z : Char} : hexUnit? w x y z = hexNumber? [w, x, y, z] := by
  simp only [hexUnit?, hexNumber?, List.foldlM, Nat.zero_mul, Nat.zero_add, bind, pure]
  cases hexDigit? w <;> cases hexDigit? x <;> cases hexDigit? y <;> cases hexDigit? z <;> simp

theorem four_letters (four : digits.length = 4) : ∃ w x y z, digits = [w, x, y, z] := by
  match digits, four with
  | [w, x, y, z], _ => exact ⟨w, x, y, z, rfl⟩

theorem escaped?_short : ∀ escape ∈ shortEscapes,
    escape.1 ≠ 'u' ∧ escaped? escape.1 = some escape.2 := by
  decide

theorem not_half (c : Char) : isTrailing c.toNat = false ∧ isLeading c.toNat = false := by
  have valid : c.toNat < 0xD800 ∨ 0xDFFF < c.toNat ∧ c.toNat < 0x110000 := c.valid
  simp only [isTrailing, isLeading, Bool.and_eq_false_iff, decide_eq_false_iff_not]
  omega

theorem paired_halves (wide : 0x10000 ≤ c.toNat) :
    isTrailing (0xD800 + (c.toNat - 0x10000) / 0x400) = false ∧
      isLeading (0xD800 + (c.toNat - 0x10000) / 0x400) = true ∧
      isTrailing (0xDC00 + (c.toNat - 0x10000) % 0x400) = true ∧
      paired (0xD800 + (c.toNat - 0x10000) / 0x400) (0xDC00 + (c.toNat - 0x10000) % 0x400) = c := by
  have valid : c.toNat < 0xD800 ∨ 0xDFFF < c.toNat ∧ c.toNat < 0x110000 := c.valid
  have whole : (0xD800 + (c.toNat - 0x10000) / 0x400 - 0xD800) * 0x400
      + (0xDC00 + (c.toNat - 0x10000) % 0x400 - 0xDC00) + 0x10000 = c.toNat := by omega
  simp only [isTrailing, isLeading, Bool.and_eq_false_iff, Bool.and_eq_true,
    decide_eq_false_iff_not, decide_eq_true_eq]
  refine ⟨by omega, by omega, by omega, ?_⟩
  rw [paired, whole, Char.ofNat_toNat]

theorem letters_letter (letter : Letter c text) (rest : List Char) :
    letters .keep (text ++ rest) = push c (letters .keep rest) := by
  cases letter with
  | plain notQuote notSlash visible =>
    rw [List.singleton_append, letters.eq_def]
    simp [notQuote, notSlash, Nat.not_lt.mpr visible]
  | short listed =>
    obtain ⟨notUnit, means⟩ := escaped?_short _ listed
    exact letters_short notUnit means rest
  | unit four number =>
    obtain ⟨w, x, y, z, rfl⟩ := four_letters four
    obtain ⟨notTrailing, notLeading⟩ := not_half c
    simp [letters, hexUnit?_number, number, notTrailing, notLeading]
  | pair wide four fourMore first second =>
    obtain ⟨w, x, y, z, rfl⟩ := four_letters four
    obtain ⟨w', x', y', z', rfl⟩ := four_letters fourMore
    obtain ⟨notTrailing, isLeading, isTrailing, same⟩ := paired_halves wide
    simp [letters, hexUnit?_number, first, second, notTrailing, isLeading, isTrailing, same]

theorem letters_spelled (spelled : Spelled Letter cs text) (rest : List Char) :
    letters .keep (text ++ '"' :: rest) = .ok (cs, rest) := by
  induction spelled with
  | nil =>
    rw [List.nil_append, letters.eq_def]
    rfl
  | cons head tail ih =>
    rw [List.append_assoc, letters_letter head, ih]
    rfl

theorem spelled_plain (plain : ∀ c ∈ cs, c ≠ '"' ∧ c ≠ '\\' ∧ 0x20 ≤ c.toNat) :
    Spelled Letter cs cs := by
  induction cs with
  | nil => exact .nil
  | cons c cs ih =>
    rw [List.forall_mem_cons] at plain
    exact .cons (.plain plain.1.1 plain.1.2.1 plain.1.2.2) (ih plain.2)

theorem string_spelled (spelled : Spelled Letter s.toList inner) (rest : List Char) :
    Read.string .keep (inner ++ '"' :: rest) = .ok (s, rest) := by
  simp [Read.string, letters_spelled spelled]

/-- What a reader needs of the ways to spell a value: that each begins with a letter which ends no
list, and is read as the value in as many steps as its length allows. -/
def Reads (depth : Nat) (spelled : Json → List Char → Prop) : Prop :=
  ∀ found text, spelled found text →
    (∃ c more, text = c :: more ∧ isBlank c = false ∧ c ≠ ']') ∧
    ∀ fuel rest, 2 * text.length ≤ fuel →
      value .keep fuel depth (text ++ rest) = .ok (found, rest)

theorem Reads.length_pos (reads : Reads depth spelled) (held : spelled found text) :
    0 < text.length := by
  obtain ⟨⟨c, more, rfl, -⟩, -⟩ := reads _ _ held
  exact Nat.succ_pos _

theorem value_blank (blank : Blank gap) (text : List Char) :
    value .keep fuel depth (gap ++ text) = value .keep fuel depth text := by
  cases fuel with
  | zero => rfl
  | succ fuel => rw [value, value, skipBlank_append blank]

theorem nextItem_head (blank : Blank gap)
    (begins : ∃ c more, text = c :: more ∧ isBlank c = false ∧ c ≠ ']') (rest : List Char) :
    nextItem .keep true (gap ++ (text ++ rest)) = .ok (true, text ++ rest) := by
  obtain ⟨c, more, rfl, filled, opens⟩ := begins
  simp [nextItem, skipBlank_append blank, skipBlank_cons filled, opens]

theorem nextItem_next {after : List Char} (blank : Blank gap) (blankAfter : Blank after)
    (begins : ∃ c more, text = c :: more ∧ isBlank c = false ∧ c ≠ ']') (rest : List Char) :
    nextItem .keep false (gap ++ ',' :: (after ++ (text ++ rest))) = .ok (true, text ++ rest) := by
  obtain ⟨c, more, rfl, filled, opens⟩ := begins
  have comma : ∀ text, skipBlank (',' :: text) = ',' :: text := skipBlank_cons (by decide)
  simp [nextItem, skipBlank_append blank, skipBlank_append blankAfter, comma,
    skipBlank_cons filled, opens]

theorem nextItem_done (blank : Blank gap) (rest : List Char) :
    nextItem .keep first (gap ++ ']' :: rest) = .ok (false, rest) := by
  have close : ∀ text, skipBlank (']' :: text) = ']' :: text := skipBlank_cons (by decide)
  simp [nextItem, skipBlank_append blank, close]

theorem items_item {after more : List Char} (reads : Reads depth spelled)
    (held : spelled found text) (enough : 2 * text.length ≤ fuel)
    (opens : nextItem .keep first after = .ok (true, text ++ more)) :
    items .keep (fuel + 1) depth first after
      = (items .keep fuel depth false more).map fun read => (found :: read.1, read.2) := by
  obtain ⟨-, read⟩ := reads _ _ held
  simp only [items, opens, bind, Except.bind, if_true, read fuel more enough]
  cases items .keep fuel depth false more <;> rfl

theorem items_series {xs : List Json} (reads : Reads depth spelled)
    (series : Series False Blank spelled ']' first xs text) (enough : 2 * text.length ≤ fuel)
    (rest : List Char) : items .keep fuel depth first (text ++ rest) = .ok (xs, rest) := by
  induction series generalizing fuel with
  | done blank =>
    simp only [List.length_append, List.length_cons] at enough
    obtain ⟨fuel, rfl⟩ := Nat.exists_eq_add_one.mpr (show 0 < fuel by omega)
    simp [items, nextItem_done blank, bind, Except.bind, pure, Except.pure]
  | trailing allowed => exact allowed.elim
  | head blank held tail ih =>
    have left := tail.length_pos
    have filled := reads.length_pos held
    simp only [List.length_append] at enough
    obtain ⟨fuel, rfl⟩ := Nat.exists_eq_add_one.mpr (show 0 < fuel by omega)
    rw [List.append_assoc, List.append_assoc, items_item reads held (by omega)
      (nextItem_head blank (reads _ _ held).1 _), ih (by omega)]
    rfl
  | next blank blankAfter held tail ih =>
    have left := tail.length_pos
    simp only [List.length_append, List.length_cons] at enough
    obtain ⟨fuel, rfl⟩ := Nat.exists_eq_add_one.mpr (show 0 < fuel by omega)
    rw [List.append_assoc, List.cons_append, List.append_assoc, List.append_assoc,
      items_item reads held (by omega) (nextItem_next blank blankAfter (reads _ _ held).1 _),
      ih (by omega)]
    rfl

theorem nextKey_head (blank : Blank gap) (rest : List Char) :
    nextKey .keep true (gap ++ '"' :: rest) = .ok (true, rest) := by
  have quote : ∀ text, skipBlank ('"' :: text) = '"' :: text := skipBlank_cons (by decide)
  simp [nextKey, skipBlank_append blank, quote]

theorem nextKey_next {more : List Char} (blank : Blank gap) (blankAfter : Blank more)
    (rest : List Char) :
    nextKey .keep false (gap ++ ',' :: (more ++ '"' :: rest)) = .ok (true, rest) := by
  have comma : ∀ text, skipBlank (',' :: text) = ',' :: text := skipBlank_cons (by decide)
  have quote : ∀ text, skipBlank ('"' :: text) = '"' :: text := skipBlank_cons (by decide)
  simp [nextKey, skipBlank_append blank, skipBlank_append blankAfter, comma, quote]

theorem nextKey_done (blank : Blank gap) (rest : List Char) :
    nextKey .keep first (gap ++ '}' :: rest) = .ok (false, rest) := by
  have close : ∀ text, skipBlank ('}' :: text) = '}' :: text := skipBlank_cons (by decide)
  simp [nextKey, skipBlank_append blank, close]

theorem colon_blank (blank : Blank gap) (rest : List Char) :
    colon (gap ++ ':' :: rest) = .ok rest := by
  have stop : ∀ text, skipBlank (':' :: text) = ':' :: text := skipBlank_cons (by decide)
  simp [colon, skipBlank_append blank, stop]

theorem members_member {space after more : List Char} (reads : Reads depth spelled)
    (letters : Spelled Letter key.toList inner) (blank : Blank space) (blankAfter : Blank after)
    (held : spelled found text) (enough : 2 * text.length ≤ fuel)
    (opens : nextKey .keep first gap
      = .ok (true, inner ++ '"' :: (space ++ ':' :: (after ++ (text ++ more))))) :
    members .keep (fuel + 1) depth first gap
      = (members .keep fuel depth false more).map fun read => ((key, found) :: read.1, read.2) := by
  obtain ⟨-, read⟩ := reads _ _ held
  simp only [members, opens, bind, Except.bind, if_true, string_spelled letters,
    colon_blank blank, value_blank blankAfter, read fuel more enough]
  cases members .keep fuel depth false more <;> rfl

theorem members_series {entries : List (String × Json)} (reads : Reads depth spelled)
    (series : Series False Blank (Member spelled) '}' first entries text)
    (enough : 2 * text.length ≤ fuel) (rest : List Char) :
    members .keep fuel depth first (text ++ rest) = .ok (entries, rest) := by
  induction series generalizing fuel with
  | done blank =>
    simp only [List.length_append, List.length_cons] at enough
    obtain ⟨fuel, rfl⟩ := Nat.exists_eq_add_one.mpr (show 0 < fuel by omega)
    simp [members, nextKey_done blank, bind, Except.bind, pure, Except.pure]
  | trailing allowed => exact allowed.elim
  | head blank member tail ih =>
    obtain ⟨⟨inner, letters, rfl⟩, apart, apartAfter, held⟩ := member
    simp only [List.length_append, List.length_cons] at enough
    obtain ⟨fuel, rfl⟩ := Nat.exists_eq_add_one.mpr (show 0 < fuel by omega)
    simp only [List.append_assoc, List.cons_append, List.nil_append]
    rw [members_member reads letters apart apartAfter held (by omega) (nextKey_head blank _),
      ih (by omega)]
    rfl
  | next blank blankAfter member tail ih =>
    obtain ⟨⟨inner, letters, rfl⟩, apart, apartAfter, held⟩ := member
    simp only [List.length_append, List.length_cons] at enough
    obtain ⟨fuel, rfl⟩ := Nat.exists_eq_add_one.mpr (show 0 < fuel by omega)
    simp only [List.append_assoc, List.cons_append, List.nil_append]
    rw [members_member reads letters apart apartAfter held (by omega)
      (nextKey_next blank blankAfter _), ih (by omega)]
    rfl

theorem reads_scalar (depth : Nat) : Reads depth (Written 0) := by
  rintro found text (⟨rfl, rfl⟩ | ⟨s, rfl, inner, letters, rfl⟩)
  · refine ⟨⟨'n', _, rfl, by decide, by decide⟩, fun fuel rest enough => ?_⟩
    obtain ⟨fuel, rfl⟩ := Nat.exists_eq_add_one.mpr (show 0 < fuel by simp at enough; omega)
    rfl
  · refine ⟨⟨'"', _, rfl, by decide, by decide⟩, fun fuel rest enough => ?_⟩
    obtain ⟨fuel, rfl⟩ := Nat.exists_eq_add_one.mpr (show 0 < fuel by simp at enough; omega)
    have quote : ∀ text, skipBlank ('"' :: text) = '"' :: text := skipBlank_cons (by decide)
    simp [value, quote, scalar, string_spelled letters, bind, Except.bind, pure, Except.pure]

theorem reads_written {nesting : Nat} (room : nesting < depth) :
    Reads depth (Written nesting) := by
  induction nesting generalizing depth with
  | zero => exact reads_scalar depth
  | succ nesting ih =>
    have inside : inner .keep depth = .ok (depth - 1) := by
      rw [Read.inner]
      exact if_neg (by omega)
    have reads : Reads (depth - 1) (Written nesting) := ih (by omega)
    rintro found text (shallow | ⟨items, series, rfl, rfl, spelled⟩ |
      ⟨entries, series, rfl, rfl, spelled⟩)
    · exact ih (by omega) found text shallow
    · refine ⟨⟨'[', _, rfl, by decide, by decide⟩, fun fuel rest enough => ?_⟩
      rw [List.length_cons] at enough
      obtain ⟨fuel, rfl⟩ := Nat.exists_eq_add_one.mpr (show 0 < fuel by omega)
      have opens : ∀ text, skipBlank ('[' :: text) = '[' :: text := skipBlank_cons (by decide)
      simp [value, opens, inside, items_series reads spelled (show _ ≤ fuel by omega), bind,
        Except.bind, pure, Except.pure]
    · refine ⟨⟨'{', _, rfl, by decide, by decide⟩, fun fuel rest enough => ?_⟩
      rw [List.length_cons] at enough
      obtain ⟨fuel, rfl⟩ := Nat.exists_eq_add_one.mpr (show 0 < fuel by omega)
      have opens : ∀ text, skipBlank ('{' :: text) = '{' :: text := skipBlank_cons (by decide)
      simp [value, opens, inside, members_series reads spelled (show _ ≤ fuel by omega), bind,
        Except.bind, pure, Except.pure]

theorem skipBlank_blank (blank : Blank gap) : skipBlank gap = [] := by
  have passed := skipBlank_append blank []
  rwa [List.append_nil] at passed

theorem parse_document {α : Type} {form : RecordForm α} {a : α} (single : form.fields = [key])
    (reads : ∀ space held rest, Blank space → spelled found held →
      form.read (space ++ (held ++ rest)) = .ok (a, rest))
    (document : Document spelled key found text) : form.parse text = .ok [(key, a)] := by
  obtain ⟨before, inner, after, blank, blankAfter, series, rfl⟩ := document
  have brace : ∀ text, skipBlank ('{' :: text) = '{' :: text := skipBlank_cons (by decide)
  have found : form.members (enough (inner ++ after)) true [] (inner ++ after)
      = .ok ([(key, a)], after) := by
    cases series with
    | @head _ _ gap words rest apart member tail =>
      cases tail with
      | trailing allowed => exact allowed.elim
      | @done _ space close =>
        obtain @⟨_, _, name, colonSpace, valueSpace, held, ⟨letters, spelledKey, rfl⟩, colonBlank,
          valueBlank, isHeld⟩ := member
        obtain ⟨fuel, steps⟩ : ∃ fuel, enough (gap ++ ('"' :: (letters ++ ['"']) ++
            (colonSpace ++ ':' :: (valueSpace ++ held)) ++ (space ++ ['}'])) ++ after) = fuel + 2 :=
          ⟨_, rfl⟩
        rw [steps]
        simp only [List.append_assoc, List.cons_append, List.nil_append]
        simp only [RecordForm.members, nextKey_head apart, nextKey_done close, bind, Except.bind,
          string_spelled spelledKey, colon_blank colonBlank, reads _ _ _ valueBlank isHeld, single]
        simp [pure, Except.pure]
  rw [RecordForm.parse, skipBlank_append blank, brace]
  simp [found, skipBlank_blank blankAfter, bind, Except.bind, pure, Except.pure]

end PinnedTree.Json
