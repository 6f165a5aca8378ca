import PinnedTree.Proofs.Text.Spelling
import PinnedTree.Proofs.Toml.RoundTrip

namespace PinnedTree.Toml

open Read
open Text (Series Spelled hexDigit? hexNumber?)

def shortEscapes : List (Char × Char) :=
  [('"', '"'), ('\\', '\\'), ('b', '\x08'), ('t', '\t'), ('n', '\n'), ('f', '\x0c'), ('r', '\r'),
    ('e', '\x1b')]

/-- The letters after which a character is given by its number, with the digits that it takes. -/
def numberedEscapes : List (Char × Nat) := [('x', 2), ('u', 4), ('U', 8)]

inductive Letter : Char → List Char → Prop
  | plain {c : Char} (notQuote : c ≠ '"') (notSlash : c ≠ '\\') (plain : isPlain c = true) :
      Letter c [c]
  | short {c e : Char} (listed : (e, c) ∈ shortEscapes) : Letter c ['\\', e]
  | numbered {c e : Char} {digits : List Char} (listed : (e, digits.length) ∈ numberedEscapes)
      (number : hexNumber? digits = some c.toNat) : Letter c ('\\' :: e :: digits)

inductive Verbatim : Char → List Char → Prop
  | plain {c : Char} (notQuote : c ≠ '\'') (plain : isPlain c = true) : Verbatim c [c]

def Blank (gap : List Char) : Prop := ∀ c ∈ gap, isBlank c = true

theorem blank_nil : Blank [] := by simp [Blank]

theorem blank_space : Blank [' '] := by simp [Blank, isBlank]

def LineFeed (text : List Char) : Prop := text = ['\n'] ∨ text = ['\r', '\n']

inductive Void (commented : Prop) : List Char → Prop
  | nil : Void commented []
  | blank {c : Char} {rest : List Char} (blank : isBlank c = true) (tail : Void commented rest) :
      Void commented (c :: rest)
  | feed {first rest : List Char} (feed : LineFeed first) (tail : Void commented rest) :
      Void commented (first ++ rest)
  | comment {words first rest : List Char} (allowed : commented)
      (plain : ∀ c ∈ words, isPlain c = true) (feed : LineFeed first)
      (tail : Void commented rest) : Void commented ('#' :: (words ++ (first ++ rest)))

/-- A line that goes on after its end: nothing up to the next letter belongs to the text. -/
def Folded (text : List Char) : Prop :=
  ∃ blanks feed more, Blank blanks ∧ LineFeed feed ∧ Void False more ∧
    text = '\\' :: (blanks ++ (feed ++ more))

inductive Lines (quote : Char) (letter : Char → List Char → Prop) (folded : List Char → Prop) :
    List Char → List Char → Prop
  | nil : Lines quote letter folded [] []
  | letter {c : Char} {cs first rest : List Char} (head : letter c first)
      (tail : Lines quote letter folded cs rest) : Lines quote letter folded (c :: cs) (first ++ rest)
  | feed {cs first rest : List Char} (head : LineFeed first)
      (tail : Lines quote letter folded cs rest) :
      Lines quote letter folded (first ++ cs) (first ++ rest)
  | quote {cs rest : List Char} (single : ¬ Doubled quote (rest ++ [quote, quote, quote]))
      (tail : Lines quote letter folded cs rest) :
      Lines quote letter folded (quote :: cs) (quote :: rest)
  | folded {cs first rest : List Char} (head : folded first)
      (visible : ∀ c ∈ rest.head?, isBlank c = false ∧ c ≠ '\n' ∧ c ≠ '\r')
      (tail : Lines quote letter folded cs rest) : Lines quote letter folded cs (first ++ rest)

def Opened (quote : Char) (letter : Char → List Char → Prop) (folded : List Char → Prop)
    (cs text : List Char) : Prop :=
  ∃ first rest, Lines quote letter folded cs rest ∧ text = first ++ rest ∧
    (LineFeed first ∨ first = [] ∧ ∀ c ∈ rest.head?, c ≠ '\n' ∧ c ≠ '\r')

inductive KeyText : String → List Char → Prop
  | bare {s : String} (filled : s.toList ≠ []) (bare : ∀ c ∈ s.toList, Read.isBareKey c = true) :
      KeyText s s.toList
  | basic {s : String} {inner : List Char} (letters : Spelled Letter s.toList inner) :
      KeyText s ('"' :: (inner ++ ['"']))
  | literal {s : String} {inner : List Char} (letters : Spelled Verbatim s.toList inner) :
      KeyText s ('\'' :: (inner ++ ['\'']))

/-- The ways to spell a key of more parts: dots between them, and blanks around each part. -/
inductive KeyPath : List String → List Char → Prop
  | last {s : String} {before text after : List Char} (apart : Blank before) (part : KeyText s text)
      (apartAfter : Blank after) : KeyPath [s] (before ++ (text ++ after))
  | dotted {s : String} {names : List String} {before text after rest : List Char}
      (apart : Blank before) (part : KeyText s text) (apartAfter : Blank after)
      (tail : KeyPath names rest) :
      KeyPath (s :: names) (before ++ (text ++ (after ++ '.' :: rest)))

/-- The ways to spell a text. Up to two of the quotes that end it may belong to it. -/
inductive Quoted : String → List Char → Prop
  | basic {s : String} {inner : List Char} (letters : Spelled Letter s.toList inner) :
      Quoted s ('"' :: (inner ++ ['"']))
  | literal {s : String} {inner : List Char} (letters : Spelled Verbatim s.toList inner) :
      Quoted s ('\'' :: (inner ++ ['\'']))
  | basicLines {s : String} {cs inner : List Char} {quotes : Nat} (few : quotes ≤ 2)
      (lines : Opened '"' Letter Folded cs inner)
      (whole : s.toList = cs ++ List.replicate quotes '"') :
      Quoted s (List.replicate 3 '"' ++ (inner ++ List.replicate (3 + quotes) '"'))
  | literalLines {s : String} {cs inner : List Char} {quotes : Nat} (few : quotes ≤ 2)
      (lines : Opened '\'' Verbatim (fun _ => False) cs inner)
      (whole : s.toList = cs ++ List.replicate quotes '\'') :
      Quoted s (List.replicate 3 '\'' ++ (inner ++ List.replicate (3 + quotes) '\''))

variable {c e : Char} {cs digits gap inner text rest : List Char} {s : String}

theorem hexDigit?_ascii : ∀ n < 128, (hexDigit? (Char.ofNat n)).all (fun m =>
    isHex (Char.ofNat n) && digitValue (Char.ofNat n) = m) = true := by
  decide

theorem hexDigit?_value {n : Nat} (digit : hexDigit? c = some n) :
    isHex c = true ∧ digitValue c = n := by
  have bound : ∀ d : Char, c ≤ d → c.toNat ≤ d.toNat := fun _ below => below
  have small : c.toNat < 128 := by
    unfold hexDigit? at digit
    split at digit
    · rename_i within
      exact Nat.lt_of_le_of_lt (bound '9' within.2) (by decide)
    split at digit
    · rename_i within
      exact Nat.lt_of_le_of_lt (bound 'f' within.2) (by decide)
    split at digit
    · rename_i within
      exact Nat.lt_of_le_of_lt (bound 'F' within.2) (by decide)
    · cases digit
  have read := hexDigit?_ascii c.toNat small
  rw [Char.ofNat_toNat, digit] at read
  simpa using read

theorem hexNumber?_value {n m : Nat}
    (number : digits.foldlM (fun read c => (hexDigit? c).map (read * 16 + ·)) m = some n) :
    digits.all isHex = true ∧ digits.foldl (fun read c => read * 16 + digitValue c) m = n := by
  induction digits generalizing m with
  | nil => exact ⟨rfl, Option.some.inj number⟩
  | cons c digits ih =>
    rw [List.foldlM_cons] at number
    cases digit : hexDigit? c with
    | none => simp [digit] at number
    | some value =>
      simp only [digit, Option.map_some, Option.bind_eq_bind, Option.bind_some] at number
      obtain ⟨isHex, same⟩ := hexDigit?_value digit
      obtain ⟨allHex, whole⟩ := ih number
      exact ⟨by simp [isHex, allHex], by rw [List.foldl_cons, same, whole]⟩

theorem hexChar?_number (number : hexNumber? digits = some c.toNat) : hexChar? digits = some c := by
  obtain ⟨allHex, whole⟩ := hexNumber?_value number
  have valid : c.toNat.isValidChar := c.valid
  rw [hexChar?, if_pos allHex, digitsValue, whole, charOf?, if_pos valid, Char.ofNat_toNat]

theorem short_listed : ∀ escape ∈ shortEscapes, Short escape.1 escape.2 := by
  unfold Short
  decide

theorem four_digits (four : digits.length = 4) : ∃ a b d e, digits = [a, b, d, e] := by
  obtain ⟨a, rest, rfl⟩ := List.exists_cons_of_length_eq_add_one four
  obtain ⟨b, d, e, rfl⟩ := List.length_eq_three.mp (by simpa using four : rest.length = 3)
  exact ⟨a, b, d, e, rfl⟩

theorem eight_digits (eight : digits.length = 8) :
    ∃ a b d e f g h i, digits = [a, b, d, e, f, g, h, i] := by
  obtain ⟨a, b, d, e, first⟩ := four_digits (by simp [eight] : (digits.take 4).length = 4)
  obtain ⟨f, g, h, i, last⟩ := four_digits (by simp [eight] : (digits.drop 4).length = 4)
  exact ⟨a, b, d, e, f, g, h, i, by rw [← List.take_append_drop 4 digits, first, last]; rfl⟩

theorem basic_letter (letter : Letter c text) : basic (text ++ rest) = push c (basic rest) := by
  cases letter with
  | plain notQuote notSlash plain =>
    rw [List.singleton_append, basic.eq_def]
    simp [notQuote, notSlash, plain]
  | short listed => exact basic_short (short_listed _ listed)
  | @numbered e digits listed number =>
    have read := hexChar?_number number
    simp only [numberedEscapes, List.mem_cons, Prod.mk.injEq, List.not_mem_nil, or_false] at listed
    rcases listed with ⟨rfl, two⟩ | ⟨rfl, four⟩ | ⟨rfl, eight⟩
    · obtain ⟨a, b, rfl⟩ := List.length_eq_two.mp two
      rw [List.cons_append, List.cons_append, basic.eq_def]
      simp [read]
    · obtain ⟨a, b, d, e, rfl⟩ := four_digits four
      exact basic_quad read
    · obtain ⟨a, b, d, e, f, g, h, i, rfl⟩ := eight_digits eight
      rw [List.cons_append, List.cons_append, basic.eq_def]
      simp [read]

theorem basicLines_letter (letter : Letter c text) :
    basicLines false (text ++ rest) = push c (basicLines false rest) := by
  cases letter with
  | plain notQuote notSlash plain =>
    rw [List.singleton_append, basicLines.eq_def]
    simp [notQuote, notSlash, plain]
  | short listed => exact basicLines_short (short_listed _ listed)
  | @numbered e digits listed number =>
    have read := hexChar?_number number
    have inLine : ∀ more, endsLine ('x' :: more) = false ∧ endsLine ('U' :: more) = false :=
      fun _ => ⟨endsLine_cons (by decide) (by decide) (by decide),
        endsLine_cons (by decide) (by decide) (by decide)⟩
    simp only [numberedEscapes, List.mem_cons, Prod.mk.injEq, List.not_mem_nil, or_false] at listed
    rcases listed with ⟨rfl, two⟩ | ⟨rfl, four⟩ | ⟨rfl, eight⟩
    · obtain ⟨a, b, rfl⟩ := List.length_eq_two.mp two
      rw [List.cons_append, List.cons_append, basicLines.eq_def]
      simp [read, inLine]
    · obtain ⟨a, b, d, e, rfl⟩ := four_digits four
      exact basicLines_quad read
    · obtain ⟨a, b, d, e, f, g, h, i, rfl⟩ := eight_digits eight
      rw [List.cons_append, List.cons_append, basicLines.eq_def]
      simp [read, inLine]

theorem basic_spelled (spelled : Spelled Letter cs text) (rest : List Char) :
    basic (text ++ '"' :: rest) = some (cs, rest) := by
  induction spelled with
  | nil => exact basic_close rest
  | cons head tail ih =>
    rw [List.append_assoc, basic_letter head, ih]
    rfl

theorem spelled_plain (plain : ∀ c ∈ cs, c ≠ '"' ∧ c ≠ '\\' ∧ isPlain c = true) :
    Spelled Letter cs cs := by
  induction cs with
  | nil => exact .nil
  | cons c cs ih =>
    rw [List.forall_mem_cons] at plain
    exact .cons (.plain plain.1.1 plain.1.2.1 plain.1.2.2) (ih plain.2)

theorem literal_spelled (spelled : Spelled Verbatim cs text) (rest : List Char) :
    literal (text ++ '\'' :: rest) = some (cs, rest) := by
  induction spelled with
  | nil => simp [literal]
  | cons head tail ih =>
    obtain ⟨notQuote, plain⟩ := head
    rw [List.append_assoc, List.singleton_append, literal, if_neg notQuote, if_pos plain, ih]
    rfl

theorem skipVoid_comment {words : List Char} (plain : ∀ c ∈ words, isPlain c = true)
    (rest : List Char) :
    skipVoid true (words ++ rest) = skipVoid true rest := by
  induction words with
  | nil => rfl
  | cons c words ih =>
    rw [List.forall_mem_cons] at plain
    have notFeed : c ≠ '\n' ∧ c ≠ '\r' := by
      constructor
      all_goals
        rintro rfl
        exact absurd plain.1 (by decide)
    rw [List.cons_append, skipVoid]
    simp [notFeed, plain.1, ih plain.2]

theorem skipVoid_feed {first : List Char} (feed : LineFeed first) (commented : Bool) :
    skipVoid commented (first ++ rest) = skipVoid false rest := by
  rcases feed with rfl | rfl
  · simp [skipVoid]
  · simp [skipVoid]

theorem skipVoid_void {commented : Prop} (void : Void commented gap) (rest : List Char) :
    skipVoid false (gap ++ rest) = skipVoid false rest := by
  induction void with
  | nil => rfl
  | @blank c more blank tail ih =>
    have notFeed : c ≠ '\n' ∧ c ≠ '\r' := by
      constructor
      all_goals
        rintro rfl
        exact absurd blank (by decide)
    rw [List.cons_append, skipVoid]
    simp [notFeed, blank, ih]
  | feed feed tail ih => rw [List.append_assoc, skipVoid_feed feed, ih]
  | comment allowed plain feed tail ih =>
    rw [List.cons_append, List.append_assoc, List.append_assoc, skipVoid]
    simp [isBlank, skipVoid_comment plain, skipVoid_feed feed, ih]

theorem basicLines_passing_feed : basicLines true ('\n' :: rest) = basicLines true rest := by
  rw [basicLines.eq_def]
  simp

theorem basicLines_passing {first : List Char} (feed : LineFeed first) :
    basicLines true (first ++ rest) = basicLines true rest := by
  rcases feed with rfl | rfl
  · exact basicLines_passing_feed
  · rw [List.cons_append, List.singleton_append, basicLines.eq_def]
    simp [basicLines_passing_feed]

theorem basicLines_void (void : Void False gap) (rest : List Char) :
    basicLines true (gap ++ rest) = basicLines true rest := by
  induction void with
  | nil => rfl
  | blank blank tail ih =>
    rw [List.cons_append, basicLines.eq_def]
    simp [blank, ih]
  | feed feed tail ih => rw [List.append_assoc, basicLines_passing feed, ih]
  | comment allowed => exact allowed.elim

theorem void_blank (commented : Prop) (blank : Blank gap) : Void commented gap := by
  induction gap with
  | nil => exact .nil
  | cons c gap ih =>
    rw [Blank, List.forall_mem_cons] at blank
    exact .blank blank.1 (ih blank.2)

theorem skipBlank_append (blank : Blank gap) : skipBlank (gap ++ rest) = skipBlank rest :=
  List.dropWhile_append_of_pos blank

theorem basicLines_folded (folded : Folded text)
    (visible : ∀ c ∈ rest.head?, isBlank c = false ∧ c ≠ '\n' ∧ c ≠ '\r') :
    basicLines false (text ++ rest) = basicLines false rest := by
  obtain ⟨blanks, feed, more, blank, ends, void, rfl⟩ := folded
  have endsHere : endsLine (blanks ++ (feed ++ more) ++ rest) = true := by
    rw [endsLine, List.append_assoc, skipBlank_append blank]
    rcases ends with rfl | rfl <;> rfl
  have passed : basicLines true rest = basicLines false rest := by
    cases rest with
    | nil => rfl
    | cons c rest =>
      obtain ⟨filled, notFeed, notReturn⟩ := visible c rfl
      rw [basicLines.eq_def, basicLines.eq_def false]
      simp [filled, notFeed, notReturn]
  rw [List.cons_append, basicLines.eq_def]
  simp only [Bool.false_and, Bool.false_eq_true, if_false, endsHere, if_true]
  rw [List.append_assoc, basicLines_void (void_blank False blank), List.append_assoc,
    basicLines_passing ends, basicLines_void void, passed]
  exact if_neg (by decide)

theorem doubled_append {quote : Char} (more : List Char)
    (doubled : Doubled quote (text ++ [quote, quote, quote] ++ more)) :
    Doubled quote (text ++ [quote, quote, quote]) := by
  obtain ⟨tail, same⟩ := doubled
  rcases text with - | ⟨a, - | ⟨b, text⟩⟩
  · exact ⟨[quote], rfl⟩
  · cases same
    exact ⟨[quote, quote], rfl⟩
  · cases same
    exact ⟨_, rfl⟩

/-- A reader of lines: it reads letters, line ends and single quotes one after another, up to three
quotes in a row. -/
structure ReadsLines (quote : Char) (letter : Char → List Char → Prop) (folded : List Char → Prop)
    (read : List Char → Option (List Char × List Char)) : Prop where
  visible : isBlank quote = false ∧ quote ≠ '\n' ∧ quote ≠ '\r'
  letter : ∀ {c first rest}, letter c first → read (first ++ rest) = push c (read rest)
  feed : ∀ {rest}, read ('\n' :: rest) = push '\n' (read rest)
  carriage : ∀ {rest}, read ('\r' :: '\n' :: rest) = push '\r' (read ('\n' :: rest))
  single : ∀ {rest}, ¬ Doubled quote rest → read (quote :: rest) = push quote (read rest)
  folded : ∀ {first rest}, folded first →
    (∀ c ∈ rest.head?, isBlank c = false ∧ c ≠ '\n' ∧ c ≠ '\r') → read (first ++ rest) = read rest
  close : ∀ {rest}, read (quote :: quote :: quote :: rest) = some (closing quote rest)

theorem reads_basicLines : ReadsLines '"' Letter Folded (basicLines false) where
  visible := by decide
  letter := basicLines_letter
  feed := basicLines_feed _
  carriage := by
    intro rest
    rw [basicLines.eq_def]
    simp
  single := basicLines_quote
  folded := basicLines_folded
  close := basicLines_close

theorem reads_literalLines : ReadsLines '\'' Verbatim (fun _ => False) literalLines where
  visible := by decide
  letter := by
    rintro c first rest ⟨notQuote, plain⟩
    exact literalLines_plain notQuote (.inl plain)
  feed := literalLines_feed _
  carriage := by
    intro rest
    rw [literalLines.eq_def]
    simp
  single := literalLines_quote
  folded := False.elim
  close := literalLines_close

variable {quote : Char} {letter : Char → List Char → Prop} {folded : List Char → Prop}
  {read : List Char → Option (List Char × List Char)} {extra after : List Char}

theorem ReadsLines.lines (reads : ReadsLines quote letter folded read)
    (lines : Lines quote letter folded cs text)
    (ends : read (quote :: quote :: quote :: rest) = some (extra, after)) :
    read (text ++ quote :: quote :: quote :: rest) = some (cs ++ extra, after) := by
  induction lines with
  | nil => exact ends
  | letter head tail ih =>
    rw [List.append_assoc, reads.letter head, ih]
    rfl
  | feed head tail ih =>
    rcases head with rfl | rfl
    · rw [List.append_assoc, List.singleton_append, reads.feed, ih]
      rfl
    · rw [List.append_assoc, List.cons_append, List.singleton_append, reads.carriage, reads.feed,
        ih]
      rfl
  | @quote cs more single tail ih =>
    have apart : ¬ Doubled quote (more ++ quote :: quote :: quote :: rest) := by
      intro doubled
      exact single (doubled_append rest (by simpa using doubled))
    rw [List.cons_append, reads.single apart, ih]
    rfl
  | @folded cs first more head visible tail ih =>
    rw [List.append_assoc, reads.folded head, ih]
    cases more with
    | nil =>
      rintro c ⟨⟩
      exact reads.visible
    | cons a more => exact visible

theorem closing_replicate {quotes : Nat} (few : quotes ≤ 2) (other : rest.head? ≠ some c) :
    closing c (List.replicate quotes c ++ rest) = (List.replicate quotes c, rest) := by
  match quotes, few with
  | 0, _ => exact closing_nil other
  | 1, _ => exact closing_one other
  | 2, _ => exact closing_two

theorem dropFirstLine_opened (opened : Opened quote letter folded cs text)
    (visible : quote ≠ '\n' ∧ quote ≠ '\r') (rest : List Char) :
    ∃ inner, Lines quote letter folded cs inner ∧
      dropFirstLine (text ++ quote :: rest) = inner ++ quote :: rest := by
  obtain ⟨first, inner, lines, rfl, feed | ⟨rfl, plain⟩⟩ := opened
  · refine ⟨inner, lines, ?_⟩
    rcases feed with rfl | rfl <;> simp [dropFirstLine]
  · refine ⟨inner, lines, ?_⟩
    have plainHead : ∀ c ∈ (inner ++ quote :: rest).head?, c ≠ '\n' ∧ c ≠ '\r' := by
      cases inner with
      | nil =>
        rintro c ⟨⟩
        exact visible
      | cons a inner => exact plain
    rw [List.nil_append]
    unfold dropFirstLine
    split
    · rename_i same
      rw [same] at plainHead
      exact absurd rfl (plainHead _ rfl).1
    · rename_i same
      rw [same] at plainHead
      exact absurd rfl (plainHead _ rfl).2
    · rfl

theorem ReadsLines.opened {quotes : Nat} (reads : ReadsLines quote letter folded read)
    (few : quotes ≤ 2) (opened : Opened quote letter folded cs text)
    (other : rest.head? ≠ some quote) :
    read (dropFirstLine (text ++ (List.replicate (3 + quotes) quote ++ rest)))
      = some (cs ++ List.replicate quotes quote, rest) := by
  have split : List.replicate (3 + quotes) quote ++ rest
      = quote :: quote :: quote :: (List.replicate quotes quote ++ rest) := by
    rw [List.replicate_add, List.append_assoc]
    rfl
  obtain ⟨inner, lines, same⟩ := dropFirstLine_opened opened reads.visible.2
    (quote :: quote :: (List.replicate quotes quote ++ rest))
  rw [split, same]
  apply reads.lines lines
  rw [reads.close, closing_replicate few other]

theorem not_doubled (spelled : Spelled letter cs text)
    (heads : ∀ c first, letter c first → ∃ a more, first = a :: more ∧ a ≠ quote)
    (ended : rest.head? ≠ some quote) : ¬ Doubled quote (text ++ quote :: rest) := by
  rintro ⟨more, same⟩
  cases spelled with
  | nil =>
    rw [List.nil_append] at same
    exact ended (by rw [(List.cons.inj same).2, List.head?_cons])
  | cons head tail =>
    obtain ⟨a, first, rfl, other⟩ := heads _ _ head
    exact other (List.cons.inj same).1

theorem Letter.head (letter : Letter c text) : ∃ a more, text = a :: more ∧ a ≠ '"' := by
  cases letter with
  | plain notQuote => exact ⟨_, _, rfl, notQuote⟩
  | short => exact ⟨_, _, rfl, by decide⟩
  | numbered => exact ⟨_, _, rfl, by decide⟩

theorem Verbatim.head (letter : Verbatim c text) : ∃ a more, text = a :: more ∧ a ≠ '\'' := by
  cases letter with
  | plain notQuote => exact ⟨_, _, rfl, notQuote⟩

theorem string?_quoted (quoted : Quoted s text)
    (ended : rest.head? ≠ some '"' ∧ rest.head? ≠ some '\'') :
    string? (text ++ rest) = some (some (s, rest)) := by
  cases quoted with
  | @basic inner letters =>
    have single := not_doubled letters (fun _ _ => Letter.head) ended.1
    rw [List.cons_append, List.append_assoc, List.singleton_append, string?_double single,
      basic_spelled letters]
    simp [packed]
  | @literal inner letters =>
    have single := not_doubled letters (fun _ _ => Verbatim.head) ended.2
    rw [List.cons_append, List.append_assoc, List.singleton_append, string?_single single,
      literal_spelled letters]
    simp [packed]
  | basicLines few lines whole =>
    rw [List.append_assoc, List.append_assoc]
    simp only [List.replicate_succ, List.replicate_zero, List.cons_append, List.nil_append, string?]
    rw [reads_basicLines.opened few lines ended.1, ← whole]
    simp [packed]
  | literalLines few lines whole =>
    rw [List.append_assoc, List.append_assoc]
    simp only [List.replicate_succ, List.replicate_zero, List.cons_append, List.nil_append, string?]
    rw [reads_literalLines.opened few lines ended.2, ← whole]
    simp [packed]

theorem KeyText.head (key : KeyText s text) :
    ∃ a more, text = a :: more ∧ (Read.isBareKey a = true ∨ a = '"' ∨ a = '\'') := by
  cases key with
  | bare filled bare =>
    rcases letters : s.toList with - | ⟨a, more⟩
    · exact absurd letters filled
    · exact ⟨a, more, rfl, .inl (bare a (letters ▸ List.mem_cons_self))⟩
  | basic => exact ⟨_, _, rfl, .inr (.inl rfl)⟩
  | literal => exact ⟨_, _, rfl, .inr (.inr rfl)⟩

theorem KeyText.plain (key : KeyText s text) :
    ∃ a more, text = a :: more ∧ isBlank a = false ∧
      a ∉ ['\n', '\r', '#', '[', ']', '{', '}', ',', '\uFEFF'] := by
  obtain ⟨a, more, rfl, bare | rfl | rfl⟩ := key.head
  · refine ⟨a, more, rfl, isBlank_bare bare, fun special => ?_⟩
    have meaning : ∀ c ∈ ['\n', '\r', '#', '[', ']', '{', '}', ',', '\uFEFF'],
        Read.isBareKey c = false := by simp [Read.isBareKey]
    rw [meaning a special] at bare
    cases bare
  · exact ⟨_, _, rfl, by decide, by decide⟩
  · exact ⟨_, _, rfl, by decide, by decide⟩

theorem keyPart_text (key : KeyText s text) (ended : ∀ a ∈ rest.head?, Read.isBareKey a = false) :
    keyPart (text ++ rest) = some (s, rest) := by
  cases key with
  | bare filled bare =>
    have isBare : Write.isBareKey s.toList = true := by
      simpa [Write.isBareKey, filled, Read.isBareKey] using bare
    exact keyPart_bare isBare ended
  | basic letters =>
    rw [List.cons_append, List.append_assoc, List.singleton_append, keyPart,
      basic_spelled letters]
    simp [packed]
  | literal letters =>
    rw [List.cons_append, List.append_assoc, List.singleton_append, keyPart,
      literal_spelled letters]
    simp [packed]

theorem ended_blank (blank : Blank gap) (stop : Read.isBareKey c = false) :
    ∀ a ∈ (gap ++ c :: rest).head?, Read.isBareKey a = false := by
  cases gap with
  | nil =>
    rintro a ⟨⟩
    exact stop
  | cons b gap =>
    rintro a ⟨⟩
    cases bare : Read.isBareKey b with
    | false => rfl
    | true =>
      have isBlank := blank b List.mem_cons_self
      rw [isBlank_bare bare] at isBlank
      cases isBlank

theorem skipBlank_text (blank : Blank gap) (key : KeyText s text) :
    skipBlank (gap ++ (text ++ rest)) = text ++ rest := by
  obtain ⟨a, more, rfl, filled, -⟩ := key.plain
  rw [skipBlank_append blank, List.cons_append, skipBlank_cons filled]

theorem key_path {names : List String} {fuel : Nat} (path : KeyPath names text)
    (stop : Read.isBareKey c = false) (filled : isBlank c = false) (noDot : c ≠ '.')
    (enough : names.length ≤ fuel) (rest : List Char) :
    key fuel (text ++ c :: rest) = some (names, c :: rest) := by
  induction path generalizing fuel with
  | last blank part blankAfter =>
    obtain ⟨fuel, rfl⟩ := Nat.exists_eq_add_of_le' enough
    simp only [List.append_assoc, List.length_singleton]
    rw [key, skipBlank_text blank part, keyPart_text part (ended_blank blankAfter stop)]
    simp [skipBlank_append blankAfter, skipBlank_cons filled, noDot]
  | dotted blank part blankAfter tail ih =>
    rw [List.length_cons] at enough
    obtain ⟨fuel, rfl⟩ := Nat.exists_eq_add_one.mpr (Nat.zero_lt_of_lt enough)
    simp only [List.append_assoc, List.cons_append]
    rw [key, skipBlank_text blank part, keyPart_text part (ended_blank blankAfter (by decide))]
    simp [skipBlank_append blankAfter, skipBlank_cons (show isBlank '.' = false by decide),
      ih (Nat.le_of_lt_succ enough)]

theorem KeyText.length_pos (key : KeyText s text) : 0 < text.length := by
  obtain ⟨a, more, rfl, -⟩ := key.head
  exact Nat.succ_pos _

theorem KeyPath.length_le {names : List String} (path : KeyPath names text) :
    names.length ≤ text.length := by
  induction path with
  | last blank part =>
    have long := part.length_pos
    simp only [List.length_append, List.length_singleton]
    omega
  | dotted blank part blankAfter tail ih =>
    simp only [List.length_append, List.length_cons]
    omega

end PinnedTree.Toml
