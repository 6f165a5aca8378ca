import PinnedTree.Toml.Reader
import PinnedTree.Toml.Writer

namespace PinnedTree.Toml

open Read

variable {c e : Char} {letters text rest : List Char} {s : String}

theorem hexChar?_hexQuad : ∀ n < 128, (n < 0x20 ∨ n = 0x7F) →
    hexChar? (Write.hexQuad n) = some (Char.ofNat n) := by
  decide

theorem hexChar?_control (control : Write.isControl c = true) :
    hexChar? (Write.hexQuad c.toNat) = some c := by
  simp only [Write.isControl, Bool.or_eq_true, decide_eq_true_eq] at control
  rw [hexChar?_hexQuad c.toNat (by omega) control, Char.ofNat_toNat]

theorem isPlain_iff : isPlain c = true ↔ c = '\t' ∨ Write.isControl c = false := by
  simp [isPlain, Write.isControl]

def Short (e c : Char) : Prop :=
  escaped? e = some c ∧ e ≠ 'x' ∧ e ≠ 'u' ∧ e ≠ 'U' ∧ isBlank e = false ∧ e ≠ '\n' ∧ e ≠ '\r'

theorem short_quote : Short '"' '"' := by
  unfold Short
  decide

theorem short_feed : Short 'n' '\n' := by
  unfold Short
  decide

theorem escape_forms (c : Char) :
    (∃ e, Write.escape c = ['\\', e] ∧ Short e c) ∨
      (Write.escape c = '\\' :: 'u' :: Write.hexQuad c.toNat ∧ Write.isControl c = true) ∨
      (Write.escape c = [c] ∧ c ≠ '\\' ∧ isPlain c = true ∧ c ≠ '\n' ∧ c ≠ '\r') := by
  unfold Write.escape
  split
  · subst_vars
    exact .inl ⟨'b', rfl, by unfold Short; decide⟩
  split
  · subst_vars
    exact .inl ⟨'t', rfl, by unfold Short; decide⟩
  split
  · subst_vars
    exact .inl ⟨'f', rfl, by unfold Short; decide⟩
  split
  · subst_vars
    exact .inl ⟨'r', rfl, by unfold Short; decide⟩
  split
  · subst_vars
    exact .inl ⟨'\\', rfl, by unfold Short; decide⟩
  split
  · rename_i control
    exact .inr (.inl ⟨rfl, control⟩)
  · rename_i _ _ _ notReturn notSlash notControl
    refine .inr (.inr ⟨rfl, notSlash, isPlain_iff.mpr (.inr (by simpa using notControl)), ?_, ?_⟩)
    · rintro rfl
      exact notControl (by decide)
    · exact notReturn

theorem basic_short (short : Short e c) : basic ('\\' :: e :: text) = push c (basic text) := by
  obtain ⟨means, notByte, notQuad, notLong, -⟩ := short
  rw [basic.eq_def]
  simp [notByte, notQuad, notLong, means]

theorem basic_quad {a b d f : Char} (read : hexChar? [a, b, d, f] = some c) :
    basic ('\\' :: 'u' :: a :: b :: d :: f :: text) = push c (basic text) := by
  rw [basic.eq_def]
  simp [read]

theorem basic_escape (notQuote : c ≠ '"') :
    basic (Write.escape c ++ text) = push c (basic text) := by
  obtain ⟨e, form, short⟩ | ⟨form, control⟩ | ⟨form, notSlash, plain, -⟩ := escape_forms c
  · rw [form]
    exact basic_short short
  · rw [form]
    exact basic_quad (hexChar?_control control)
  · rw [form, List.singleton_append, basic.eq_def]
    simp [notQuote, notSlash, plain]

theorem basic_basic (letters rest : List Char) :
    basic (Write.basic letters ++ '"' :: rest) = some (letters, rest) := by
  induction letters with
  | nil =>
    rw [Write.basic, List.flatMap_nil, List.nil_append, basic_close]
  | cons c more ih =>
    have onward : ∀ first, basic (first ++ (Write.basic more ++ '"' :: rest))
        = push c (basic (Write.basic more ++ '"' :: rest)) →
        basic (first ++ (Write.basic more ++ '"' :: rest)) = some (c :: more, rest) := by
      intro first same
      rw [same, ih]
      rfl
    rw [Write.basic, List.flatMap_cons, List.append_assoc]
    change basic (_ ++ (Write.basic more ++ '"' :: rest)) = _
    split
    · subst_vars
      exact onward _ (basic_short short_quote)
    · rename_i notQuote
      split
      · subst_vars
        exact onward _ (basic_short short_feed)
      · exact onward _ (basic_escape notQuote)

theorem literal_letters (oneLine : Write.isOneLine letters = true) (unquoted : '\'' ∉ letters) :
    literal (letters ++ '\'' :: rest) = some (letters, rest) := by
  induction letters with
  | nil => simp [literal]
  | cons c more ih =>
    simp only [Write.isOneLine, List.all_cons, Bool.and_eq_true] at oneLine
    simp only [List.mem_cons, not_or] at unquoted
    have plain : isPlain c = true := isPlain_iff.mpr (by simpa using oneLine.1)
    rw [List.cons_append, literal, if_neg (Ne.symm unquoted.1), if_pos plain,
      ih oneLine.2 unquoted.2]
    rfl

theorem endsLine_cons (filled : isBlank c = false) (notFeed : c ≠ '\n') (notReturn : c ≠ '\r') :
    endsLine (c :: text) = false := by
  simp [endsLine, skipBlank, filled, notFeed, notReturn]

theorem basicLines_short (short : Short e c) :
    basicLines false ('\\' :: e :: text) = push c (basicLines false text) := by
  obtain ⟨means, notByte, notQuad, notLong, filled, notFeed, notReturn⟩ := short
  have inLine : endsLine (e :: text) = false := endsLine_cons filled notFeed notReturn
  rw [basicLines.eq_def]
  simp [notByte, notQuad, notLong, means, inLine]

theorem basicLines_quad {a b d f : Char} (read : hexChar? [a, b, d, f] = some c) :
    basicLines false ('\\' :: 'u' :: a :: b :: d :: f :: text)
      = push c (basicLines false text) := by
  have inLine : ∀ more, endsLine ('u' :: more) = false := fun _ =>
    endsLine_cons (by decide) (by decide) (by decide)
  rw [basicLines.eq_def]
  simp [read, inLine]

theorem basicLines_escape (notQuote : c ≠ '"') :
    basicLines false (Write.escape c ++ text) = push c (basicLines false text) := by
  obtain ⟨e, form, short⟩ | ⟨form, control⟩ | ⟨form, notSlash, plain, -⟩ := escape_forms c
  · rw [form]
    exact basicLines_short short
  · rw [form]
    exact basicLines_quad (hexChar?_control control)
  · rw [form, List.singleton_append, basicLines.eq_def]
    simp [notQuote, notSlash, plain]

theorem closing_nil (other : rest.head? ≠ some c) : closing c rest = ([], rest) := by
  rcases rest with - | ⟨a, - | ⟨b, more⟩⟩
  · rfl
  · simp [closing, show a ≠ c by simpa using other]
  · simp [closing, show a ≠ c by simpa using other]

theorem closing_one (other : rest.head? ≠ some c) : closing c (c :: rest) = ([c], rest) := by
  rcases rest with - | ⟨a, more⟩
  · simp [closing]
  · simp [closing, show a ≠ c by simpa using other]

theorem closing_two : closing c (c :: c :: rest) = ([c, c], rest) := by
  simp [closing]

def Doubled (c : Char) (text : List Char) : Prop := ∃ more, text = c :: c :: more

theorem basicLines_close :
    basicLines false ('"' :: '"' :: '"' :: text) = some (closing '"' text) := by
  rw [basicLines.eq_def]
  simp

theorem basicLines_quote (single : ¬ Doubled '"' text) :
    basicLines false ('"' :: text) = push '"' (basicLines false text) := by
  rw [basicLines.eq_def]
  rcases text with - | ⟨a, - | ⟨b, more⟩⟩
  · simp
  · simp
  · have other : ¬ (a = '"' ∧ b = '"') := by
      rintro ⟨rfl, rfl⟩
      exact single ⟨more, rfl⟩
    simp [other]

theorem basicLines_ne_quote {quotes : Nat} (other : c ≠ '"' ∨ 2 ≤ quotes) (tail : List Char) :
    Write.basicLines quotes (c :: letters) ++ text ≠ '"' :: tail := by
  rw [Write.basicLines]
  split
  · rename_i quote
    rw [if_pos (other.resolve_left fun notQuote => notQuote quote)]
    simp
  · rename_i notQuote
    split
    · simp
    · obtain ⟨e, form, -⟩ | ⟨form, -⟩ | ⟨form, -⟩ := escape_forms c
      · simp [form]
      · simp [form]
      · simp [form, notQuote]

theorem doubled_basicLines {quotes : Nat}
    (doubled : Doubled '"' (Write.basicLines (quotes + 1) letters ++ '"' :: '"' :: '"' :: rest)) :
    letters = [] ∨ letters = ['"'] ∧ quotes = 0 := by
  obtain ⟨tail, same⟩ := doubled
  rcases letters with - | ⟨a, more⟩
  · exact .inl rfl
  by_cases quote : a = '"'
  · by_cases fresh : quotes = 0
    · subst quote fresh
      rcases more with - | ⟨b, more⟩
      · exact .inr ⟨rfl, rfl⟩
      · have written : Write.basicLines 1 ('"' :: b :: more)
            = '"' :: Write.basicLines 2 (b :: more) := rfl
        rw [Nat.zero_add, written, List.cons_append] at same
        exact absurd (List.cons.inj same).2 (basicLines_ne_quote (.inr (Nat.le_refl 2)) _)
    · exact absurd same (basicLines_ne_quote (.inr (by omega)) _)
  · exact absurd same (basicLines_ne_quote (.inl quote) _)

theorem basicLines_basicLines (letters : List Char) (quotes : Nat)
    (ended : rest.head? ≠ some '"') :
    basicLines false (Write.basicLines quotes letters ++ '"' :: '"' :: '"' :: rest)
      = some (letters, rest) := by
  induction letters generalizing quotes with
  | nil => rw [Write.basicLines, List.nil_append, basicLines_close, closing_nil ended]
  | cons c more ih =>
    rw [Write.basicLines]
    split
    · rename_i quote
      subst quote
      split
      · rw [List.cons_append, List.cons_append, basicLines_short short_quote, ih]
        rfl
      · rename_i few
        rw [List.cons_append]
        by_cases doubled : Doubled '"'
            (Write.basicLines (quotes + 1) more ++ '"' :: '"' :: '"' :: rest)
        · rcases doubled_basicLines doubled with rfl | ⟨rfl, rfl⟩
          · exact basicLines_close.trans (congrArg some (closing_one ended))
          · exact basicLines_close.trans (congrArg some closing_two)
        · rw [basicLines_quote doubled, ih]
          rfl
    · rename_i notQuote
      split
      · rename_i feed
        rw [List.cons_append, basicLines_feed, ih, feed]
        rfl
      · rw [List.append_assoc, basicLines_escape notQuote, ih]
        rfl

theorem literalLines_close :
    literalLines ('\'' :: '\'' :: '\'' :: text) = some (closing '\'' text) := rfl

theorem literalLines_quote (single : ¬ Doubled '\'' text) :
    literalLines ('\'' :: text) = push '\'' (literalLines text) := by
  rw [literalLines.eq_def]
  rcases text with - | ⟨a, - | ⟨b, more⟩⟩
  · simp
  · simp
  · have other : ¬ (a = '\'' ∧ b = '\'') := by
      rintro ⟨rfl, rfl⟩
      exact single ⟨more, rfl⟩
    simp [other]

theorem literalLines_plain (notQuote : c ≠ '\'') (allowed : isPlain c = true ∨ c = '\n') :
    literalLines (c :: text) = push c (literalLines text) := by
  rcases allowed with plain | rfl
  · rw [literalLines.eq_def]
    simp [notQuote, plain]
  · exact literalLines_feed text

theorem literalLines_letters (manyLines : Write.isManyLines letters = true)
    (noRun : Write.hasRun '\'' 3 letters = false) (ended : rest.head? ≠ some '\'') :
    literalLines (letters ++ '\'' :: '\'' :: '\'' :: rest) = some (letters, rest) := by
  induction letters with
  | nil => rw [List.nil_append, literalLines_close, closing_nil ended]
  | cons c more ih =>
    simp only [Write.isManyLines, List.all_cons, Bool.and_eq_true] at manyLines
    simp only [Write.hasRun, Bool.or_eq_false_iff] at noRun
    have onward := ih manyLines.2 noRun.2
    rw [List.cons_append]
    by_cases quote : c = '\''
    · subst quote
      by_cases doubled : Doubled '\'' (more ++ '\'' :: '\'' :: '\'' :: rest)
      · obtain ⟨tail, same⟩ := doubled
        rcases more with - | ⟨a, - | ⟨b, more⟩⟩
        · exact literalLines_close.trans (congrArg some (closing_one ended))
        · cases same
          exact literalLines_close.trans (congrArg some closing_two)
        · cases same
          simp [List.replicate] at noRun
      · rw [literalLines_quote doubled, onward]
        rfl
    · have allowed : isPlain c = true ∨ c = '\n' := by
        simp only [Bool.or_eq_true, decide_eq_true_eq, Bool.not_eq_true'] at manyLines
        rcases manyLines.1 with (tab | feed) | visible
        · exact .inl (isPlain_iff.mpr (.inl tab))
        · exact .inr feed
        · exact .inl (isPlain_iff.mpr (.inr visible))
      rw [literalLines_plain quote allowed, onward]
      rfl

theorem string?_double (single : ¬ Doubled '"' text) :
    string? ('"' :: text) = some (packed (basic text)) := by
  unfold string?
  split
  · rename_i more same
    cases same
    exact absurd ⟨more, rfl⟩ single
  all_goals simp_all

theorem string?_single (single : ¬ Doubled '\'' text) :
    string? ('\'' :: text) = some (packed (literal text)) := by
  unfold string?
  split
  all_goals rename_i same
  · cases same
  · cases same
  · cases same
    exact absurd ⟨_, rfl⟩ single
  · cases same
    rfl
  · simp_all

theorem string?_basic (ended : rest.head? ≠ some '"') :
    string? (Write.between "\"" (Write.basic letters) ++ rest)
      = some (some (String.ofList letters, rest)) := by
  have whole : Write.between "\"" (Write.basic letters) ++ rest
      = '"' :: (Write.basic letters ++ '"' :: rest) := by simp [Write.between]
  rw [whole, string?_double, basic_basic]
  · rfl
  · rintro ⟨more, same⟩
    rcases letters with - | ⟨c, letters⟩
    · cases same
      exact ended rfl
    · rw [Write.basic, List.flatMap_cons, List.append_assoc] at same
      split at same
      · cases same
      · rename_i notQuote
        split at same
        · cases same
        · obtain ⟨e, form, -⟩ | ⟨form, -⟩ | ⟨form, -⟩ := escape_forms c
          · simp [form] at same
          · simp [form] at same
          · simp [form, notQuote] at same

theorem string?_literal (oneLine : Write.isOneLine letters = true) (unquoted : '\'' ∉ letters)
    (filled : letters ≠ []) :
    string? (Write.between "'" letters ++ rest) = some (some (String.ofList letters, rest)) := by
  have whole : Write.between "'" letters ++ rest = '\'' :: (letters ++ '\'' :: rest) := by
    simp [Write.between]
  rw [whole, string?_single, literal_letters oneLine unquoted]
  · rfl
  · rintro ⟨more, same⟩
    rcases letters with - | ⟨c, letters⟩
    · exact filled rfl
    · exact unquoted (by simp [(List.cons.inj same).1])

theorem dropFirstLine_opening
    (plain : '\n' ∉ letters → text.head? ≠ some '\n' ∧ text.head? ≠ some '\r') :
    dropFirstLine (Write.opening letters ++ text) = text := by
  unfold Write.opening
  split
  · rfl
  · rename_i oneLine
    obtain ⟨noFeed, noReturn⟩ := plain (by simpa using oneLine)
    rcases text with - | ⟨a, more⟩
    · rfl
    · unfold dropFirstLine
      split
      · simp_all
      · simp_all
      · simp_all

theorem head_basicLines (noFeed : '\n' ∉ letters) :
    (Write.basicLines 0 letters ++ '"' :: text).head? ≠ some '\n' ∧
      (Write.basicLines 0 letters ++ '"' :: text).head? ≠ some '\r' := by
  rcases letters with - | ⟨c, letters⟩
  · simp [Write.basicLines]
  · simp only [List.mem_cons, not_or] at noFeed
    rw [Write.basicLines]
    split
    · simp
    · rw [if_neg (Ne.symm noFeed.1)]
      obtain ⟨e, form, -⟩ | ⟨form, -⟩ | ⟨form, -, -, notFeed, notReturn⟩ := escape_forms c
      · simp [form]
      · simp [form]
      · simp [form, notFeed, notReturn]

theorem string?_basicLines {start : List Char} (ended : rest.head? ≠ some '"')
    (starts : start = Write.opening letters) :
    string? (Write.between "\"\"\"" (start ++ Write.basicLines 0 letters) ++ rest)
      = some (some (String.ofList letters, rest)) := by
  have whole : Write.between "\"\"\"" (start ++ Write.basicLines 0 letters) ++ rest
      = '"' :: '"' :: '"' :: (start ++ (Write.basicLines 0 letters ++ '"' :: '"' :: '"' :: rest)) := by
    simp [Write.between]
  rw [whole, starts]
  simp only [string?]
  rw [dropFirstLine_opening head_basicLines, basicLines_basicLines letters 0 ended]
  rfl

theorem string?_literalLines (manyLines : Write.isManyLines letters = true)
    (noRun : Write.hasRun '\'' 3 letters = false) (ended : rest.head? ≠ some '\'') :
    string? (Write.between "\'\'\'" (Write.opening letters ++ letters) ++ rest)
      = some (some (String.ofList letters, rest)) := by
  have whole : Write.between "\'\'\'" (Write.opening letters ++ letters) ++ rest
      = '\'' :: '\'' :: '\'' ::
        (Write.opening letters ++ (letters ++ '\'' :: '\'' :: '\'' :: rest)) := by
    simp [Write.between]
  rw [whole]
  simp only [string?]
  rw [dropFirstLine_opening, literalLines_letters manyLines noRun ended]
  · rfl
  · intro noFeed
    rcases letters with - | ⟨c, letters⟩
    · simp
    · simp only [List.mem_cons, not_or] at noFeed
      simp only [Write.isManyLines, List.all_cons, Bool.and_eq_true] at manyLines
      refine ⟨by simpa using Ne.symm noFeed.1, fun carriage => ?_⟩
      obtain rfl : c = '\r' := by simpa using carriage
      exact absurd manyLines.1 (by decide)

theorem string?_string (s : String) (ended : rest.head? ≠ some '"' ∧ rest.head? ≠ some '\'') :
    string? (Write.string s ++ rest) = some (some (s, rest)) := by
  have packed : ∀ text, string? text = some (some (String.ofList s.toList, rest)) →
      string? text = some (some (s, rest)) := fun _ same => by simpa using same
  unfold Write.string
  simp only
  split
  · exact packed _ (string?_basic ended.1)
  split
  · rename_i notBasic literal
    simp only [Bool.and_eq_true, Bool.not_eq_true', List.contains_iff_mem,
      Bool.eq_false_iff, ne_eq] at literal notBasic
    refine packed _ (string?_literal literal.1 literal.2 fun empty => notBasic ?_)
    simp [empty, Write.isOneLine]
  split
  · exact packed _ (string?_basicLines ended.1 rfl)
  split
  · rename_i literal
    simp only [Bool.and_eq_true, Bool.not_eq_true'] at literal
    exact packed _ (string?_literalLines literal.1 literal.2 ended.2)
  split
  · rename_i feeds
    exact packed _ (string?_basicLines ended.1 (by rw [Write.opening, if_pos feeds]))
  · exact packed _ (string?_basic ended.1)

theorem keyPart_bare (bare : Write.isBareKey s.toList = true)
    (ended : ∀ a ∈ rest.head?, Read.isBareKey a = false) :
    keyPart (s.toList ++ rest) = some (s, rest) := by
  simp only [Write.isBareKey, Bool.and_eq_true, Bool.not_eq_true'] at bare
  have all : ∀ a ∈ s.toList, Read.isBareKey a = true := List.all_eq_true.mp bare.2
  have taken : (s.toList ++ rest).takeWhile Read.isBareKey = s.toList := by
    rw [List.takeWhile_append_of_pos all]
    rcases rest with - | ⟨a, more⟩
    · simp
    · simp [ended a (by simp)]
  unfold keyPart
  split
  · rename_i quoted
    rcases letters : s.toList with - | ⟨c, more⟩
    · simp [letters] at bare
    · rw [letters] at quoted all
      cases quoted
      exact absurd (all '"' (by simp)) (by decide)
  · rename_i quoted
    rcases letters : s.toList with - | ⟨c, more⟩
    · simp [letters] at bare
    · rw [letters] at quoted all
      cases quoted
      exact absurd (all '\'' (by simp)) (by decide)
  · simp only [taken, bare.1]
    simp

theorem keyPart_key (s : String) (ended : ∀ a ∈ rest.head?, Read.isBareKey a = false) :
    keyPart (Write.key s ++ rest) = some (s, rest) := by
  have double : keyPart (Write.between "\"" (Write.basic s.toList) ++ rest) = some (s, rest) := by
    have whole : Write.between "\"" (Write.basic s.toList) ++ rest
        = '"' :: (Write.basic s.toList ++ '"' :: rest) := by simp [Write.between]
    rw [whole, keyPart, basic_basic]
    simp [packed]
  unfold Write.key
  simp only
  split
  · rename_i bare
    exact keyPart_bare bare ended
  split
  · exact double
  split
  · rename_i literal
    simp only [Bool.and_eq_true, Bool.not_eq_true', List.contains_iff_mem,
      Bool.eq_false_iff, ne_eq] at literal
    have whole : Write.between "'" s.toList ++ rest = '\'' :: (s.toList ++ '\'' :: rest) := by
      simp [Write.between]
    rw [whole, keyPart, literal_letters literal.1 literal.2]
    simp [packed]
  · exact double

theorem skipBlank_cons (filled : isBlank c = false) : skipBlank (c :: text) = c :: text := by
  simp [skipBlank, filled]

theorem skipBlank_space : skipBlank (' ' :: text) = skipBlank text := by
  simp [skipBlank, isBlank]

theorem ne_of_bare (bare : Read.isBareKey c = true) {other : Char}
    (special : Read.isBareKey other = false) : c ≠ other := by
  rintro rfl
  simp [bare] at special

theorem isBlank_bare (bare : Read.isBareKey c = true) : isBlank c = false := by
  simp [isBlank, ne_of_bare bare (show Read.isBareKey ' ' = false by decide),
    ne_of_bare bare (show Read.isBareKey '\t' = false by decide)]

theorem head_bare (bare : Write.isBareKey letters = true) :
    ∃ a tail, letters = a :: tail ∧ Read.isBareKey a = true := by
  rcases letters with - | ⟨a, tail⟩
  · cases bare
  · simp only [Write.isBareKey, List.all_cons, Bool.and_eq_true] at bare
    exact ⟨a, tail, rfl, bare.2.1⟩

theorem head_key (s : String) : ∃ a tail, Write.key s = a :: tail ∧ isBlank a = false := by
  unfold Write.key
  simp only
  split
  · rename_i bare
    obtain ⟨a, tail, form, filled⟩ := head_bare bare
    exact ⟨a, tail, form, isBlank_bare filled⟩
  split
  · exact ⟨'"', _, rfl, by decide⟩
  split
  · exact ⟨'\'', _, rfl, by decide⟩
  · exact ⟨'"', _, rfl, by decide⟩

theorem skipBlank_key (s : String) : skipBlank (Write.key s ++ rest) = Write.key s ++ rest := by
  obtain ⟨a, tail, form, filled⟩ := head_key s
  rw [form, List.cons_append, skipBlank_cons filled]

theorem key_bare (bare : Write.isBareKey s.toList = true) : Write.key s = s.toList := by
  simp [Write.key, bare]

theorem key_last {fuel : Nat} (s : String) (ended : ∀ a ∈ rest.head?, Read.isBareKey a = false)
    (follows : skipBlank rest = c :: text) (noDot : c ≠ '.') :
    key (fuel + 1) (Write.key s ++ rest) = some ([s], c :: text) := by
  rw [key, skipBlank_key, keyPart_key s ended]
  simp [follows, noDot]

theorem key_dotted {fuel : Nat} (s : String) :
    key (fuel + 1) (Write.key s ++ '.' :: rest)
      = (key fuel rest).map fun found => (s :: found.1, found.2) := by
  have ended : ∀ a ∈ ('.' :: rest).head?, Read.isBareKey a = false := by
    rintro a ⟨⟩
    decide
  rw [key, skipBlank_key, keyPart_key s ended]
  simp only [bind, Option.bind, skipBlank_cons (show isBlank '.' = false by decide)]
  cases key fuel rest <;> rfl

theorem headerLine_dotted {name : String} (bare : Write.isBareKey name.toList = true) (s : String) :
    headerLine ('[' :: (name.toList ++ '.' :: (Write.key s ++ ']' :: '\n' :: rest)))
      = some (false, [name, s], rest) := by
  obtain ⟨a, tail, form, filled⟩ := head_bare bare
  have path : ∀ fuel, key (fuel + 2) (name.toList ++ '.' :: (Write.key s ++ ']' :: '\n' :: rest))
      = some ([name, s], ']' :: '\n' :: rest) := by
    intro fuel
    have last : key (fuel + 1) (Write.key s ++ ']' :: '\n' :: rest)
        = some ([s], ']' :: '\n' :: rest) :=
      key_last s (by simp; decide) (skipBlank_cons (by decide)) (by decide)
    rw [← key_bare bare, key_dotted, last]
    rfl
  obtain ⟨fuel, long⟩ : ∃ fuel,
      (name.toList ++ '.' :: (Write.key s ++ ']' :: '\n' :: rest)).length + 1 = fuel + 2 :=
    Nat.exists_eq_add_of_le' (by simp; omega)
  unfold headerLine
  split
  · rename_i same
    rw [form] at same
    cases same
    exact absurd filled (by decide)
  · rename_i same
    cases same
    rw [long, path]
    simp [lineEnd, skipBlank, isBlank]
  · simp_all

theorem skipBlank_string {found : Option (String × List Char)} (string : string? text = some found) :
    skipBlank text = text := by
  unfold string? at string
  split at string
  · exact skipBlank_cons (by decide)
  · exact skipBlank_cons (by decide)
  · exact skipBlank_cons (by decide)
  · exact skipBlank_cons (by decide)
  · cases string

theorem keyValue_line {name : String} (bare : Write.isBareKey name.toList = true) (s : String) :
    keyValue (Write.line name s ++ rest) = some ([name], .string s, rest) := by
  have whole : Write.line name s ++ rest
      = Write.key name ++ ' ' :: '=' :: ' ' :: (Write.string s ++ '\n' :: rest) := by
    simp [Write.line, key_bare bare]
  have path : ∀ fuel, key (fuel + 1) (Write.line name s ++ rest)
      = some ([name], '=' :: ' ' :: (Write.string s ++ '\n' :: rest)) := fun fuel => by
    rw [whole]
    exact key_last name (by simp; decide)
      (skipBlank_space.trans (skipBlank_cons (by decide))) (by decide)
  have found : string? (Write.string s ++ '\n' :: rest) = some (some (s, '\n' :: rest)) :=
    string?_string s ⟨by simp, by simp⟩
  have read : ∀ fuel, value (fuel + 1) maxDepth (Write.string s ++ '\n' :: rest)
      = some (.string s, '\n' :: rest) := fun fuel => by
    rw [value.eq_def]
    simp [found]
  rw [keyValue, path]
  simp only [bind, Option.bind, skipBlank_space, skipBlank_string found, read]
  rfl

section Lines

variable {fuel : Nat} {current : List String} {held : Members} {name : String}

theorem lines_nil : lines (fuel + 1) current held [] = some held := rfl

theorem lines_feed :
    lines (fuel + 1) current held ('\n' :: text) = lines (fuel + 1) current held text := by
  simp [lines, skipVoid]

theorem skipVoid_filled (filled : isBlank c = false) (notFeed : c ≠ '\n') (notReturn : c ≠ '\r')
    (notHash : c ≠ '#') : skipVoid false (c :: text) = some (c :: text) := by
  simp [skipVoid, filled, notFeed, notReturn, notHash]

theorem lines_header (bare : Write.isBareKey name.toList = true) (s : String) :
    lines (fuel + 1) current held
        ('[' :: (name.toList ++ '.' :: (Write.key s ++ ']' :: '\n' :: rest)))
      = (enter (openTable s) [name] held).bind fun opened => lines fuel [name, s] opened rest := by
  have void : ∀ text, skipVoid false ('[' :: text) = some ('[' :: text) := fun _ =>
    skipVoid_filled (by decide) (by decide) (by decide) (by decide)
  simp [lines, void, headerLine_dotted bare, bind]

theorem lines_line (bare : Write.isBareKey name.toList = true) (s : String) :
    lines (fuel + 1) current held (Write.line name s ++ rest)
      = (enter (define true (.string s) [name]) current held).bind fun changed =>
        lines fuel current changed rest := by
  obtain ⟨a, tail, form, filled⟩ := head_bare bare
  obtain ⟨more, begins⟩ : ∃ more, Write.line name s ++ rest = a :: more :=
    ⟨_, by rw [Write.line, form]; rfl⟩
  have read : keyValue (Write.line name s ++ rest) = _ := keyValue_line bare s
  rw [begins] at read ⊢
  have void : skipVoid false (a :: more) = some (a :: more) :=
    skipVoid_filled (isBlank_bare filled) (ne_of_bare filled (by decide))
      (ne_of_bare filled (by decide)) (ne_of_bare filled (by decide))
  have notBracket : a ≠ '[' := ne_of_bare filled (by decide)
  rw [lines]
  simp only [void, bind, Option.bind]
  split
  · simp_all
  · simp_all
  · simp_all

end Lines

end PinnedTree.Toml
