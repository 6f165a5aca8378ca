import PinnedTree.Json.Reader
import PinnedTree.Json.Writer

namespace PinnedTree.Json

open Read Write

theorem hexUnit_control : ∀ n < 32,
    hexUnit? '0' '0' (Nat.digitChar (n / 16)) (Nat.digitChar (n % 16)) = some n := by
  decide

theorem not_half_control : ∀ n < 32, isTrailing n = false ∧ isLeading n = false := by
  decide

theorem letters_short {c e : Char} (plain : e ≠ 'u') (means : escaped? e = some c)
    (text : List Char) : letters .keep ('\\' :: e :: text) = push c (letters .keep text) := by
  rw [letters.eq_def]
  simp [plain, means]

theorem letters_escape (c : Char) (text : List Char) :
    letters .keep (escape c ++ text) = push c (letters .keep text) := by
  unfold escape
  split
  · subst_vars
    exact letters_short (by decide) rfl text
  split
  · subst_vars
    exact letters_short (by decide) rfl text
  split
  · subst_vars
    exact letters_short (by decide) rfl text
  split
  · subst_vars
    exact letters_short (by decide) rfl text
  split
  · subst_vars
    exact letters_short (by decide) rfl text
  split
  · subst_vars
    exact letters_short (by decide) rfl text
  split
  · subst_vars
    exact letters_short (by decide) rfl text
  split
  · rename_i control
    have unit := hexUnit_control c.toNat control
    obtain ⟨notTrailing, notLeading⟩ := not_half_control c.toNat control
    simp [letters, unit, notTrailing, notLeading]
  · rename_i notQuote notSlash _ _ _ _ _ notControl
    rw [List.singleton_append, letters.eq_def]
    simp only [notQuote, notSlash, notControl, if_false]

theorem letters_string (cs rest : List Char) :
    letters .keep (cs.flatMap escape ++ '"' :: rest) = .ok (cs, rest) := by
  induction cs with
  | nil =>
    rw [List.flatMap_nil, List.nil_append, letters.eq_def]
    rfl
  | cons c cs ih =>
    rw [List.flatMap_cons, List.append_assoc, letters_escape, ih]
    rfl

def closing (s : String) : List Char := s.toList.flatMap escape ++ ['"']

theorem string_eq (s : String) : Write.string s = '"' :: closing s := rfl

theorem string_closing (s : String) (rest : List Char) :
    Read.string .keep (closing s ++ rest) = .ok (s, rest) := by
  simp [Read.string, closing, letters_string]

theorem skipBlank_append {gap : List Char} (blank : ∀ c ∈ gap, isBlank c = true)
    (text : List Char) : skipBlank (gap ++ text) = skipBlank text :=
  List.dropWhile_append_of_pos blank

theorem skipBlank_cons {c : Char} (filled : isBlank c = false) (text : List Char) :
    skipBlank (c :: text) = c :: text := by
  simp [skipBlank, filled]

theorem readString_string {space : List Char} (blank : ∀ c ∈ space, isBlank c = true)
    (what s : String) (rest : List Char) :
    readString what (space ++ Write.string s ++ rest) = .ok (s, rest) := by
  rw [readString, List.append_assoc, skipBlank_append blank, string_eq, List.cons_append,
    skipBlank_cons (by decide)]
  exact string_closing s rest

/-- The members of a record with one white space before each key and one before each value. -/
def laid (gap space : List Char) : Bool → List (String × String) → List Char
  | _, [] => []
  | first, (key, value) :: rest =>
    (if first then [] else [',']) ++ gap ++ Write.string key ++ ':' :: space ++ Write.string value
      ++ laid gap space false rest

theorem laid_cons_false (gap space : List Char) (entry : String × String)
    (rest : List (String × String)) :
    laid gap space false (entry :: rest) = ',' :: laid gap space true (entry :: rest) := by
  simp [laid]

theorem compact_eq (entries : List (String × String)) :
    compact entries = '{' :: laid [] [] true entries ++ ['}'] := by
  have same : compactMembers entries = laid [] [] true entries := by
    induction entries with
    | nil => rfl
    | cons entry rest ih =>
      cases rest with
      | nil => simp [compactMembers, laid]
      | cons next more =>
        rw [compactMembers, ih, @laid.eq_2 _ _ true entry.1, laid_cons_false]
        · simp
        · simp
  rw [compact, same]

theorem pretty_eq {entries : List (String × String)} (filled : entries ≠ []) :
    pretty entries = '{' :: laid "\n  ".toList [' '] true entries ++ ['\n', '}'] := by
  have same : prettyMembers entries = laid "\n  ".toList [' '] true entries ++ ['\n'] := by
    induction entries with
    | nil => exact absurd rfl filled
    | cons entry rest ih =>
      cases rest with
      | nil => simp [prettyMembers, laid]
      | cons next more =>
        rw [prettyMembers, ih (by simp), @laid.eq_2 _ _ true entry.1, laid_cons_false]
        · simp
        · simp
  rw [pretty, same]
  simp

variable {form : RecordForm String} {what : String} {gap space : List Char}

theorem nextKey_laid (blankGap : ∀ c ∈ gap, isBlank c = true) (first : Bool)
    (entry : String × String) (rest : List (String × String)) (close : List Char) :
    nextKey .keep first (laid gap space first (entry :: rest) ++ close)
      = .ok (true, closing entry.1 ++ ':' :: (space ++ Write.string entry.2
        ++ (laid gap space false rest ++ close))) := by
  have quoted : ∀ text, skipBlank (gap ++ '"' :: text) = '"' :: text := fun text => by
    rw [skipBlank_append blankGap, skipBlank_cons (by decide)]
  cases first with
  | true => simp [nextKey, laid, string_eq, quoted]
  | false =>
    have comma : ∀ text, skipBlank (',' :: text) = ',' :: text := skipBlank_cons (by decide)
    simp [nextKey, laid, string_eq, comma, quoted]

theorem members_laid (reads : form.read = readString what)
    (blankGap : ∀ c ∈ gap, isBlank c = true) (blankSpace : ∀ c ∈ space, isBlank c = true)
    {close tail : List Char} (closes : skipBlank close = '}' :: tail)
    {entries found : List (String × String)} {fuel : Nat} (enough : entries.length < fuel)
    (listed : ∀ entry ∈ entries, entry.1 ∈ form.fields)
    (once : ((found ++ entries).map (·.1)).Nodup)
    (all : ∀ name ∈ form.fields, name ∈ (found ++ entries).map (·.1)) (first : Bool) :
    form.members fuel first found (laid gap space first entries ++ close)
      = .ok (found ++ entries, tail) := by
  induction entries generalizing found fuel first with
  | nil =>
    obtain ⟨fuel, rfl⟩ := Nat.exists_eq_add_one.mpr enough
    have ends : nextKey .keep first close = .ok (false, tail) := by simp [nextKey, closes]
    have full : (form.fields.find? fun name => (found.lookup name).isNone) = none := by
      rw [List.find?_eq_none]
      intro name member
      obtain ⟨entry, there, same⟩ := List.mem_map.mp (all name member)
      rw [Option.isNone_iff_eq_none, List.lookup_eq_none_iff]
      exact fun missing => by simpa [same] using missing entry (by simpa using there)
    simp [RecordForm.members, laid, ends, full, bind, Except.bind, pure, Except.pure]
  | cons entry rest ih =>
    obtain ⟨fuel, rfl⟩ := Nat.exists_eq_add_one.mpr (Nat.zero_lt_of_lt enough)
    have absent : (found.lookup entry.1).isSome = false := by
      rw [Option.isSome_eq_false_iff, Option.isNone_iff_eq_none, List.lookup_eq_none_iff]
      intro other member
      rw [bne_iff_ne]
      intro same
      rw [List.map_append, List.nodup_append] at once
      exact once.2.2 other.1 (List.mem_map_of_mem member) entry.1 (by simp) same.symm
    have isListed := listed entry (by simp)
    have colon : colon (':' :: (space ++ Write.string entry.2
        ++ (laid gap space false rest ++ close))) = .ok (space ++ Write.string entry.2
        ++ (laid gap space false rest ++ close)) := by
      rw [Read.colon, skipBlank_cons (by decide)]
      rfl
    have onward := @ih (found ++ [entry]) fuel (by simpa using enough)
      (fun other member => listed other (List.mem_cons_of_mem _ member))
      (by simpa using once) (by simpa using all) false
    rw [RecordForm.members, nextKey_laid blankGap]
    simp only [bind, Except.bind, if_true, string_closing, isListed, absent, colon, reads,
      readString_string blankSpace, Bool.false_eq_true, if_false]
    rw [show (entry.1, entry.2) = entry from rfl, onward, List.append_assoc,
      List.singleton_append]

theorem parse_laid (reads : form.read = readString what)
    (blankGap : ∀ c ∈ gap, isBlank c = true) (blankSpace : ∀ c ∈ space, isBlank c = true)
    {close tail : List Char} (closes : skipBlank close = '}' :: tail)
    (ended : skipBlank tail = []) {entries : List (String × String)}
    (fields : entries.map (·.1) = form.fields) (once : form.fields.Nodup) :
    form.parse ('{' :: (laid gap space true entries ++ close)) = .ok entries := by
  have long : ∀ first, entries.length ≤ (laid gap space first entries).length := by
    induction entries generalizing form with
    | nil => simp
    | cons entry rest ih =>
      intro first
      have := @ih ⟨form.name, rest.map (·.1), form.read⟩ reads rfl
        (by rw [← fields] at once; exact (List.nodup_cons.mp once).2) false
      simp only [laid, string_eq, List.length_append, List.length_cons]
      omega
  have short : entries.length < enough (laid gap space true entries ++ close) := by
    have := long true
    simp only [enough, List.length_append]
    omega
  have found := @members_laid form what gap space reads blankGap blankSpace close tail closes
    entries [] _ short (fun entry member => fields ▸ List.mem_map_of_mem member)
    (by simpa [fields] using once) (by simp [fields]) true
  rw [RecordForm.parse, skipBlank_cons (by decide)]
  simp [found, ended, bind, Except.bind, pure, Except.pure]

theorem parse_compact (reads : form.read = readString what)
    {entries : List (String × String)} (fields : entries.map (·.1) = form.fields)
    (once : form.fields.Nodup) : form.parse (compact entries) = .ok entries := by
  rw [compact_eq]
  exact parse_laid reads (by simp) (by simp) (skipBlank_cons (by decide) _) rfl fields once

theorem parse_pretty (reads : form.read = readString what)
    {entries : List (String × String)} (filled : entries ≠ [])
    (fields : entries.map (·.1) = form.fields) (once : form.fields.Nodup) :
    form.parse (pretty entries ++ ['\n']) = .ok entries := by
  rw [pretty_eq filled, List.cons_append, List.cons_append, List.append_assoc]
  exact parse_laid reads (by simp [isBlank]) (by simp [isBlank]) rfl (by decide) fields once

end PinnedTree.Json
