import PinnedTree.Text.Keyed
import PinnedTree.Toml.Scalar

namespace PinnedTree.Toml.Read

abbrev Members := List (String × Toml)

def maxDepth : Nat := 80

def isBlank (c : Char) : Bool := c = ' ' || c = '\t'

def isPlain (c : Char) : Bool := c = '\t' || (0x20 ≤ c.toNat && c.toNat ≠ 0x7F)

def isBareKey (c : Char) : Bool := c.isAlphanum || c = '-' || c = '_'

def skipBlank (text : List Char) : List Char := text.dropWhile isBlank

def skipVoid : Bool → List Char → Option (List Char)
  | _, [] => some []
  | inComment, c :: rest =>
    if c = '\n' then skipVoid false rest
    else if c = '\r' then if rest.head? = some '\n' then skipVoid false rest else none
    else if inComment then if isPlain c then skipVoid true rest else none
    else if isBlank c then skipVoid false rest
    else if c = '#' then skipVoid true rest
    else some (c :: rest)

def lineEnd (text : List Char) : Option (List Char) :=
  let rest := match skipBlank text with
    | '#' :: comment => comment.dropWhile isPlain
    | rest => rest
  match rest with
  | [] => some []
  | '\n' :: rest => some rest
  | '\r' :: '\n' :: rest => some rest
  | _ => none

def charOf? (n : Nat) : Option Char := if n.isValidChar then some (Char.ofNat n) else none

def hexChar? (digits : List Char) : Option Char :=
  if digits.all isHex then charOf? (digitsValue 16 digits) else none

def escaped? (c : Char) : Option Char :=
  if c = '"' || c = '\\' then some c
  else if c = 'b' then some '\x08'
  else if c = 't' then some '\t'
  else if c = 'n' then some '\n'
  else if c = 'f' then some '\x0c'
  else if c = 'r' then some '\r'
  else if c = 'e' then some '\x1b'
  else none

def push (c : Char) (read : Option (List Char × List Char)) : Option (List Char × List Char) :=
  read.map fun found => (c :: found.1, found.2)

def basic : List Char → Option (List Char × List Char)
  | [] => none
  | c :: rest =>
    if c = '"' then some ([], rest)
    else if c = '\\' then
      match rest with
      | [] => none
      | e :: rest =>
        if e = 'x' then
          match rest with
          | a :: b :: rest => (hexChar? [a, b]).bind fun x => push x (basic rest)
          | _ => none
        else if e = 'u' then
          match rest with
          | a :: b :: c :: d :: rest =>
            (hexChar? [a, b, c, d]).bind fun x => push x (basic rest)
          | _ => none
        else if e = 'U' then
          match rest with
          | a :: b :: c :: d :: e :: f :: g :: h :: rest =>
            (hexChar? [a, b, c, d, e, f, g, h]).bind fun x => push x (basic rest)
          | _ => none
        else (escaped? e).bind fun x => push x (basic rest)
    else if isPlain c then push c (basic rest)
    else none

theorem basic_close (rest : List Char) : basic ('"' :: rest) = some ([], rest) := by
  rw [basic.eq_def]
  rfl

def literal : List Char → Option (List Char × List Char)
  | [] => none
  | c :: rest =>
    if c = '\'' then some ([], rest)
    else if isPlain c then push c (literal rest)
    else none

def dropFirstLine (text : List Char) : List Char :=
  match text with
  | '\n' :: rest => rest
  | '\r' :: '\n' :: rest => rest
  | _ => text

def closing (quote : Char) (rest : List Char) : List Char × List Char :=
  match rest with
  | a :: b :: more =>
    if a = quote && b = quote then ([quote, quote], more)
    else if a = quote then ([quote], b :: more)
    else ([], rest)
  | [a] => if a = quote then ([quote], []) else ([], rest)
  | [] => ([], [])

def endsLine (text : List Char) : Bool :=
  match skipBlank text with
  | '\n' :: _ => true
  | '\r' :: '\n' :: _ => true
  | _ => false

/-- The letters of a string over several lines; after a backslash at the end of a line, blanks and
line ends are passed over. -/
def basicLines : Bool → List Char → Option (List Char × List Char)
  | _, [] => none
  | passing, c :: rest =>
    if passing && (isBlank c || c = '\n') then basicLines true rest
    else if passing && c = '\r' && rest.head? = some '\n' then basicLines true rest
    else if c = '"' then
      match rest with
      | q₁ :: q₂ :: more =>
        if q₁ = '"' && q₂ = '"' then some (closing '"' more)
        else push c (basicLines false rest)
      | _ => push c (basicLines false rest)
    else if c = '\\' then
      if endsLine rest then basicLines true rest
      else match rest with
      | [] => none
      | e :: rest =>
        if e = 'x' then
          match rest with
          | a :: b :: rest => (hexChar? [a, b]).bind fun x => push x (basicLines false rest)
          | _ => none
        else if e = 'u' then
          match rest with
          | a :: b :: c :: d :: rest =>
            (hexChar? [a, b, c, d]).bind fun x => push x (basicLines false rest)
          | _ => none
        else if e = 'U' then
          match rest with
          | a :: b :: c :: d :: e :: f :: g :: h :: rest =>
            (hexChar? [a, b, c, d, e, f, g, h]).bind fun x => push x (basicLines false rest)
          | _ => none
        else (escaped? e).bind fun x => push x (basicLines false rest)
    else if isPlain c || c = '\n' || (c = '\r' && rest.head? = some '\n') then
      push c (basicLines false rest)
    else none

theorem basicLines_feed (rest : List Char) :
    basicLines false ('\n' :: rest) = push '\n' (basicLines false rest) := by
  rw [basicLines.eq_def]
  simp

def literalLines : List Char → Option (List Char × List Char)
  | [] => none
  | c :: rest =>
    if c = '\'' then
      match rest with
      | q₁ :: q₂ :: more =>
        if q₁ = '\'' && q₂ = '\'' then some (closing '\'' more)
        else push c (literalLines rest)
      | _ => push c (literalLines rest)
    else if isPlain c || c = '\n' || (c = '\r' && rest.head? = some '\n') then
      push c (literalLines rest)
    else none

theorem literalLines_feed (rest : List Char) :
    literalLines ('\n' :: rest) = push '\n' (literalLines rest) := by
  rw [literalLines.eq_def]
  simp

def packed (read : Option (List Char × List Char)) : Option (String × List Char) :=
  read.map fun found => (String.ofList found.1, found.2)

def string? (text : List Char) : Option (Option (String × List Char)) :=
  match text with
  | '"' :: '"' :: '"' :: rest => some (packed (basicLines false (dropFirstLine rest)))
  | '"' :: rest => some (packed (basic rest))
  | '\'' :: '\'' :: '\'' :: rest => some (packed (literalLines (dropFirstLine rest)))
  | '\'' :: rest => some (packed (literal rest))
  | _ => none

def keyPart (text : List Char) : Option (String × List Char) :=
  match text with
  | '"' :: rest => packed (basic rest)
  | '\'' :: rest => packed (literal rest)
  | _ =>
    let bare := text.takeWhile isBareKey
    if bare.isEmpty then none else some (String.ofList bare, text.drop bare.length)

/-- The parts of a key with dots between them, and the text after the blanks behind them. -/
def key : Nat → List Char → Option (List String × List Char)
  | 0, _ => none
  | fuel + 1, text => do
    let (part, rest) ← keyPart (skipBlank text)
    match skipBlank rest with
    | '.' :: rest => do
      let (parts, rest) ← key fuel rest
      return (part :: parts, rest)
    | rest => return ([part], rest)

def isWordChar (c : Char) : Bool :=
  c.isAlphanum || c = '_' || c = '+' || c = '-' || c = '.' || c = ':'

/-- A word; the time of day belongs to the date that a single blank separates it from. -/
def word (text : List Char) : List Char × List Char :=
  let first := text.takeWhile isWordChar
  let rest := text.drop first.length
  match rest with
  | ' ' :: d :: more =>
    if date? first = some [] && d.isDigit then
      let second := (d :: more).takeWhile isWordChar
      (first ++ ' ' :: second, (d :: more).drop second.length)
    else (first, rest)
  | _ => (first, rest)

/-- Adds a value under a key with dots. The tables that such a key goes through are only those that
such keys made. -/
def define (open_ : Bool) (value : Toml) : List String → Members → Option Members
  | [], _ => none
  | [last], members =>
    if (members.lookup last).isSome then none else some (Text.insertKeyed last value members)
  | part :: parts, members =>
    match members.lookup part with
    | none => do
      let inner ← define open_ value parts []
      return Text.insertKeyed part (.table .dottedKey inner) members
    | some (.table .dottedKey held) => do
      let inner ← define open_ value parts held
      return Text.insertKeyed part (.table .dottedKey inner) members
    | some (.table .passedByHeader held) =>
      if open_ && parts.length > 1 then do
        let inner ← define open_ value parts held
        return Text.insertKeyed part (.table .passedByHeader inner) members
      else none
    | some (.array true items) =>
      match items.getLast? with
      | some (.table origin held) =>
        if open_ && (parts.length > 1 || origin = .dottedKey) then do
          let inner ← define open_ value parts held
          return Text.insertKeyed part
            (.array true (items.dropLast ++ [.table origin inner])) members
        else none
      | _ => none
    | some _ => none

/-- Changes the members of the table a header names, going through what is there already. -/
def enter (change : Members → Option Members) : List String → Members → Option Members
  | [], members => change members
  | part :: parts, members =>
    match members.lookup part with
    | none => do
      let inner ← enter change parts []
      return Text.insertKeyed part (.table .passedByHeader inner) members
    | some (.table .inline _) => none
    | some (.table origin held) => do
      let inner ← enter change parts held
      return Text.insertKeyed part (.table origin inner) members
    | some (.array true items) =>
      match items.getLast? with
      | some (.table origin held) => do
        let inner ← enter change parts held
        return Text.insertKeyed part (.array true (items.dropLast ++ [.table origin inner])) members
      | _ => none
    | some _ => none

def openTable (last : String) (members : Members) : Option Members :=
  match members.lookup last with
  | none => some (Text.insertKeyed last (.table .header []) members)
  | some (.table .passedByHeader held) => some (Text.insertKeyed last (.table .header held) members)
  | some _ => none

def appendTable (last : String) (members : Members) : Option Members :=
  match members.lookup last with
  | none => some (Text.insertKeyed last (.array true [.table .header []]) members)
  | some (.array true items) =>
    some (Text.insertKeyed last (.array true (items ++ [.table .header []])) members)
  | some _ => none

mutual

def value : Nat → Nat → List Char → Option (Toml × List Char)
  | 0, _, _ => none
  | fuel + 1, depth, text =>
    match string? text with
    | some read => read.map fun found => (.string found.1, found.2)
    | none =>
      match text with
      | '[' :: rest =>
        if depth = 0 then none
        else (items fuel (depth - 1) rest).map fun found => (.array false found.1, found.2)
      | '{' :: rest =>
        if depth = 0 then none
        else (pairs fuel (depth - 1) [] rest).map fun found => (.table .inline found.1, found.2)
      | _ =>
        let (letters, rest) := word text
        (ofWord? letters).map fun found => (found, rest)

def items : Nat → Nat → List Char → Option (List Toml × List Char)
  | 0, _, _ => none
  | fuel + 1, depth, text => do
    match ← skipVoid false text with
    | ']' :: rest => return ([], rest)
    | text => do
      let (item, text) ← value fuel depth text
      match ← skipVoid false text with
      | ',' :: rest => do
        let (others, rest) ← items fuel depth rest
        return (item :: others, rest)
      | ']' :: rest => return ([item], rest)
      | _ => none

def pairs : Nat → Nat → Members → List Char → Option (Members × List Char)
  | 0, _, _, _ => none
  | fuel + 1, depth, found, text => do
    match ← skipVoid false text with
    | '}' :: rest => return (found, rest)
    | text => do
      let (path, text) ← key (text.length + 1) text
      match text with
      | '=' :: rest => do
        let (item, text) ← value fuel depth (skipBlank rest)
        let found ← define false item path found
        match ← skipVoid false text with
        | ',' :: rest => pairs fuel depth found rest
        | '}' :: rest => return (found, rest)
        | _ => none
      | _ => none

end

def keyValue (text : List Char) : Option (List String × Toml × List Char) := do
  let (path, text) ← key (text.length + 1) text
  match text with
  | '=' :: rest => do
    let (found, text) ← value (2 * text.length + 2) maxDepth (skipBlank rest)
    let text ← lineEnd text
    return (path, found, text)
  | _ => none

/-- A header up to the end of its line: whether it names an array, and the path it names. -/
def headerLine (text : List Char) : Option (Bool × List String × List Char) := do
  match text with
  | '[' :: '[' :: rest => do
    let (path, rest) ← key (rest.length + 1) rest
    match rest with
    | ']' :: ']' :: rest => return (true, path, ← lineEnd rest)
    | _ => none
  | '[' :: rest => do
    let (path, rest) ← key (rest.length + 1) rest
    match rest with
    | ']' :: rest => return (false, path, ← lineEnd rest)
    | _ => none
  | _ => none

/-- Reads line after line into a document; the path is that of the table which is open. -/
def lines : Nat → List String → Members → List Char → Option Members
  | 0, _, _, _ => none
  | fuel + 1, current, document, text => do
    match ← skipVoid false text with
    | [] => return document
    | '[' :: rest => do
      let (isArray, path, rest) ← headerLine ('[' :: rest)
      let last ← path.getLast?
      let opened := if isArray then appendTable last else openTable last
      let document ← enter opened path.dropLast document
      lines fuel path document rest
    | text => do
      let (path, found, rest) ← keyValue text
      let document ← enter (define true found path) current document
      lines fuel current document rest

/-- A whole document, a byte order mark in front of it dropped. -/
def document (text : String) : Except TomlError Members :=
  let letters := match text.toList with
    | '\uFEFF' :: rest => rest
    | letters => letters
  match lines (letters.length + 1) [] [] letters with
  | some members => .ok members
  | none => .error .grammar

end PinnedTree.Toml.Read
