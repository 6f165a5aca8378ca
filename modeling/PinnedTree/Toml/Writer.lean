namespace PinnedTree.Toml.Write

def isControl (c : Char) : Bool := c.toNat < 0x20 || c.toNat = 0x7F

def isBareKey (key : List Char) : Bool :=
  !key.isEmpty && key.all fun c => c.isAlphanum || c = '-' || c = '_'

/-- Whether the letters can stand on one line without escapes other than the one for a tab. -/
def isOneLine (letters : List Char) : Bool := letters.all fun c => c = '\t' || !isControl c

/-- Whether the letters can stand on several lines without escapes other than the one for a tab. -/
def isManyLines (letters : List Char) : Bool :=
  letters.all fun c => c = '\t' || c = '\n' || !isControl c

def hasRun (c : Char) (length : Nat) (letters : List Char) : Bool :=
  match letters with
  | [] => length = 0
  | d :: rest => (List.replicate length c).isPrefixOf (d :: rest) || hasRun c length rest

def hexQuad (n : Nat) : List Char :=
  let digit (k : Nat) : Char := (Nat.digitChar (n / Nat.pow 16 k % 16)).toUpper
  [digit 3, digit 2, digit 1, digit 0]

def escape (c : Char) : List Char :=
  if c = '\x08' then ['\\', 'b']
  else if c = '\t' then ['\\', 't']
  else if c = '\x0c' then ['\\', 'f']
  else if c = '\r' then ['\\', 'r']
  else if c = '\\' then ['\\', '\\']
  else if isControl c then '\\' :: 'u' :: hexQuad c.toNat
  else [c]

def basic (letters : List Char) : List Char :=
  letters.flatMap fun c =>
    if c = '"' then ['\\', '"'] else if c = '\n' then ['\\', 'n'] else escape c

/-- Letters between triple double quotes: after two quotes in a row the third is escaped. -/
def basicLines : Nat → List Char → List Char
  | _, [] => []
  | quotes, c :: rest =>
    if c = '"' then
      if quotes ≥ 2 then '\\' :: '"' :: basicLines 0 rest
      else '"' :: basicLines (quotes + 1) rest
    else if c = '\n' then '\n' :: basicLines 0 rest
    else escape c ++ basicLines 0 rest

def between (delimiter : String) (letters : List Char) : List Char :=
  delimiter.toList ++ letters ++ delimiter.toList

def opening (letters : List Char) : List Char :=
  if letters.contains '\n' then ['\n'] else []

def key (text : String) : List Char :=
  let letters := text.toList
  if isBareKey letters then letters
  else if isOneLine letters && !letters.contains '\\' && !letters.contains '"' then
    between "\"" (basic letters)
  else if isOneLine letters && !letters.contains '\'' then between "'" letters
  else between "\"" (basic letters)

def string (text : String) : List Char :=
  let letters := text.toList
  if isOneLine letters && !letters.contains '\\' && !letters.contains '"' then
    between "\"" (basic letters)
  else if isOneLine letters && !letters.contains '\'' then between "'" letters
  else if isManyLines letters && !letters.contains '\\' && !hasRun '"' 3 letters then
    between "\"\"\"" (opening letters ++ basicLines 0 letters)
  else if isManyLines letters && !hasRun '\'' 3 letters then
    between "'''" (opening letters ++ letters)
  else if letters.contains '\n' then
    between "\"\"\"" ('\n' :: basicLines 0 letters)
  else between "\"" (basic letters)

/-- A key with its value on a line. -/
def line (name value : String) : List Char := name.toList ++ " = ".toList ++ string value ++ ['\n']

end PinnedTree.Toml.Write
