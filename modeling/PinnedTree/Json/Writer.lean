import PinnedTree.Json.Basic

namespace PinnedTree.Json.Write

def escape (c : Char) : List Char :=
  if c = '"' then ['\\', '"']
  else if c = '\\' then ['\\', '\\']
  else if c = '\x08' then ['\\', 'b']
  else if c = '\t' then ['\\', 't']
  else if c = '\n' then ['\\', 'n']
  else if c = '\x0c' then ['\\', 'f']
  else if c = '\r' then ['\\', 'r']
  else if c.toNat < 0x20 then
    ['\\', 'u', '0', '0', Nat.digitChar (c.toNat / 16), Nat.digitChar (c.toNat % 16)]
  else [c]

def string (s : String) : List Char := '"' :: s.toList.flatMap escape ++ ['"']

def compactMembers : List (String × String) → List Char
  | [] => []
  | [(key, value)] => string key ++ ':' :: string value
  | (key, value) :: rest => string key ++ ':' :: string value ++ ',' :: compactMembers rest

def compact (members : List (String × String)) : List Char :=
  '\x7b' :: compactMembers members ++ ['\x7d']

def prettyMembers : List (String × String) → List Char
  | [] => []
  | [(key, value)] => "\n  ".toList ++ string key ++ ": ".toList ++ string value ++ ['\n']
  | (key, value) :: rest =>
    "\n  ".toList ++ string key ++ ": ".toList ++ string value ++ ',' :: prettyMembers rest

/-- A record with each member on a line of its own. -/
def pretty (members : List (String × String)) : List Char :=
  '\x7b' :: prettyMembers members ++ ['\x7d']

end PinnedTree.Json.Write
