import PinnedTree.Text.Fields

namespace PinnedTree.Git.RefName

def isAllowed (c : Char) : Bool := ' ' < c && c ∉ ['~', '^', ':', '\\', '?', '[', '*']

def isPart (part : List Char) : Bool :=
  !part.isEmpty && part.all isAllowed && part.head? ≠ some '.'
    && !Text.occurs ['.', '.'] part && !Text.occurs ['@', '\x7b'] part
    && !".lock".toList.isSuffixOf part

def isCapital (part : List Char) : Bool :=
  part.all (fun c => ('A' ≤ c && c ≤ 'Z') || c = '_')
    && part.head?.any (· ≠ '_') && part.getLast?.any (· ≠ '_')

def isValid (name : String) : Bool :=
  match Text.fields '/' name.toList with
  | [] => false
  | [part] => isPart part && isCapital part
  | first :: rest =>
    (first :: rest).all isPart && !isCapital first && name.toList.getLast? ≠ some '.'

def head : String := "HEAD"

def fetchHead : String := "FETCH_HEAD"

def branches : String := "refs/heads/"

def tags : String := "refs/tags/"

def remoteBranches : String := "refs/remotes/origin/"

/-- The full names that a short one may stand for, the first ones preferred. -/
def expansions (name : String) : List String :=
  [name, "refs/" ++ name, tags ++ name, branches ++ name, "refs/remotes/" ++ name,
    "refs/remotes/" ++ name ++ "/" ++ head]

end PinnedTree.Git.RefName
