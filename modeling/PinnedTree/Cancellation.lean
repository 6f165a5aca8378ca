namespace PinnedTree

/-- The number of polls before the request is seen, if one was made or will be. -/
structure CancelToken where
  pollsLeft : Option Nat := none
deriving DecidableEq, Repr

namespace CancelToken

def tripped : CancelToken := ⟨some 0⟩

def isTripped (token : CancelToken) : Bool := token.pollsLeft = some 0

/-- The token after one poll. -/
def afterPoll (token : CancelToken) : CancelToken := ⟨token.pollsLeft.map (· - 1)⟩

theorem afterPoll_of_tripped {token : CancelToken} (seen : token.isTripped = true) :
    token.afterPoll = token := by
  cases token with
  | mk left => simp_all [isTripped, afterPoll]

end CancelToken

end PinnedTree
