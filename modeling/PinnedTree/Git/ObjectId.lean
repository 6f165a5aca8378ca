import PinnedTree.Text.Hex

namespace PinnedTree.Git

structure ObjectId where
  hex : String
deriving DecidableEq, Repr

namespace ObjectId

def digits : Nat := 40

def isFull (text : String) : Bool :=
  text.toList.length = digits && text.toList.all Text.isHexDigit

def ofText? (text : String) : Option ObjectId :=
  if isFull text then some ⟨text.toLower⟩ else none

def bytes (id : ObjectId) : List UInt8 := (Text.hexBytes? id.hex.toList).getD []

/-- The id with given bytes. -/
def ofBytes (bytes : List UInt8) : ObjectId :=
  ⟨String.ofList (bytes.flatMap Text.hexOfByte)⟩

end ObjectId

end PinnedTree.Git
