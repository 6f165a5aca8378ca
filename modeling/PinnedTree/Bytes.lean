namespace PinnedTree

instance decidableEqBytes : DecidableEq ByteArray := ByteArray.instDecidableEq

end PinnedTree
