import PinnedTree.Backend.Archive
import PinnedTree.Backend.Git
import PinnedTree.Backend.Mirror

namespace PinnedTree.Backend

/-- All backends, in the order in which they are tried. -/
def standard : List Backend := [Archive.backend, Mirror.backend, Git.backend]

end PinnedTree.Backend
