-- What events build: the tree of the assembly, and an arena that shows it. The
-- builder, which keeps nothing but numbers on its stack, ends with the root as
-- the one construct that is open.
import MarkupTree.Proofs.Arena.Building
import MarkupTree.Proofs.Document.Built

namespace MarkupTree

namespace Document

end Document

end MarkupTree
