-- The plan of an outline and its passages are one tree: the plan is what the passages
-- tell when their ranges and the looseness of lists are left out.
import MarkupTree.Proofs.Event.Passages

namespace MarkupTree

namespace Content

end Content

namespace Rose

end Rose

end MarkupTree
