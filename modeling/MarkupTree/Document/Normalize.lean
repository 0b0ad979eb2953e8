-- Normalising a document merges neighbouring texts. The first text of a run
-- takes the literals of the others. The others become detached and keep
-- their own literals.
import MarkupTree.Document

namespace MarkupTree

def Node.isText (n : Node) : Bool := n.kind == .text

namespace Forest

/-- Puts a tree in front of a row in which no two neighbours are texts, and
merges it with the first of the row if both are texts. The merged text ends
where its last part ends, if that part has a place in the source. -/
def joinText (n : Node) (cs : Forest) : Forest → Forest
  | .nil => .cons n cs .nil
  | .cons m ms rest =>
    match n.content, m.content with
    | .text a, .text b =>
      .cons { n with content := .text (a ++ b), stop := if m.stop.known then m.stop else n.stop }
        cs rest
    | _, _ => .cons n cs (.cons m ms rest)

/-- The forest with each run of neighbouring texts merged into one. -/
def mergeTexts : Forest → Forest
  | .nil => .nil
  | .cons n cs rest => joinText n cs.mergeTexts rest.mergeTexts

/-- The trees that merging takes away: every text that follows a text. -/
def absorbed (afterText : Bool) : Forest → Forest
  | .nil => .nil
  | .cons n cs rest =>
    if n.isText && afterText then .cons n cs (rest.absorbed true)
    else (cs.absorbed false).append (rest.absorbed n.isText)

end Forest

/-- Merges neighbouring texts everywhere under the root. Detached trees stay
as they are. -/
def Document.normalize (d : Document) : Document :=
  match d.trees with
  | .nil => d
  | .cons root body rest => ⟨.cons root body.mergeTexts (rest.append (body.absorbed false))⟩

end MarkupTree
