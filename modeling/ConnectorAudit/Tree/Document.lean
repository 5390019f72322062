import ConnectorAudit.Section
import ConnectorAudit.Tree.Traversal

/-!
# The document of a source

A source is a program, and the connector document is one of the hashes in it:
the one whose keys name the most sections.  A hash that names fewer than two is
taken for something else.
-/

namespace ConnectorAudit

/-- How many sections a hash must name to be taken for a document. -/
def documentThreshold : Nat := 2

namespace Tree

/-- The number of different sections that the keys of a hash name. -/
def score (t : Tree) : Nat := (t.keys.filterMap Section.ofKey?).eraseDups.length

/-- The better of the best hash so far and another one; of equals, the one so far. -/
def betterDocument (best : Option Tree) (t : Tree) : Option Tree :=
  match best with
  | none => if documentThreshold ≤ t.score then some t else none
  | some b => if b.score < t.score then some t else some b

/-- The document: the hash that names the most sections, the first in pre-order of equals. -/
def document? (t : Tree) : Option Tree :=
  t.fold (fun best n => if n.isHash then betterDocument best n else best) none

end Tree

end ConnectorAudit
