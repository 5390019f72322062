import ConnectorAudit.Graph
import ConnectorAudit.Text.Lines

/-!
# Drawings of graphs

A graph in the DOT language: a line for each node and one for each edge.
-/

namespace ConnectorAudit

namespace Dot

/-- A character as it stands in a quoted text. -/
def escape (c : Char) : List Char :=
  match c with
  | '"' => ['\\', '"']
  | '\\' => ['\\', '\\']
  | '\n' => ['\\', 'n']
  | c => [c]

/-- A text in quotation marks. -/
def quote (s : String) : String := String.ofList ('"' :: s.toList.flatMap escape ++ ['"'])

/-- The characters of a name that needs no quotation marks. -/
def plainChars (chars : List Char) : List Char :=
  let plain := chars.map fun c => if c.isAlphanum then c else '_'
  if plain.head?.all Char.isDigit then '_' :: plain else plain

/-- A name that needs no quotation marks: letters, digits and underscores, with no digit in
front. -/
def plainName (name : String) : String := String.ofList (plainChars name.toList)

/-- The shape in which a kind of node is drawn. -/
def shape : Graph.Kind → String
  | .action => "box"
  | .trigger => "diamond"
  | .method => "oval"
  | .lambda => "ellipse"
  | .http => "parallelogram"
  | .other => "plaintext"

end Dot

namespace Graph

def Node.dot (n : Node) : String :=
  "  " ++ Dot.quote n.id ++ " [label=" ++ Dot.quote n.label ++ ", shape=" ++
    Dot.shape n.kind ++ "];"

/-- The label of an edge; an edge may have none. -/
def Edge.label (e : Edge) : String := (e.details.get? "label").getD ""

def Edge.dot (e : Edge) : String :=
  let ends := "  " ++ Dot.quote e.source ++ " -> " ++ Dot.quote e.target
  if e.label = "" then ends ++ ";" else ends ++ " [label=" ++ Dot.quote e.label ++ "];"

/-- The text of a graph under a name. -/
def dot (g : Graph) (name : String) : String :=
  Text.ofLines (
    ["digraph " ++ Dot.plainName name ++ " \x7b", "  rankdir=LR;"] ++ g.nodes.map Node.dot ++
      g.edges.map Edge.dot ++ ["\x7d"])

end Graph

end ConnectorAudit
