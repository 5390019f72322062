import Mathlib.Data.List.Basic
import ConnectorAudit.Graph.Dot

/-!
# Reading drawings

The text of a graph can be read back.  A quoted text ends at the first quotation
mark that is not escaped, so that texts which begin with quoted texts agree only if
these do, and what follows them (`Dot.quote_append_inj`).  No line holds a line feed,
so that a text falls into lines in one way (`Text.ofLines_inj`), and a line tells
whether it draws a node or an edge.

* `Dot.isPlainName_plainChars`: the name of a graph needs no quotation marks;
* `Graph.eq_of_dot_eq`: graphs that are drawn alike have the same nodes, and the same
  edges as far as they are drawn;
* `Graph.dot_faithful`: all of it, with the reading of quoted texts.
-/

namespace ConnectorAudit

/-! ## quoted texts -/

namespace Dot

/-- What a character denotes behind a backslash. -/
def unescape? : Char → Option Char
  | '"' => some '"'
  | '\\' => some '\\'
  | 'n' => some '\n'
  | _ => none

/-- Reads a quoted text from behind its opening mark, and what follows it. -/
def unquoteRest : List Char → Option (List Char × List Char)
  | [] => none
  | '"' :: cs => some ([], cs)
  | '\\' :: e :: cs => do
    let c ← unescape? e
    let (text, rest) ← unquoteRest cs
    return (c :: text, rest)
  | c :: cs => do
    let (text, rest) ← unquoteRest cs
    return (c :: text, rest)

/-- Reads a quoted text from its opening mark, and what follows it. -/
def unquote : List Char → Option (List Char × List Char)
  | '"' :: cs => unquoteRest cs
  | _ => none

/-- Characters that need no escape stand for themselves. -/
theorem escape_of_ne {c : Char} (hquote : c ≠ '"') (hslash : c ≠ '\\') (hline : c ≠ '\n') :
    escape c = [c] := by
  unfold escape
  split <;> first | rfl | contradiction

/-- Reading an escape gives the character back. -/
theorem unquoteRest_escape (c : Char) (cs : List Char) :
    unquoteRest (escape c ++ cs) = (unquoteRest cs).map fun read => (c :: read.1, read.2) := by
  have hread : ∀ x : Option (List Char × List Char),
      (do let (text, rest) ← x; return (c :: text, rest)) =
        x.map fun read => (c :: read.1, read.2) := by
    intro x
    cases x <;> rfl
  by_cases hquote : c = '"'
  · subst hquote
    exact hread _
  by_cases hslash : c = '\\'
  · subst hslash
    exact hread _
  by_cases hline : c = '\n'
  · subst hline
    exact hread _
  rw [escape_of_ne hquote hslash hline, List.singleton_append, unquoteRest]
  · exact hread _
  · exact hquote
  · exact fun _ _ h => absurd h hslash

/-- Reading a quotation gives its text back, and what stands behind it. -/
theorem unquote_quote (s : String) (cs : List Char) :
    unquote ((quote s).toList ++ cs) = some (s.toList, cs) := by
  have hrest : ∀ text : List Char,
      unquoteRest (text.flatMap escape ++ '"' :: cs) = some (text, cs) := by
    intro text
    induction text with
    | nil => rfl
    | cons c text ih =>
      rw [List.flatMap_cons, List.append_assoc, unquoteRest_escape, ih]
      rfl
  simpa [quote, unquote] using hrest s.toList

/-- Where quoted texts begin two texts that agree, the quoted ones agree, and what follows them. -/
theorem quote_append_inj {s t : String} {xs ys : List Char}
    (h : (quote s).toList ++ xs = (quote t).toList ++ ys) : s = t ∧ xs = ys := by
  have hread := unquote_quote s xs
  rw [h, unquote_quote] at hread
  obtain ⟨htext, hrest⟩ := Prod.mk.inj (Option.some.inj hread)
  exact ⟨String.toList_inj.1 htext.symm, hrest.symm⟩

/-- An escape holds no line feed. -/
theorem newline_not_mem_escape (c : Char) : '\n' ∉ escape c := by
  unfold escape
  split
  · decide
  · decide
  · decide
  · next hline => simpa [eq_comm] using hline

/-- A quotation holds no line feed. -/
theorem newline_not_mem_quote (s : String) : '\n' ∉ (quote s).toList := by
  have hbody : '\n' ∉ s.toList.flatMap escape := by
    rw [List.mem_flatMap]
    exact fun ⟨c, _, hc⟩ => newline_not_mem_escape c hc
  simpa [quote] using hbody

/-! ## plain names -/

/-- A letter, a digit or an underscore. -/
def isPlainChar (c : Char) : Bool := c.isAlphanum || c == '_'

/-- A name that needs no quotation marks. -/
def isPlainName : List Char → Bool
  | [] => false
  | c :: cs => (c.isAlpha || c == '_') && cs.all isPlainChar

/-- The plain form of a name is plain. -/
theorem isPlainName_plainChars (chars : List Char) : isPlainName (plainChars chars) = true := by
  have hall : (chars.map fun c => if c.isAlphanum then c else '_').all isPlainChar = true := by
    rw [List.all_map, List.all_eq_true]
    intro c _
    by_cases hc : c.isAlphanum = true <;> simp [isPlainChar, hc]
  unfold plainChars
  generalize (chars.map fun c => if c.isAlphanum then c else '_') = plain at hall
  simp only
  split
  · simpa [isPlainName] using hall
  · next hhead =>
    cases plain with
    | nil => simp at hhead
    | cons c plain =>
      have hdigit : c.isDigit = false := by simpa using hhead
      simp only [List.all_cons, Bool.and_eq_true] at hall
      simpa [isPlainName, isPlainChar, Char.isAlphanum, hdigit] using hall

/-- A plain name is made of plain characters. -/
theorem isPlainChar_of_mem {c : Char} {name : List Char} (hname : isPlainName name = true)
    (hc : c ∈ name) : isPlainChar c = true := by
  cases name with
  | nil => cases hc
  | cons d name =>
    simp only [isPlainName, Bool.and_eq_true, List.all_eq_true] at hname
    rcases List.mem_cons.1 hc with rfl | hc
    · have hstart := hname.1
      simp only [Bool.or_eq_true] at hstart
      simp only [isPlainChar, Char.isAlphanum, Bool.or_eq_true]
      exact hstart.imp .inl id
    · exact hname.2 c hc

/-- Two kinds of nodes have two shapes. -/
theorem shape_inj {k l : Graph.Kind} (h : shape k = shape l) : k = l := by
  cases k <;> cases l <;> first | rfl | exact absurd h (by decide)

end Dot

/-! ## lines -/

namespace Text

/-- The first line stands in front of a line feed and the other lines. -/
theorem toList_ofLines_cons (line : String) (lines : List String) :
    (ofLines (line :: lines)).toList = line.toList ++ '\n' :: (ofLines lines).toList := by
  simp [ofLines]

/-- Lines without line feeds are read off their text. -/
theorem ofLines_inj {xs ys : List String} (hxs : ∀ line ∈ xs, '\n' ∉ line.toList)
    (hys : ∀ line ∈ ys, '\n' ∉ line.toList) (h : ofLines xs = ofLines ys) : xs = ys := by
  have hfirst : ∀ {line : String} {cs : List Char}, '\n' ∉ line.toList →
      (line.toList ++ '\n' :: cs).takeWhile (· != '\n') = line.toList := by
    intro line cs hline
    rw [List.takeWhile_append_of_pos fun c hc => by simpa using ne_of_mem_of_not_mem hc hline]
    simp
  induction xs generalizing ys with
  | nil =>
    cases ys with
    | nil => rfl
    | cons y ys =>
      have hlist := congrArg String.toList h
      rw [toList_ofLines_cons] at hlist
      simp [ofLines] at hlist
  | cons x xs ih =>
    cases ys with
    | nil =>
      have hlist := congrArg String.toList h
      rw [toList_ofLines_cons] at hlist
      simp [ofLines] at hlist
    | cons y ys =>
      have hlist := congrArg String.toList h
      rw [toList_ofLines_cons, toList_ofLines_cons] at hlist
      have hline := congrArg (List.takeWhile (· != '\n')) hlist
      rw [hfirst (hxs x List.mem_cons_self), hfirst (hys y List.mem_cons_self)] at hline
      rw [hline] at hlist
      have hrest := (List.cons.inj (List.append_cancel_left hlist)).2
      rw [String.toList_inj.1 hline,
        ih (fun line hl => hxs line (List.mem_cons_of_mem x hl))
          (fun line hl => hys line (List.mem_cons_of_mem y hl)) (String.toList_inj.1 hrest)]

end Text

namespace Graph

/-- What is drawn of an edge: its ends and its label, which is empty if it has none. -/
def Edge.drawn (e : Edge) : String × String × String := (e.source, e.target, e.label)

/-- The line of a node, quotation by quotation. -/
theorem Node.toList_dot (n : Node) :
    n.dot.toList = ' ' :: ' ' :: ((Dot.quote n.id).toList ++ (" [label=".toList ++
      ((Dot.quote n.label).toList ++ (", shape=".toList ++ ((Dot.shape n.kind).toList ++
        "];".toList))))) := by
  simp [Node.dot]

/-- What stands behind the ends of an edge on its line. -/
def Edge.tail (e : Edge) : List Char :=
  if e.label = "" then [';']
  else " [label=".toList ++ ((Dot.quote e.label).toList ++ "];".toList)

/-- The line of an edge, quotation by quotation. -/
theorem Edge.toList_dot (e : Edge) :
    e.dot.toList = ' ' :: ' ' :: ((Dot.quote e.source).toList ++ (" -> ".toList ++
      ((Dot.quote e.target).toList ++ e.tail))) := by
  unfold Edge.dot Edge.tail
  simp only
  split <;> simp

/-- The line of a node tells the node. -/
theorem Node.dot_inj {m n : Node} (h : m.dot = n.dot) : m = n := by
  have hlist := congrArg String.toList h
  rw [Node.toList_dot, Node.toList_dot] at hlist
  obtain ⟨hid, hrest⟩ := Dot.quote_append_inj (List.cons.inj (List.cons.inj hlist).2).2
  obtain ⟨hlabel, hrest⟩ := Dot.quote_append_inj (List.append_cancel_left hrest)
  have hshape := List.append_cancel_right (List.append_cancel_left hrest)
  have hkind := Dot.shape_inj (String.toList_inj.1 hshape)
  obtain ⟨id, label, kind⟩ := m
  obtain rfl := hid
  obtain rfl := hlabel
  obtain rfl := hkind
  rfl

/-- The label of an edge can be told by what stands behind its ends. -/
theorem Edge.label_eq_of_tail_eq {d e : Edge} (h : d.tail = e.tail) : d.label = e.label := by
  unfold Edge.tail at h
  split at h
  · next hd =>
    split at h
    · next he => rw [hd, he]
    · simp at h
  · split at h
    · simp at h
    · exact (Dot.quote_append_inj (List.append_cancel_left h)).1

/-- The line of an edge tells all that is drawn of it. -/
theorem Edge.drawn_eq_of_dot_eq {d e : Edge} (h : d.dot = e.dot) : d.drawn = e.drawn := by
  have hlist := congrArg String.toList h
  rw [Edge.toList_dot, Edge.toList_dot] at hlist
  obtain ⟨hsource, hrest⟩ := Dot.quote_append_inj (List.cons.inj (List.cons.inj hlist).2).2
  obtain ⟨htarget, htail⟩ := Dot.quote_append_inj (List.append_cancel_left hrest)
  rw [drawn, drawn, hsource, htarget, Edge.label_eq_of_tail_eq htail]

/-- A line draws a node if a bracket follows the first quoted text, where an edge has its arrow. -/
def drawsNode (line : String) : Bool :=
  match Dot.unquote (line.toList.drop 2) with
  | some (_, ' ' :: '[' :: _) => true
  | _ => false

/-- A node is drawn by a line that looks like one of a node. -/
theorem drawsNode_node (n : Node) : drawsNode n.dot = true := by
  simp [drawsNode, Node.toList_dot, Dot.unquote_quote]

/-- An edge is drawn by a line that does not. -/
theorem drawsNode_edge (e : Edge) : drawsNode e.dot = false := by
  simp [drawsNode, Edge.toList_dot, Dot.unquote_quote]

/-- A node is drawn in one line. -/
theorem newline_not_mem_node (n : Node) : '\n' ∉ n.dot.toList := by
  have hshape : '\n' ∉ (Dot.shape n.kind).toList := by
    cases n.kind <;> decide
  simp [Node.toList_dot, Dot.newline_not_mem_quote, hshape]

/-- An edge is drawn in one line. -/
theorem newline_not_mem_edge (e : Edge) : '\n' ∉ e.dot.toList := by
  have htail : '\n' ∉ e.tail := by
    unfold Edge.tail
    split
    · decide
    · simp [Dot.newline_not_mem_quote]
  simp [Edge.toList_dot, Dot.newline_not_mem_quote, htail]

/-- The lines of a drawing behind its first two. -/
def drawingLines (g : Graph) : List String :=
  g.nodes.map Node.dot ++ (g.edges.map Edge.dot ++ ["\x7d"])

/-- A drawing is its lines. -/
theorem dot_eq (g : Graph) (name : String) :
    g.dot name = Text.ofLines
      (("digraph " ++ Dot.plainName name ++ " \x7b") :: "  rankdir=LR;" :: g.drawingLines) := by
  simp [dot, drawingLines]

/-- No line of a drawing holds a line feed. -/
theorem newline_not_mem_lines (g : Graph) (name : String) :
    ∀ line ∈ ("digraph " ++ Dot.plainName name ++ " \x7b") :: "  rankdir=LR;" :: g.drawingLines,
      '\n' ∉ line.toList := by
  have hname : '\n' ∉ Dot.plainChars name.toList := fun hmem => by
    have hplain := Dot.isPlainChar_of_mem (Dot.isPlainName_plainChars _) hmem
    exact absurd hplain (by decide)
  intro line hline
  simp only [drawingLines, List.mem_cons, List.mem_append, List.mem_map, List.not_mem_nil,
    or_false] at hline
  obtain rfl | rfl | ⟨n, -, rfl⟩ | ⟨e, -, rfl⟩ | rfl := hline
  · simpa [Dot.plainName] using hname
  · decide
  · exact newline_not_mem_node n
  · exact newline_not_mem_edge e
  · decide

/-- The lines of the nodes are told by how they look. -/
theorem takeWhile_drawingLines (g : Graph) :
    g.drawingLines.takeWhile drawsNode = g.nodes.map Node.dot := by
  have hrest : (g.edges.map Edge.dot ++ ["\x7d"]).takeWhile drawsNode = [] := by
    cases g.edges with
    | nil => rfl
    | cons e edges => exact List.takeWhile_cons_of_neg (by simp [drawsNode_edge])
  rw [drawingLines, List.takeWhile_append_of_pos, hrest, List.append_nil]
  intro line hline
  obtain ⟨n, -, rfl⟩ := List.mem_map.1 hline
  exact drawsNode_node n

/-- The lines of edges tell all that is drawn of the edges. -/
theorem map_drawn_eq {ds es : List Edge} (h : ds.map Edge.dot = es.map Edge.dot) :
    ds.map Edge.drawn = es.map Edge.drawn := by
  induction ds generalizing es with
  | nil => cases es with
    | nil => rfl
    | cons e es => cases h
  | cons d ds ih => cases es with
    | nil => cases h
    | cons e es =>
      obtain ⟨hline, hlines⟩ := List.cons.inj h
      rw [List.map_cons, List.map_cons, Edge.drawn_eq_of_dot_eq hline, ih hlines]

/-- Equal drawings are of graphs with the same nodes and the same drawn edges, in the same
order. -/
theorem eq_of_dot_eq {g h : Graph} {m n : String} (heq : g.dot m = h.dot n) :
    g.nodes = h.nodes ∧ g.edges.map Edge.drawn = h.edges.map Edge.drawn := by
  rw [dot_eq, dot_eq] at heq
  have hlines := Text.ofLines_inj (g.newline_not_mem_lines m) (h.newline_not_mem_lines n) heq
  have hdrawing := (List.cons.inj (List.cons.inj hlines).2).2
  have hnodes := congrArg (List.takeWhile drawsNode) hdrawing
  rw [takeWhile_drawingLines, takeWhile_drawingLines] at hnodes
  have hsame : g.nodes = h.nodes :=
    (List.map_injective_iff.2 fun _ _ => Node.dot_inj) hnodes
  refine ⟨hsame, map_drawn_eq ?_⟩
  rw [drawingLines, drawingLines, hsame] at hdrawing
  exact List.append_cancel_right (List.append_cancel_left hdrawing)

/-- A drawing says everything that is drawn. Two graphs with the same drawing have the same nodes
and the same edges up to what is not drawn of them, whatever the texts in them hold; the name of
the graph is a plain one; and a quoted text is read back whole, wherever it stands. -/
theorem dot_faithful (g h : Graph) (m n : String) :
    (g.dot m = h.dot n →
      g.nodes = h.nodes ∧ g.edges.map Edge.drawn = h.edges.map Edge.drawn) ∧
    (∃ name rest, (g.dot m).toList = "digraph ".toList ++ name ++ " \x7b\n".toList ++ rest ∧
      Dot.isPlainName name = true) ∧
    ∀ s r : String, Dot.unquote (Dot.quote s ++ r).toList = some (s.toList, r.toList) := by
  refine ⟨eq_of_dot_eq, ⟨Dot.plainChars m.toList, ?_⟩, fun s r => ?_⟩
  · refine ⟨(Text.ofLines ("  rankdir=LR;" :: g.drawingLines)).toList, ?_,
      Dot.isPlainName_plainChars _⟩
    rw [dot_eq, Text.toList_ofLines_cons]
    simp [Dot.plainName]
  · rw [String.toList_append, Dot.unquote_quote]

/-- Two nodes whose texts look like the lines of a drawing, and an edge between them. -/
def hostile (details : Table String) : Graph :=
  { nodes := [⟨"a\" -> \"b", "\"];\n  \"c", .action⟩, ⟨"\\", "\x7d\n", .http⟩]
    edges := [⟨"a\" -> \"b", "\\", details⟩] }

theorem dot_faithful_hostile :
    (hostile .empty).dot "2 b" = (hostile (.ofList [("label", "")])).dot "2-b" ∧
      (hostile .empty).edges ≠ (hostile (.ofList [("label", "")])).edges ∧
      (hostile .empty).edges.map Edge.drawn =
        (hostile (.ofList [("label", "")])).edges.map Edge.drawn := by
  have halike : (hostile .empty).dot "2 b" = (hostile (.ofList [("label", "")])).dot "2-b" := by
    decide +kernel
  exact ⟨halike, by decide, ((dot_faithful _ _ _ _).1 halike).2⟩

end Graph

end ConnectorAudit
