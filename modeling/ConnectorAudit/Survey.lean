import ConnectorAudit.Graph
import ConnectorAudit.Issue
import ConnectorAudit.Tree.Traversal

/-!
# Surveys

What the callables of a document do.  A call without a receiver counts if it
names an HTTP verb (a request), if it is `call` (a call of a declared method), or
if it runs code or a command.  A survey gathers, callable by callable, the graph
of who calls what, the sites at which methods are called, how often each kind of
call occurs, and the issues found on the way.

The passes over a document all add to one survey, which each of them hands on to
the next (`Surveying`).
-/

namespace ConnectorAudit

/-- The verbs that send a request. -/
def httpVerbs : List String := ["get", "post", "put", "patch", "delete", "options", "head"]

/-- The calls that run whatever text they are given. -/
def dangerousCalls : List String := ["eval", "system"]

/-- How much of a URL goes into the id of a request, in characters. -/
def urlIdLength : Nat := 50

/-- The name under which parts with a computed key go. -/
def dynamicName : String := "(dynamic)"

def methodId (name : String) : String := "method:" ++ name

/-! ## Calls -/

/-- A call that counts. -/
inductive Call where
  /-- A request, with its URL if that is fixed. -/
  | http (verb : String) (url : Option String)
  /-- A call of a method by a fixed name. -/
  | method (name : String)
  /-- A call of a method by a computed name. -/
  | dynamicMethod
  /-- A call that runs a text. -/
  | dangerous (name : String)
  deriving DecidableEq, Repr

/-- The fixed text of a string. -/
def Tree.stringValue? (t : Tree) : Option String :=
  match t.kind with
  | .literal (.string s) => some s
  | _ => none

/-- The call that a node is, if it counts. -/
def Tree.call? (t : Tree) : Option Call :=
  match t.kind with
  | .call name false _ _ =>
    if httpVerbs.contains name then some (.http name (t.args.head?.bind Tree.stringValue?))
    else if name = "call" then
      some ((t.args.head?.bind Tree.literalName?).elim .dynamicMethod .method)
    else if dangerousCalls.contains name then some (.dangerous name)
    else none
  | _ => none

/-! ## Gathering -/

structure CallSite where
  /-- The callable that holds the call. -/
  owner : String
  method : String
  loc : Location
  deriving DecidableEq, Repr

/-- What has been gathered about a document. -/
structure Survey where
  /-- The issues found. -/
  log : IssueLog
  graph : Graph := {}
  /-- How often things occur. -/
  counts : Table Nat := .empty
  /-- The methods declared. -/
  methods : List String := []
  callSites : List CallSite := []
  /-- The callables from which everything starts. -/
  entrypoints : List String := []

namespace Survey

/-- The edge from a caller to what it calls. -/
def callEdge (owner target : String) : Graph.Edge :=
  { source := owner, target, details := .ofList [("label", "calls")] }

/-- The node of a request. -/
def requestNode (owner verb : String) (url : Option String) : Graph.Node where
  id :=
    let shown := url.elim "..." fun url => String.ofList (url.toList.take urlIdLength)
    owner ++ "::http#" ++ verb ++ "(" ++ shown ++ ")"
  label := verb.toUpper ++ " " ++ url.getD dynamicName
  kind := .http

/-- A survey in which there is nothing yet and which is to keep so many warnings. -/
def ofCap (cap : Nat) : Survey := { log := { cap } }

def addIssue (s : Survey) (i : Issue) : Survey := { s with log := s.log.push i }

/-- Adds a target and the edge to it from its caller. -/
def link (s : Survey) (owner : String) (target : Graph.Node) : Survey :=
  { s with graph := (s.graph.addNode target).addEdge (callEdge owner target.id) }

/-- Counts one more of something. -/
def count (s : Survey) (name : String) : Survey := { s with counts := s.counts.count name }

/-- The issue of a call that runs a text. -/
def dangerousCallIssue (owner name : String) (loc : Location) : Issue :=
  ((Issue.warning "dangerous_call" s!"`{name}` called in {owner}").located loc
    |>.about "owner" owner).about "call" name

/-- Takes in a call of a callable. -/
def addCall (owner : String) (s : Survey) (call : Call × Location) : Survey :=
  match call with
  | (.http verb url, _) => (s.link owner (requestNode owner verb url)).count ("http_" ++ verb)
  | (.method name, loc) =>
    let s := (s.link owner ⟨methodId name, methodId name, .method⟩).count "method_calls"
    { s with callSites := s.callSites ++ [⟨owner, name, loc⟩] }
  | (.dynamicMethod, _) => s.count "dynamic_method_calls"
  | (.dangerous name, loc) => s.addIssue (dangerousCallIssue owner name loc)

/-- Takes in a callable: its node, and all calls in its body. -/
def register (s : Survey) (owner : String) (kind : Graph.Kind) (body : Tree) : Survey :=
  body.fold (fun s t => t.call?.elim s fun call => addCall owner s (call, t.span.location))
    { s with graph := s.graph.addNode ⟨owner, owner, kind⟩ }

/-- Adds an entrypoint, unless it is there. -/
def addEntrypoint (s : Survey) (owner : String) : Survey :=
  if s.entrypoints.contains owner then s
  else { s with entrypoints := s.entrypoints ++ [owner] }

end Survey

/-! ## Passes -/

/-- A pass over some part of a document, which adds to the survey what it finds. -/
abbrev Surveying := StateM Survey

namespace Surveying

def report (i : Issue) : Surveying Unit := modify (·.addIssue i)

/-- Takes in a callable that is called by its name only. -/
def register (owner : String) (kind : Graph.Kind) (body : Tree) : Surveying Unit :=
  modify (·.register owner kind body)

/-- Takes in a callable from which everything may start. -/
def enter (owner : String) (kind : Graph.Kind) (body : Tree) : Surveying Unit :=
  modify fun s => (s.register owner kind body).addEntrypoint owner

/-- Takes in that a method is declared. -/
def declare (name : String) : Surveying Unit :=
  modify fun s => { s with methods := s.methods ++ [name] }

/-- Takes in how many parts a section has. -/
def tally (name : String) (count : Nat) : Surveying Unit :=
  modify fun s => { s with counts := s.counts.insert name count }

end Surveying

end ConnectorAudit
