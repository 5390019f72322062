import ConnectorAudit.Audit.Events
import ConnectorAudit.Proofs.Drawings
import ConnectorAudit.Proofs.JsonTexts

/-!
# The lines of events

A tool that reads events cuts their text at the line feeds.  It gets one line for
each event, whatever the texts in the events hold, as long as no line feed stands in
what is written for an event.  None stands in a compact JSON text, and an event can be
read back from the one that is written for it.

* `Text.splitOn_ofLines`: lines are got back from their text;
* `Event.ofText?_text`: an event is got back from its line;
* `Audit.lines_eventText`: hence the lines of the events of an audit.
-/

namespace ConnectorAudit

/-! ## lines -/

namespace Text

/-- Lines without line feeds are got back from their text; behind the last of them it is empty. -/
theorem splitOn_ofLines {lines : List String} (h : ∀ line ∈ lines, '\n' ∉ line.toList) :
    (ofLines lines).toList.splitOn '\n' = lines.map String.toList ++ [[]] := by
  induction lines with
  | nil => rfl
  | cons line lines ih =>
    obtain ⟨hline, hlines⟩ := List.forall_mem_cons.1 h
    rw [toList_ofLines_cons, List.splitOn_append_cons_self_of_not_mem hline, ih hlines]
    rfl

/-- Lines that are joined end in a line feed, unless there are none. -/
theorem ofLines_eq_empty_or_getLast? (lines : List String) :
    ofLines lines = "" ∨ (ofLines lines).toList.getLast? = some '\n' := by
  induction lines with
  | nil => exact .inl rfl
  | cons line lines ih =>
    right
    rw [toList_ofLines_cons]
    cases ih with
    | inl hempty => simp [hempty]
    | inr hlast => simp [List.getLast?_append, List.getLast?_cons, hlast]

/-- Lines that hold no line feed are counted as they were joined. -/
theorem lineCount_ofLines {lines : List String} (h : ∀ line ∈ lines, '\n' ∉ line.toList) :
    lineCount (ofLines lines) = lines.length := by
  have hcount : (ofLines lines).toList.count '\n' = lines.length := by
    induction lines with
    | nil => rfl
    | cons line lines ih =>
      obtain ⟨hline, hlines⟩ := List.forall_mem_cons.1 h
      rw [toList_ofLines_cons, List.count_append, List.count_eq_zero.2 hline, List.count_cons_self,
        ih hlines, List.length_cons, Nat.zero_add]
  have hended : (ofLines lines).toList.getLast?.all (· == '\n') = true := by
    cases ofLines_eq_empty_or_getLast? lines with
    | inl hempty => simp [hempty]
    | inr hlast => simp [hlast]
  simp only [lineCount, hended, if_true, hcount]

end Text

/-! ## reading events -/

open Json (Value)

namespace Json.Value

/-- What an object has under a name. -/
def member? : Value → String → Option Value
  | .object fields, name => fields.lookup name
  | _, _ => none

def string? : Value → Option String
  | .string s => some s
  | _ => none

def number? : Value → Option Nat
  | .number n => some n
  | _ => none

end Json.Value

/-- Reads a table off an object whose fields are in the order of their names. -/
def Table.ofJson? {α : Type} (f : Value → Option α) : Value → Option (Table α)
  | .object fields => do
    let entries ← fields.mapM fun field => (f field.2).map (field.1, ·)
    if h : entries.Pairwise (·.1 < ·.1) then some ⟨entries, h⟩ else none
  | _ => none

def Location.ofJson? : Value → Option Location
  | .object fields => some {
      line := (fields.lookup "line").bind Value.number?
      column := (fields.lookup "column").bind Value.number?
      length := (fields.lookup "length").bind Value.number? }
  | _ => none

def Detail.ofJson? : Value → Option Detail
  | .string s => some (.text s)
  | .array items => (items.mapM Value.string?).map .texts
  | _ => none

def Severity.ofName? (name : String) : Option Severity :=
  [info, warning, error].find? (·.name == name)

def Issue.ofJson? (v : Value) : Option Issue := do
  let severity ← (← v.member? "severity").string?
  return {
    severity := ← Severity.ofName? severity
    code := ← (← v.member? "code").string?
    message := ← (← v.member? "message").string?
    loc := ← Location.ofJson? (← v.member? "loc")
    context := ← Table.ofJson? Detail.ofJson? (← v.member? "context") }

namespace Event

/-- Reads an event off an object that says which type of event it is. -/
def ofJson? (v : Value) : Option Event := do
  let type ← (← v.member? "type").string?
  if type = "issue" then return issue (← Issue.ofJson? v)
  else if type = "http_call" then
    return httpCall {
      source := ← (← v.member? "from").string?
      target := ← (← v.member? "to").string?
      details := ← Table.ofJson? Value.string? (← v.member? "meta") }
  else none

def ofText? (line : String) : Option Event := (Value.ofText? line).bind ofJson?

end Event

/-- A table is read back if what it holds is. -/
theorem Table.ofJson?_toJson {α : Type} {f : Value → Option α} {g : α → Value}
    (h : ∀ a, f (g a) = some a) (t : Table α) : Table.ofJson? f (t.toJson g) = some t := by
  have hentries : (t.entries.map fun e => (e.1, g e.2)).mapM
      (fun field => (f field.2).map (field.1, ·)) = some t.entries := by
    induction t.entries with
    | nil => rfl
    | cons e entries ih => simp [List.mapM_cons, h, ih]
  simp only [Table.ofJson?, Table.toJson, hentries]
  exact dif_pos t.ascending

/-- A location is read back. -/
theorem Location.ofJson?_toJson (loc : Location) : Location.ofJson? loc.toJson = some loc := by
  obtain ⟨_ | line, _ | column, _ | length⟩ := loc <;>
    simp [Location.ofJson?, Location.toJson, Value.number?, List.lookup_cons]

/-- A detail is read back. -/
theorem Detail.ofJson?_toJson (d : Detail) : Detail.ofJson? d.toJson = some d := by
  cases d with
  | text s => rfl
  | texts ss =>
    have hitems : (ss.map Value.string).mapM Value.string? = some ss := by
      induction ss with
      | nil => rfl
      | cons s ss ih => simp [List.mapM_cons, Value.string?, ih]
    simp [Detail.ofJson?, Detail.toJson, Value.strings, Value.ofList, hitems]

/-- A severity is read back from its name. -/
theorem Severity.ofName?_name (s : Severity) : Severity.ofName? s.name = some s := by
  cases s <;> decide

/-- An issue is read back from its fields, whatever stands for its type. -/
theorem Issue.ofJson?_fields (i : Issue) (type : Value) :
    Issue.ofJson? (.object (("type", type) :: i.fields)) = some i := by
  simp [Issue.ofJson?, Issue.fields, Value.member?, Value.string?, List.lookup_cons,
    Severity.ofName?_name, Location.ofJson?_toJson, Table.ofJson?_toJson Detail.ofJson?_toJson]

/-- An event is read back from its JSON value. -/
theorem Event.ofJson?_toJson (e : Event) : Event.ofJson? e.toJson = some e := by
  cases e with
  | issue i =>
    have hissue := Issue.ofJson?_fields i (.string "issue")
    simp [Event.ofJson?, Event.toJson, Value.member?, Value.string?, List.lookup_cons, hissue]
  | httpCall edge =>
    have hdetails := Table.ofJson?_toJson (fun s => rfl : ∀ s, Value.string? (.string s) = some s)
      edge.details
    simp [Event.ofJson?, Event.toJson, Value.member?, List.lookup_cons, hdetails, Value.string?]

/-- An event is read back from its line. -/
theorem Event.ofText?_text (e : Event) : Event.ofText? e.text = some e := by
  rw [Event.ofText?, Event.text, Value.ofText?_compact, Option.bind_some, Event.ofJson?_toJson]

/-! ## events -/

namespace Graph

/-- The edge leads to a node that stands for a request. -/
def LeadsToRequest (g : Graph) (e : Edge) : Prop :=
  ∃ n, g.node? e.target = some n ∧ n.kind = .http

theorem any_node?_eq_true_iff {g : Graph} {e : Edge} :
    (g.node? e.target).any (·.kind == .http) = true ↔ g.LeadsToRequest e := by
  simp [Option.any_eq_true, LeadsToRequest]

instance (g : Graph) : DecidablePred g.LeadsToRequest :=
  fun _ => decidable_of_iff _ any_node?_eq_true_iff

/-- The edges that tell of requests are those that lead to one. -/
theorem httpEdges_eq (g : Graph) : g.httpEdges = g.edges.filter fun e => g.LeadsToRequest e := by
  refine List.filter_congr fun e _ => ?_
  rw [Bool.eq_iff_iff, any_node?_eq_true_iff, decide_eq_true_iff]

end Graph

namespace Audit

/-- **Framing.** Let no character below the space stand in what is written for an event.  Then the
text of the events of an audit is empty or ends in a line feed.  Cut at its line feeds it has one
line for each issue, in order, and behind them one for each edge to a request, in the order of the
edges: what is written for that event.  Events are written so, as JSON texts without blanks from
which they can be read back. -/
theorem lines_eventText (write : Event → String)
    (hwrite : ∀ e, ∀ c ∈ (write e).toList, 0x20 ≤ c.toNat) (a : Audit) :
    let requests := a.graph.edges.filter fun e => a.graph.LeadsToRequest e
    let lines := (a.issues.map Event.issue ++ requests.map Event.httpCall).map write
    let text := a.eventTextBy write
    (text = "" ∨ text.toList.getLast? = some '\n') ∧
      text.toList.splitOn '\n' = lines.map String.toList ++ [[]] ∧
      Text.lineCount text = a.issues.length + requests.length ∧
      a.eventText = a.eventTextBy Event.text ∧
      ∀ e : Event, (∀ c ∈ e.text.toList, 0x20 ≤ c.toNat) ∧ Event.ofText? e.text = some e := by
  intro requests lines text
  have hevents : text = Text.ofLines lines := by
    simp only [text, eventTextBy, events, Graph.httpEdges_eq, lines, requests]
  have hline : ∀ line ∈ lines, '\n' ∉ line.toList := by
    intro line hmem
    obtain ⟨e, -, rfl⟩ := List.mem_map.1 hmem
    exact Text.Printable.newline_not_mem (hwrite e)
  refine ⟨?_, ?_, ?_, rfl, fun e => ⟨Value.printable_compact _, e.ofText?_text⟩⟩
  · rw [hevents]
    exact Text.ofLines_eq_empty_or_getLast? lines
  · rw [hevents]
    exact Text.splitOn_ofLines hline
  · rw [hevents, Text.lineCount_ofLines hline]
    simp [lines]

/-- A warning and a request whose texts hold line feeds. -/
def brokenTexts : Audit :=
  assemble default [.warning "odd" "one\ntwo"] (.ofChanges
    [.node ⟨"get\n/", "get\n/", .http⟩, .edge ⟨"run", "get\n/", .empty⟩]) .empty false {}

/-- The line feeds of the texts are escaped, and there are two lines. -/
theorem lines_brokenTexts :
    brokenTexts.eventText.toList.splitOn '\n' = [
        "\x7b\"type\":\"issue\",\"severity\":\"warning\",\"code\":\"odd\"," ++
          "\"message\":\"one\\ntwo\",\"loc\":\x7b\x7d,\"context\":\x7b\x7d\x7d",
        "\x7b\"type\":\"http_call\",\"from\":\"run\",\"to\":\"get\\n/\",\"meta\":\x7b\x7d\x7d",
        ""].map String.toList ∧
      Text.lineCount brokenTexts.eventText = 2 := by
  obtain ⟨-, hlines, hcount, htext, -⟩ :=
    lines_eventText Event.text (fun _ => Value.printable_compact _) brokenTexts
  rw [htext, hlines, hcount]
  decide +kernel

end Audit

end ConnectorAudit
