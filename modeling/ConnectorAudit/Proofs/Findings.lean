import ConnectorAudit.Audit
import ConnectorAudit.Proofs.Callables
import ConnectorAudit.Proofs.Logs

/-!
# What is found in a source

The passes over a source hand a survey on from one to the next, and none of them
looks into it: what a pass gives and what it adds are settled by the source alone.
`Surveying.Finds` says so of a pass, and of passes made of others.  So the outline of
a source and all that is found in it can be told without a survey.

* `Outline.finds_survey`: what the passes over a source give and find;
* `Survey.addAll_withLog`: nothing but the log depends on the log, and the issues found are logged
  one after the other;
* `Audit.ofParsed_eq`: hence an audit caps what is raised about a source, all passes together.
-/

namespace ConnectorAudit

/-! ## findings -/

/-- Something found in a document that a survey takes in. -/
inductive Finding where
  | issue (i : Issue)
  /-- A callable; `entry` says whether everything may start from it. -/
  | callable (owner : String) (kind : Graph.Kind) (body : Tree) (entry : Bool)
  /-- A method declared. -/
  | method (name : String)
  /-- How many parts a section has. -/
  | tally (name : String) (count : Nat)

/-- The issues that a finding brings. -/
def Finding.issues : Finding → List Issue
  | .issue i => [i]
  | .callable owner _ body _ => body.calls.filterMap (Call.issue? owner)
  | .method _ | .tally _ _ => []

namespace Survey

def add (s : Survey) : Finding → Survey
  | .issue i => s.addIssue i
  | .callable owner kind body entry =>
    let s := s.register owner kind body
    if entry then s.addEntrypoint owner else s
  | .method name => { s with methods := s.methods ++ [name] }
  | .tally name count => { s with counts := s.counts.insert name count }

def addAll (s : Survey) (findings : List Finding) : Survey := findings.foldl add s

/-- Findings are added one list after the other. -/
theorem addAll_append (s : Survey) (fs gs : List Finding) :
    s.addAll (fs ++ gs) = (s.addAll fs).addAll gs :=
  List.foldl_append

/-- A callable that is found is registered; whether it is an entrypoint shows nowhere else. -/
theorem exists_add_callable_eq (s : Survey) (owner : String) (kind : Graph.Kind) (body : Tree)
    (entry : Bool) :
    ∃ entrypoints, s.add (.callable owner kind body entry) =
      { s.register owner kind body with entrypoints } := by
  cases entry with
  | false => exact ⟨_, rfl⟩
  | true =>
    rw [add, if_pos rfl, addEntrypoint]
    split <;> exact ⟨_, rfl⟩

/-! ### logs -/

/-- The survey with another log. -/
def withLog (s : Survey) (log : IssueLog) : Survey := { s with log }

/-- A call adds its issue to the log and leaves the rest as without the log. -/
theorem addCall_withLog (owner : String) (s : Survey) (log : IssueLog) (call : Call × Location) :
    addCall owner (s.withLog log) call =
      (addCall owner s call).withLog (log.append (Call.issue? owner call).toList) := by
  obtain ⟨call, loc⟩ := call
  cases call <;> rfl

/-- A callable adds the issues of its calls to the log. -/
theorem register_withLog (s : Survey) (log : IssueLog) (owner : String) (kind : Graph.Kind)
    (body : Tree) :
    (s.withLog log).register owner kind body =
      (s.register owner kind body).withLog
        (log.append (body.calls.filterMap (Call.issue? owner))) := by
  have hrun : ∀ (calls : List (Call × Location)) (s : Survey) (log : IssueLog),
      calls.foldl (addCall owner) (s.withLog log) =
        (calls.foldl (addCall owner) s).withLog
          (log.append (calls.filterMap (Call.issue? owner))) := by
    intro calls
    induction calls with
    | nil => exact fun s log => rfl
    | cons call calls ih =>
      intro s log
      rw [List.foldl_cons, addCall_withLog, ih, List.foldl_cons, IssueLog.append_append]
      cases h : Call.issue? owner call <;> simp [h]
  rw [register_eq, register_eq]
  exact hrun body.calls { s with graph := s.graph.addNode ⟨owner, owner, kind⟩ } log

/-- An entry point adds nothing to the log. -/
theorem addEntrypoint_withLog (s : Survey) (log : IssueLog) (owner : String) :
    (s.withLog log).addEntrypoint owner = (s.addEntrypoint owner).withLog log := by
  by_cases h : owner ∈ s.entrypoints <;> simp [addEntrypoint, withLog, h]

/-- A finding adds its issues to the log. -/
theorem add_withLog (s : Survey) (log : IssueLog) (f : Finding) :
    (s.withLog log).add f = (s.add f).withLog (log.append f.issues) := by
  cases f with
  | issue i => rfl
  | method name => rfl
  | tally name count => rfl
  | callable owner kind body entry =>
    cases entry with
    | false => exact register_withLog ..
    | true => simp only [add, Finding.issues, register_withLog, if_true, addEntrypoint_withLog]

/-- Nothing but the log depends on the log, and the issues found are added to it in order. -/
theorem addAll_withLog (s : Survey) (log : IssueLog) (fs : List Finding) :
    (s.withLog log).addAll fs =
      (s.addAll fs).withLog (log.append (fs.flatMap Finding.issues)) := by
  induction fs generalizing s log with
  | nil => rfl
  | cons f fs ih =>
    rw [addAll, List.foldl_cons, add_withLog, ← addAll, ih, IssueLog.append_append]
    rfl

/-- The log of findings is that of their issues. -/
theorem log_addAll (s : Survey) (fs : List Finding) :
    (s.addAll fs).log = s.log.append (fs.flatMap Finding.issues) :=
  congrArg Survey.log (addAll_withLog s s.log fs)

end Survey

/-! ## passes -/

namespace Surveying

/-- Whatever the survey is, the pass gives `a`, and the survey takes in the findings. -/
structure Finds {α : Type} (pass : Surveying α) (a : α) (fs : List Finding) : Prop where
  run_eq : ∀ s : Survey, pass.run s = (a, s.addAll fs)

variable {α β : Type}

namespace Finds

variable {pass : Surveying α} {a : α} {fs : List Finding}

theorem pure (a : α) : Finds (Pure.pure a) a [] := ⟨fun _ => rfl⟩

/-- Two passes find what each of them does. -/
theorem bind {next : α → Surveying β} {b : β} {gs : List Finding} (h : Finds pass a fs)
    (hnext : Finds (next a) b gs) : Finds (pass >>= next) b (fs ++ gs) where
  run_eq s := by
    rw [StateT.run_bind, h.run_eq s, Survey.addAll_append]
    exact hnext.run_eq (s.addAll fs)

/-- A pass after which something is given and nothing more is found. -/
theorem bind_pure (h : Finds pass a fs) (f : α → β) :
    Finds (pass >>= fun a => Pure.pure (f a)) (f a) fs :=
  List.append_nil fs ▸ h.bind (pure (f a))

/-- What a pass returns does not change what it finds. -/
theorem map (h : Finds pass a fs) (f : α → β) : Finds (f <$> pass) (f a) fs where
  run_eq s := by
    rw [StateT.run_map, h.run_eq s]
    rfl

theorem report (i : Issue) : Finds (Surveying.report i) () [.issue i] := ⟨fun _ => rfl⟩

theorem register (owner : String) (kind : Graph.Kind) (body : Tree) :
    Finds (Surveying.register owner kind body) () [.callable owner kind body false] :=
  ⟨fun _ => rfl⟩

theorem enter (owner : String) (kind : Graph.Kind) (body : Tree) :
    Finds (Surveying.enter owner kind body) () [.callable owner kind body true] :=
  ⟨fun _ => rfl⟩

theorem declare (name : String) : Finds (Surveying.declare name) () [.method name] :=
  ⟨fun _ => rfl⟩

theorem tally (name : String) (count : Nat) :
    Finds (Surveying.tally name count) () [.tally name count] :=
  ⟨fun _ => rfl⟩

/-- A loop over a list. -/
theorem forM {pass : α → Surveying Unit} {found : α → List Finding}
    (h : ∀ a, Finds (pass a) () (found a)) (l : List α) :
    Finds (l.forM pass) () (l.flatMap found) := by
  induction l with
  | nil => exact pure ()
  | cons a l ih => exact (h a).bind ih

/-- A loop over a list that gives a result for each item. -/
theorem mapM {pass : α → Surveying β} {result : α → β} {found : α → List Finding}
    (h : ∀ a, Finds (pass a) (result a) (found a)) (l : List α) :
    Finds (l.mapM pass) (l.map result) (l.flatMap found) := by
  induction l with
  | nil => exact pure []
  | cons a l ih =>
    rw [List.mapM_cons, List.map_cons, List.flatMap_cons]
    exact (h a).bind (ih.bind_pure _)

/-- A loop over a list that gives a result for some items. -/
theorem filterMapM {pass : α → Surveying (Option β)} {result : α → Option β}
    {found : α → List Finding} (h : ∀ a, Finds (pass a) (result a) (found a)) (l : List α) :
    Finds (l.filterMapM pass) (l.filterMap result) (l.flatMap found) := by
  induction l with
  | nil => exact pure []
  | cons a l ih =>
    rw [List.filterMapM_cons, List.filterMap_cons, List.flatMap_cons]
    refine (h a).bind ?_
    cases result a with
    | none => exact ih
    | some b => exact ih.bind_pure _

/-- A loop over a list that hands on what it has so far. -/
theorem foldlM {σ : Type} {pass : σ → α → Surveying σ} {step : σ → α → σ}
    (found : σ → List α → List Finding) (hnil : ∀ acc, found acc [] = [])
    (h : ∀ acc a l, ∃ fs, Finds (pass acc a) (step acc a) fs ∧
      found acc (a :: l) = fs ++ found (step acc a) l) (acc : σ) (l : List α) :
    Finds (l.foldlM pass acc) (l.foldl step acc) (found acc l) := by
  induction l generalizing acc with
  | nil => exact hnil acc ▸ pure acc
  | cons a l ih =>
    obtain ⟨fs, hfs, hfound⟩ := h acc a l
    rw [List.foldlM_cons, List.foldl_cons, hfound]
    exact hfs.bind (ih _)

end Finds

end Surveying

open Surveying (Finds)

/-! ## entries -/

namespace SectionEntries

section Put

variable {es : SectionEntries} {key : Tree} {name : String}

/-- A pair with a computed key goes behind all. -/
theorem put_of_computed (hkey : key.literalName? = none) (value : Tree) :
    es.put key value = { es with entries := es.entries.push ⟨dynamicName, value⟩ } := by
  simp only [put, hkey]

/-- So does a pair with a new key, which then has its place there. -/
theorem put_of_new (hkey : key.literalName? = some name) (hnew : es.places.get? name = none)
    (value : Tree) :
    es.put key value =
      ⟨es.entries.push ⟨name, value⟩, es.places.insert name es.entries.size⟩ := by
  simp only [put, hkey, hnew]

/-- A pair with a key that has a place changes the value there. -/
theorem put_of_place {i : Nat} (hkey : key.literalName? = some name)
    (hplace : es.places.get? name = some i) (value : Tree) :
    es.put key value =
      { es with entries := es.entries.modify i fun e => { e with body := value } } := by
  simp only [put, hkey, hplace]

end Put

/-- Puts in pairs one after the other. -/
def putAll (es : SectionEntries) (pairs : List (Tree × Tree)) : SectionEntries :=
  pairs.foldl (fun es pair => es.put pair.1 pair.2) es

/-- The issues of the keys that are repeated when the pairs are put in. -/
def duplicates (singular : String) : SectionEntries → List (Tree × Tree) → List Issue
  | _, [] => []
  | es, pair :: pairs =>
    ((es.repeated? pair.1).map fun name => duplicateIssue singular name pair.1).toList ++
      duplicates singular (es.put pair.1 pair.2) pairs

/-- Reading one more entry finds whether its name was there. -/
theorem finds_read (singular : String) (es : SectionEntries) (pair : Tree × Tree) :
    Finds (es.read singular pair) (es.put pair.1 pair.2)
      (((es.repeated? pair.1).map fun name =>
        duplicateIssue singular name pair.1).toList.map .issue) := by
  unfold SectionEntries.read
  cases es.repeated? pair.1 with
  | none => exact .pure _
  | some name => exact (Finds.report _).bind (.pure _)

end SectionEntries

namespace Tree

/-- The entries of a section, as they count. -/
def sectionEntries (hash : Tree) : List SectionEntry :=
  (SectionEntries.putAll {} hash.pairs).entries.toList

/-- An issue for each repeated key of a section whose entries are each a `singular`. -/
def duplicateIssues (hash : Tree) (singular : String) : List Issue :=
  SectionEntries.duplicates singular {} hash.pairs

/-- Reading the entries of a section finds the names that are repeated. -/
theorem finds_readEntries (hash : Tree) (singular : String) :
    Finds (hash.readEntries singular) hash.sectionEntries
      ((hash.duplicateIssues singular).map .issue) := by
  have hloop := Finds.foldlM
    (fun es pairs => (SectionEntries.duplicates singular es pairs).map .issue) (fun _ => rfl)
    (fun es pair pairs => ⟨_, es.finds_read singular pair, List.map_append⟩) {} hash.pairs
  exact hloop.bind_pure (·.entries.toList)

/-- What is no hash has no entries. -/
theorem sectionEntries_eq_nil {t : Tree} (h : ¬t.isHash) : t.sectionEntries = [] := by
  rw [sectionEntries, pairs, if_neg h]
  rfl

end Tree

/-! ## sections of entries -/

/-- The outline of a section of entries. -/
def entriesOutline (kind : Outline.Kind) (plural : String) (entryOutline : SectionEntry → Outline)
    (value : Tree) : Outline :=
  { kind, name := plural, loc := value.span.location
    children := value.sectionEntries.map entryOutline }

/-- What is found in a section of entries. -/
def entriesFindings (plural singular : String) (entryFindings : SectionEntry → List Finding)
    (value : Tree) : List Finding :=
  if value.isHash then
    (value.duplicateIssues singular).map .issue ++ value.sectionEntries.flatMap entryFindings ++
      [.tally plural value.sectionEntries.length]
  else [.issue (notHashIssue plural s!"`{plural}`" value)]

/-- A survey of entries finds what is found in each, behind what is found in the section itself. -/
theorem finds_surveyEntries {entryOutline : SectionEntry → Outline}
    {entryFindings : SectionEntry → List Finding}
    {surveyEntry : SectionEntry → Surveying Outline}
    (h : ∀ e, Finds (surveyEntry e) (entryOutline e) (entryFindings e)) (kind : Outline.Kind)
    (plural singular : String) (value : Tree) :
    Finds (surveyEntries kind plural singular surveyEntry value)
      (entriesOutline kind plural entryOutline value)
      (entriesFindings plural singular entryFindings value) := by
  unfold surveyEntries entriesOutline entriesFindings
  split
  · have hcount : (value.sectionEntries.map entryOutline).length = value.sectionEntries.length :=
      List.length_map _
    rw [List.append_assoc, ← hcount]
    exact (value.finds_readEntries singular).bind ((Finds.mapM h _).bind
      ((Finds.tally _ _).bind (.pure _)))
  · next hhash =>
    rw [Tree.sectionEntries_eq_nil hhash]
    exact (Finds.report _).bind (.pure _)

/-! ## the connection and its test -/

namespace Connection

def outline (value : Tree) : Outline :=
  let node : Outline :=
    { kind := .connection, name := "connection", loc := value.span.location }
  if value.isHash then describe value node else node

def findings (value : Tree) : List Finding :=
  if value.isHash then
    (callables value).flatMap fun c => [.callable ("connection#" ++ c.1) .lambda c.2 true]
  else [.issue (notHashIssue "connection" "`connection`" value)]

/-- The survey of a connection finds what its rules say. -/
theorem finds_survey (value : Tree) : Finds (survey value) (outline value) (findings value) := by
  unfold survey outline findings
  split
  · have hloop := Finds.forM (fun c : String × Tree =>
      Finds.enter ("connection#" ++ c.1) .lambda c.2) (callables value)
    exact hloop.bind_pure _
  · exact (Finds.report _).bind_pure _

end Connection

namespace ConnectionTest

def outline (value : Tree) : Outline :=
  let node : Outline := { kind := .test, name := "test", loc := value.span.location }
  if value.isCallable then node.withTexts "args" value.params else node

def findings (value : Tree) : List Finding :=
  if value.isCallable then [.callable "connector#test" .lambda value true]
  else [.issue (notLambdaIssue value)]

/-- The survey of a test finds what its rules say. -/
theorem finds_survey (value : Tree) : Finds (survey value) (outline value) (findings value) := by
  unfold survey outline findings
  split
  · exact (Finds.enter ..).bind_pure _
  · exact (Finds.report _).bind_pure _

end ConnectionTest

/-! ## methods -/

namespace Methods

def methodOutline (e : SectionEntry) : Outline :=
  let node : Outline := { kind := .method, name := e.name, loc := e.body.span.location }
  if e.body.isCallable then node.withTexts "args" e.body.params else node

def methodFindings (e : SectionEntry) : List Finding :=
  [.method e.name,
    if e.body.isCallable then .callable (methodId e.name) .method e.body false
    else .issue (notLambdaIssue e)]

/-- The survey of a method finds what its rules say. -/
theorem finds_surveyMethod (e : SectionEntry) :
    Finds (surveyMethod e) (methodOutline e) (methodFindings e) := by
  unfold surveyMethod methodOutline methodFindings
  refine (Finds.declare e.name).bind ?_
  split
  · exact (Finds.register ..).bind_pure _
  · exact (Finds.report _).bind_pure _

def outline : Tree → Outline := entriesOutline .methods "methods" methodOutline

def findings : Tree → List Finding := entriesFindings "methods" "method" methodFindings

end Methods

/-! ## actions and triggers -/

namespace OperationRules

variable (rules : OperationRules)

def operationOutline (e : SectionEntry) : Outline :=
  let node : Outline := { kind := rules.kind, name := e.name, loc := e.body.span.location }
  if e.body.isHash then
    (node.withTexts "keys" e.body.sortedKeys).withTexts "callables"
      (rules.callables.filter fun key => (e.body.callable? key).isSome)
  else node

/-- What is found under a key that is for a callable. -/
def callableFindings (e : SectionEntry) (key : String) : List Finding :=
  (e.body.get? key).elim [] fun value =>
    let owner := s!"{rules.singular}:{e.name}#{key}"
    if value.isCallable then [.callable owner rules.node value true]
    else [.issue (rules.notLambdaIssue e key owner value)]

/-- What is found about the required keys of an operation. -/
def requiredFindings (e : SectionEntry) : List Finding :=
  if (rules.missingKeys e).isEmpty then []
  else [.issue (rules.missingKeysIssue e (rules.missingKeys e))]

def operationFindings (e : SectionEntry) : List Finding :=
  if e.body.isHash then
    rules.requiredFindings e ++ rules.callables.flatMap (rules.callableFindings e)
  else [.issue (notHashIssue rules.singular s!"{rules.title} `{e.name}`" e.body)]

/-- A survey looks for the keys that an operation has to have. -/
theorem finds_surveyRequired (e : SectionEntry) :
    Finds (rules.surveyRequired e) () (rules.requiredFindings e) := by
  unfold surveyRequired requiredFindings
  split
  · exact .pure ()
  · exact .report _

/-- A survey registers the callable of a key, if there is one. -/
theorem finds_surveyCallable (e : SectionEntry) (key : String) :
    Finds (rules.surveyCallable e key)
      (if (e.body.callable? key).isSome then some key else none)
      (rules.callableFindings e key) := by
  unfold surveyCallable callableFindings Tree.callable?
  cases e.body.get? key with
  | none => exact .pure none
  | some value =>
    simp only [Option.elim_some]
    by_cases h : value.isCallable
    · simp only [h, if_true, Option.filter_some, Option.isSome_some]
      exact (Finds.enter ..).bind_pure _
    · simp only [h, if_false, Option.filter_some, Option.isSome_none, Bool.false_eq_true]
      exact (Finds.report _).bind_pure _

/-- The survey of an operation finds what its rules say. -/
theorem finds_surveyOperation (e : SectionEntry) :
    Finds (rules.surveyOperation e) (rules.operationOutline e) (rules.operationFindings e) := by
  have hcallables := Finds.filterMapM (rules.finds_surveyCallable e) rules.callables
  have hkeys : rules.callables.filterMap
      (fun key => if (e.body.callable? key).isSome then some key else none) =
        rules.callables.filter fun key => (e.body.callable? key).isSome := by
    rw [← List.filterMap_eq_filter]
    rfl
  rw [hkeys] at hcallables
  unfold surveyOperation operationOutline operationFindings
  split
  · exact (rules.finds_surveyRequired e).bind (hcallables.bind_pure _)
  · exact (Finds.report _).bind_pure _

def outline : Tree → Outline := entriesOutline rules.group rules.plural rules.operationOutline

def findings : Tree → List Finding :=
  entriesFindings rules.plural rules.singular rules.operationFindings

end OperationRules

/-! ## object definitions and pick lists -/

namespace DeclarationRules

variable (rules : DeclarationRules)

def declarationOutline (e : SectionEntry) : Outline :=
  { kind := rules.kind, name := e.name, loc := e.body.span.location }

def declarationFindings (e : SectionEntry) : List Finding :=
  (rules.callables e).flatMap fun c => [.callable c.1 .lambda c.2 true]

/-- The survey of a declaration finds what its rules say. -/
theorem finds_surveyDeclaration (e : SectionEntry) :
    Finds (rules.surveyDeclaration e) (rules.declarationOutline e)
      (rules.declarationFindings e) := by
  have hloop := Finds.forM (fun c : String × Tree => Finds.enter c.1 .lambda c.2)
    (rules.callables e)
  exact hloop.bind_pure _

def outline : Tree → Outline := entriesOutline rules.group rules.plural rules.declarationOutline

def findings : Tree → List Finding :=
  entriesFindings rules.plural rules.singular rules.declarationFindings

end DeclarationRules

/-! ## sections -/

namespace Section

def outline? (s : Section) (value : Tree) : Option Outline :=
  match s with
  | .connection => some (Connection.outline value)
  | .test => some (ConnectionTest.outline value)
  | .methods => some (Methods.outline value)
  | .objectDefinitions => some (DeclarationRules.objectDefinitions.outline value)
  | .actions => some (OperationRules.actions.outline value)
  | .triggers => some (OperationRules.triggers.outline value)
  | .pickLists => some (DeclarationRules.pickLists.outline value)
  | _ => none

def findings (s : Section) (value : Tree) : List Finding :=
  match s with
  | .connection => Connection.findings value
  | .test => ConnectionTest.findings value
  | .methods => Methods.findings value
  | .objectDefinitions => DeclarationRules.objectDefinitions.findings value
  | .actions => OperationRules.actions.findings value
  | .triggers => OperationRules.triggers.findings value
  | .pickLists => DeclarationRules.pickLists.findings value
  | _ => []

/-- The survey of a section finds what its rules say, whichever section it is. -/
theorem finds_survey? (s : Section) (value : Tree) :
    Finds (s.survey? value) (s.outline? value) (s.findings value) := by
  have hdeclared (rules : DeclarationRules) :
      Finds (rules.survey value) (rules.outline value) (rules.findings value) :=
    finds_surveyEntries rules.finds_surveyDeclaration ..
  have hoperated (rules : OperationRules) :
      Finds (rules.survey value) (rules.outline value) (rules.findings value) :=
    finds_surveyEntries rules.finds_surveyOperation ..
  cases s with
  | connection => exact (Connection.finds_survey value).map some
  | test => exact (ConnectionTest.finds_survey value).map some
  | methods =>
    have hmethods : Finds (Methods.survey value) (Methods.outline value) (Methods.findings value) :=
      finds_surveyEntries Methods.finds_surveyMethod ..
    exact hmethods.map some
  | objectDefinitions => exact (hdeclared .objectDefinitions).map some
  | actions => exact (hoperated .actions).map some
  | triggers => exact (hoperated .triggers).map some
  | pickLists => exact (hdeclared .pickLists).map some
  | _ => exact .pure none

end Section

/-! ## commands and references -/

namespace Tree

def commandIssues (program : Tree) : List Issue :=
  (program.preorder.filter (·.kind == .literal .command)).map commandIssue

/-- A survey flags the backquoted commands of a program. -/
theorem finds_flagCommands (program : Tree) :
    Finds program.flagCommands () (program.commandIssues.map .issue) where
  run_eq s := by
    have hfold : program.fold (fun s t =>
        if t.kind == .literal .command then s.addIssue t.commandIssue else s) s =
          s.addAll (program.commandIssues.map .issue) := by
      rw [fold_eq, ← List.foldl_filter, Survey.addAll, commandIssues, List.foldl_map,
        List.foldl_map]
      rfl
    exact congrArg (Prod.mk ()) hfold

/-- The names that nodes refer to, each with its first place, in order. -/
def collect (reference? : Tree → Option String) (nodes : List Tree) : List (String × Location) :=
  nodes.foldl (fun found t =>
    (reference? t).elim found fun name => noteFirst found name t.span.location) []

/-- References are noted in the order in which they are met. -/
theorem fold_note (document : Tree) :
    document.fold References.note {} =
      ⟨collect objectReference? document.preorder,
        collect pickListReference? document.preorder⟩ := by
  rw [fold_eq]
  generalize document.preorder = nodes
  have hobjects : (nodes.foldl References.note {}).objects = collect objectReference? nodes :=
    (List.foldl_hom References.objects fun _ _ => rfl).symm
  have hlists : (nodes.foldl References.note {}).pickLists = collect pickListReference? nodes :=
    (List.foldl_hom References.pickLists fun _ _ => rfl).symm
  rw [← hobjects, ← hlists]

/-- The issues of the references that are not declared. -/
def undeclaredIssues (found : List (String × Location)) (declared : List String)
    (issueOf : String × Location → Issue) : List Issue :=
  (found.filter fun e => !declared.contains e.1).map issueOf

/-- A survey reports what is used but not declared. -/
theorem finds_reportUndeclared (found : List (String × Location)) (declared : List String)
    (issueOf : String × Location → Issue) :
    Finds (reportUndeclared found declared issueOf) ()
      ((undeclaredIssues found declared issueOf).map .issue) := by
  have hone : ∀ e : String × Location, Finds
      (do unless declared.contains e.1 do Surveying.report (issueOf e)) ()
      (if declared.contains e.1 then [] else [.issue (issueOf e)]) := by
    intro e
    split
    · exact .pure ()
    · exact .report _
  have hall : found.flatMap (fun e => if declared.contains e.1 then [] else
      [Finding.issue (issueOf e)]) = (undeclaredIssues found declared issueOf).map .issue := by
    rw [undeclaredIssues, List.map_map]
    induction found with
    | nil => rfl
    | cons e found ih =>
      rw [List.flatMap_cons, ih, List.filter_cons]
      cases declared.contains e.1 <;> rfl
  exact hall ▸ Finds.forM hone found

/-- Object definitions that are referred to and not declared. -/
def objectIssues (document : Tree) (declared : List String) : List Issue :=
  undeclaredIssues (collect objectReference? document.preorder) declared Issue.missingObject

/-- Pick lists that are referred to and not declared. -/
def pickListIssues (document : Tree) (declared : List String) : List Issue :=
  undeclaredIssues (collect pickListReference? document.preorder) declared Issue.missingPickList

end Tree

/-! ## documents -/

namespace Outline

def ofDocument (filename : String) (document : Tree) : Outline :=
  let root : Outline :=
    { kind := .connector
      name := ((document.get? "title").bind Tree.stringValue?).getD untitled
      loc := document.span.location
      children := outlinedSections.filterMap fun s => (s.value? document).bind s.outline? }
  (root.withText "filename" filename).withTexts "root_keys" document.sortedKeys

def ofProgram (filename : String) (document? : Option Tree) : Outline :=
  document?.elim (empty filename) (ofDocument filename)

end Outline

namespace Tree

/-- What is found in a document: unknown keys, the sections, and dangling references. -/
def documentFindings (document : Tree) : List Finding :=
  let outline := Outline.ofDocument "" document
  document.unknownKeyIssues.map .issue ++
    outlinedSections.flatMap (fun s => (s.value? document).elim [] s.findings) ++
    (document.objectIssues (outline.namesOf .objectDefinition)).map .issue ++
    (document.pickListIssues (outline.namesOf .pickList)).map .issue

end Tree

/-- The descendants of a kind are those of the children, behind the item itself. -/
theorem Outline.descendants_eq {kind : Kind} (o : Outline) :
    o.descendants kind = (if o.kind = kind then [o] else []) ++ descendantsAll kind o.children := by
  obtain ⟨k, name, loc, details, children⟩ := o
  simp [descendants]

/-- The names that an outline shows do not depend on its details. -/
theorem Outline.namesOf_congr {o o' : Outline} (hkind : o.kind = o'.kind) (hname : o.name = o'.name)
    (hchildren : o.children = o'.children) (kind : Kind) : o.namesOf kind = o'.namesOf kind := by
  rw [namesOf, namesOf, descendants_eq, descendants_eq, hkind, hchildren, List.map_append,
    List.map_append]
  split
  · rw [List.map_singleton, List.map_singleton, hname]
  · rfl

/-- Cross references find the objects and then the pick lists that are not declared. -/
theorem Tree.finds_crossReference (document : Tree) (root : Outline) :
    Finds (document.crossReference root) ()
      ((document.objectIssues (root.namesOf .objectDefinition)).map .issue ++
        (document.pickListIssues (root.namesOf .pickList)).map .issue) := by
  unfold crossReference
  rw [fold_note]
  exact (finds_reportUndeclared ..).bind (finds_reportUndeclared ..)

/-- The survey of a document finds what its rules say. -/
theorem Outline.finds_surveyDocument (filename : String) (document : Tree) :
    Finds (surveyDocument filename document) (ofDocument filename document)
      document.documentFindings := by
  have hkeys : Finds (document.unknownKeyIssues.forM Surveying.report) ()
      (document.unknownKeyIssues.map .issue) := by
    rw [List.map_eq_flatMap]
    exact Finds.forM Finds.report document.unknownKeyIssues
  have hsection : ∀ s : Section, Finds ((s.value? document).elim (pure none) s.survey?)
      ((s.value? document).bind s.outline?) ((s.value? document).elim [] s.findings) := by
    intro s
    cases s.value? document with
    | none => exact .pure none
    | some value => exact s.finds_survey? value
  have hnames : ∀ kind, (ofDocument "" document).namesOf kind =
      (ofDocument filename document).namesOf kind := by
    intro kind
    apply namesOf_congr <;> rfl
  have hreferences := document.finds_crossReference (ofDocument filename document)
  rw [Tree.documentFindings, hnames, hnames, List.append_assoc, List.append_assoc]
  exact hkeys.bind ((Finds.filterMapM hsection _).bind (hreferences.bind_pure _))

/-! ## sources -/

/-- What is found in a source and the document in it. -/
def Tree.findingsWith (program : Tree) (document? : Option Tree) : List Finding :=
  program.commandIssues.map .issue ++
    document?.elim [.issue (.warning "no_connector_hash"
      "No hash with at least two known connector sections was found")] documentFindings

/-- The survey of a program finds what its rules say, with or without a document. -/
theorem Outline.finds_survey (filename : String) (program : Tree) (document? : Option Tree) :
    Finds (survey filename program document?) (ofProgram filename document?)
      (program.findingsWith document?) := by
  unfold survey
  refine program.finds_flagCommands.bind ?_
  cases document? with
  | none => exact (Finds.report _).bind_pure _
  | some document => exact finds_surveyDocument filename document

/-- What is found in a source. -/
def Tree.findings (program : Tree) : List Finding := program.findingsWith program.document?

namespace Audit

/-- What is gathered about a parsed source; of its log, only what is raised does not depend on the
cap. -/
def gathered (parsed : Parsed) : Survey := (newSurvey parsed 0).addAll parsed.tree.findings

/-- The issues that are raised about a parsed source, before any are suppressed. -/
def raised (parsed : Parsed) : List Issue :=
  parsed.tree.findings.flatMap Finding.issues ++ Report.issues (gathered parsed)

/-- The audit of a parsed source caps the issues that are raised about it; nothing else in it
depends on the cap but the number of those suppressed. -/
theorem ofParsed_eq (parsed : Parsed) (settings : Settings) :
    ofParsed parsed settings =
      let log := IssueLog.ofIssues settings.maxWarnings (raised parsed)
      assemble (.ofProgram settings.filename parsed.tree.document?) log.issues.toList
        (gathered parsed).graph
        ((gathered parsed).counts.insert "suppressed_warnings" log.suppressed) false
        (.ofSurvey (gathered parsed) settings.limits) := by
  have hnew : newSurvey parsed settings.maxWarnings =
      (newSurvey parsed 0).withLog { cap := settings.maxWarnings } := rfl
  have hfinds := Outline.finds_survey settings.filename parsed.tree parsed.tree.document?
  have hrun := hfinds.run_eq (newSurvey parsed settings.maxWarnings)
  rw [hnew, Survey.addAll_withLog, ← hnew] at hrun
  rw [ofParsed, hrun]
  -- Neither the issues of a report nor the report itself depend on the log.
  rw [raised, IssueLog.ofIssues_append]
  rfl

end Audit

end ConnectorAudit
