import ConnectorAudit.Proofs.Findings

/-!
# The codes of issues

Every issue that is found in a source has one of a fixed list of codes, whatever
the source is: each section has codes of its own (`Section.codes`), a document has
those of its sections and three more, and the calls of its callables bring one.

* `CodedIn.ofDocument`: the codes of what is found in a document;
* `Finding.withCode_flatMap_issues`: the issues with a code are those found, but for those that
  calls bring;
* `Tree.code_mem_surveyCodes`: the codes of all issues that are found in a source.

So the issues of a report, whose codes are none of these, are told apart from what
the passes have found by their codes alone.
-/

namespace ConnectorAudit

namespace Issue

@[simp]
theorem code_located (i : Issue) (loc : Location) : (i.located loc).code = i.code := rfl

@[simp]
theorem code_about (i : Issue) (name value : String) : (i.about name value).code = i.code := rfl

@[simp]
theorem code_aboutAll (i : Issue) (name : String) (values : List String) :
    (i.aboutAll name values).code = i.code := rfl

@[simp]
theorem code_info (code message : String) : (info code message).code = code := rfl

@[simp]
theorem code_warning (code message : String) : (warning code message).code = code := rfl

def withCode (issues : List Issue) (code : String) : List Issue := issues.filter (·.code == code)

variable {issues : List Issue} {code : String}

/-- The findings of a code are found part by part. -/
theorem withCode_append (issues more : List Issue) (code : String) :
    withCode (issues ++ more) code = withCode issues code ++ withCode more code :=
  List.filter_append ..

theorem withCode_flatMap {α : Type} (l : List α) (f : α → List Issue) (code : String) :
    withCode (l.flatMap f) code = l.flatMap fun a => withCode (f a) code :=
  List.filter_flatMap ..

/-- Findings of other codes leave none of this one. -/
theorem withCode_eq_nil (h : ∀ i ∈ issues, i.code ≠ code) : withCode issues code = [] :=
  List.filter_eq_nil_iff.2 fun i hi => by simpa using h i hi

/-- Issues of one kind are found by their code, and by no other. -/
theorem withCode_map {α : Type} (own : String) {f : α → Issue} (h : ∀ a, (f a).code = own)
    (l : List α) (code : String) :
    withCode (l.map f) code = if own = code then l.map f else [] := by
  split
  · next heq => exact List.filter_eq_self.2 (by simp [h, heq])
  · next hne => exact withCode_eq_nil (by simp [h, hne])

end Issue

@[simp]
theorem code_notHashIssue (code what : String) (t : Tree) :
    (notHashIssue code what t).code = code ++ "_not_hash" := rfl

/-! ## the codes of each section -/

/-- The codes of what is found in an operation. -/
def OperationRules.entryCodes (rules : OperationRules) : List String :=
  [rules.singular ++ "_missing_required_keys", "not_lambda", rules.singular ++ "_not_hash"]

/-- The codes of what is found in operations. -/
def OperationRules.codes (rules : OperationRules) : List String :=
  ["duplicate_" ++ rules.singular, rules.singular ++ "_missing_required_keys", "not_lambda",
    rules.singular ++ "_not_hash", rules.plural ++ "_not_hash"]

/-- The codes of what is found in declarations. -/
def DeclarationRules.codes (rules : DeclarationRules) : List String :=
  ["duplicate_" ++ rules.singular, rules.plural ++ "_not_hash"]

/-- The codes of what is found in a section. -/
def Section.codes : Section → List String
  | .connection => ["connection_not_hash"]
  | .test => ["test_not_lambda"]
  | .methods => ["duplicate_method", "method_not_lambda", "methods_not_hash"]
  | .objectDefinitions => DeclarationRules.objectDefinitions.codes
  | .actions => OperationRules.actions.codes
  | .triggers => OperationRules.triggers.codes
  | .pickLists => DeclarationRules.pickLists.codes
  | _ => []

/-- The codes of what is found in a document. -/
def documentCodes : List String :=
  "unknown_root_key" :: "missing_object_definition" :: "missing_pick_list" ::
    outlinedSections.flatMap Section.codes

/-- The codes of the issues that a survey of a source may have. -/
def surveyCodes : List String :=
  "dangerous_xstr" :: "no_connector_hash" :: "dangerous_call" :: documentCodes

/-! ## findings -/

def Finding.issue? : Finding → Option Issue
  | .issue i => some i
  | _ => none

/-- A finding is an issue, or it is no issue at all. -/
theorem Finding.issue?_eq_some_iff {f : Finding} {i : Issue} :
    f.issue? = some i ↔ f = .issue i := by
  cases f <;> simp [issue?]

/-- Findings made of issues give the issues back. -/
theorem Finding.filterMap_issue? (issues : List Issue) :
    (issues.map Finding.issue).filterMap Finding.issue? = issues := by
  simp [List.filterMap_map, Function.comp_def, issue?]

/-- The issues of repeated keys have a code of their own. -/
theorem SectionEntries.code_of_mem_duplicates {singular : String} {es : SectionEntries}
    {pairs : List (Tree × Tree)} {i : Issue} (h : i ∈ es.duplicates singular pairs) :
    i.code = "duplicate_" ++ singular := by
  induction pairs generalizing es with
  | nil => cases h
  | cons pair pairs ih =>
    rcases List.mem_append.1 h with h | h
    · obtain ⟨name, -, rfl⟩ := Option.map_eq_some_iff.1 (Option.mem_toList.1 h)
      rfl
    · exact ih h

/-- All issues among the findings have one of the codes. -/
def CodedIn (codes : List String) (findings : List Finding) : Prop :=
  ∀ i, .issue i ∈ findings → i.code ∈ codes

namespace CodedIn

variable {codes more : List String} {fs gs : List Finding}

/-- A wider list of codes covers what a narrower one does. -/
theorem mono (h : CodedIn codes fs) (hsub : codes ⊆ more) : CodedIn more fs :=
  fun i hi => hsub (h i hi)

/-- Codes cover two lists of findings if they cover each. -/
theorem append (hfs : CodedIn codes fs) (hgs : CodedIn codes gs) : CodedIn codes (fs ++ gs) :=
  fun i hi => (List.mem_append.1 hi).elim (hfs i) (hgs i)

/-- Codes cover the findings of all items if they cover those of each. -/
theorem flatMap {α : Type} {f : α → List Finding} {l : List α}
    (hf : ∀ a ∈ l, CodedIn codes (f a)) : CodedIn codes (l.flatMap f) := by
  intro i hi
  obtain ⟨a, ha, hi⟩ := List.mem_flatMap.1 hi
  exact hf a ha i hi

/-- Codes cover findings made of issues if they cover the issues. -/
theorem ofIssues {issues : List Issue} (h : ∀ i ∈ issues, i.code ∈ codes) :
    CodedIn codes (issues.map .issue) := by
  intro i hi
  obtain ⟨j, hj, hij⟩ := List.mem_map.1 hi
  obtain rfl := Finding.issue.inj hij
  exact h j hj

theorem issue {i : Issue} (h : i.code ∈ codes) : CodedIn codes [.issue i] := by
  intro j hj
  obtain rfl : j = i := by simpa using hj
  exact h

/-- A code that the findings do not have. -/
theorem withCode_eq_nil (h : CodedIn codes fs) {code : String} (hcode : code ∉ codes) :
    Issue.withCode (fs.filterMap Finding.issue?) code = [] := by
  refine Issue.withCode_eq_nil fun i hi heq => hcode (heq ▸ h i ?_)
  obtain ⟨f, hf, hi⟩ := List.mem_filterMap.1 hi
  exact Finding.issue?_eq_some_iff.1 hi ▸ hf

/-- Findings among which there is no issue. -/
theorem none (h : ∀ i, .issue i ∉ fs) : CodedIn codes fs := fun i hi => absurd hi (h i)

/-! ### sections -/

/-- A section of entries. -/
theorem entries {value : Tree} {singular plural : String} {f : SectionEntry → List Finding}
    (hduplicate : "duplicate_" ++ singular ∈ codes) (hhash : plural ++ "_not_hash" ∈ codes)
    (hf : ∀ e, CodedIn codes (f e)) : CodedIn codes (entriesFindings plural singular f value) := by
  unfold entriesFindings
  split
  · refine ((ofIssues fun i hi => ?_).append (flatMap fun e _ => hf e)).append (none (by simp))
    rwa [SectionEntries.code_of_mem_duplicates hi]
  · exact issue hhash

/-- What is found in a connection has one of its codes. -/
theorem connection (value : Tree) :
    CodedIn (Section.codes .connection) (Connection.findings value) := by
  unfold Connection.findings
  split
  · exact none (by simp)
  · exact issue List.mem_cons_self

/-- What is found in a test has one of its codes. -/
theorem test (value : Tree) : CodedIn (Section.codes .test) (ConnectionTest.findings value) := by
  unfold ConnectionTest.findings
  split
  · exact none (by simp)
  · exact issue List.mem_cons_self

/-- The one thing wrong with a single method is that it is no lambda. -/
theorem methodFindings (e : SectionEntry) :
    CodedIn ["method_not_lambda"] (Methods.methodFindings e) := by
  unfold Methods.methodFindings
  split
  · exact none (by simp)
  · exact (none (by simp) : CodedIn _ [_]).append (issue List.mem_cons_self)

/-- What is found in methods has one of their codes. -/
theorem methods (value : Tree) : CodedIn (Section.codes .methods) (Methods.findings value) :=
  entries (by decide) (by decide) fun e => (methodFindings e).mono (by decide)

/-- What is found in a single operation has a code of an entry. -/
theorem operationFindings (rules : OperationRules) (e : SectionEntry) :
    CodedIn rules.entryCodes (rules.operationFindings e) := by
  unfold OperationRules.operationFindings OperationRules.entryCodes
  split
  · refine append ?_ (flatMap fun key _ => ?_)
    · unfold OperationRules.requiredFindings
      split
      · exact none (by simp)
      · exact issue (by simp [OperationRules.missingKeysIssue])
    · unfold OperationRules.callableFindings
      cases e.body.get? key with
      | none => exact none (by simp)
      | some value =>
        simp only [Option.elim_some]
        split
        · exact none (by simp)
        · exact issue (by simp [OperationRules.notLambdaIssue])
  · exact issue (by simp)

/-- What is found in operations has one of their codes. -/
theorem operations (rules : OperationRules) (value : Tree) :
    CodedIn rules.codes (rules.findings value) :=
  entries (by simp [OperationRules.codes]) (by simp [OperationRules.codes]) fun e =>
    (operationFindings rules e).mono (by simp [OperationRules.entryCodes, OperationRules.codes])

/-- Nothing is found wrong with a single declaration. -/
theorem declarationFindings (rules : DeclarationRules) (e : SectionEntry) :
    CodedIn [] (rules.declarationFindings e) :=
  flatMap fun _ _ => none (by simp)

/-- What is found in declarations has one of their codes. -/
theorem declarations (rules : DeclarationRules) (value : Tree) :
    CodedIn rules.codes (rules.findings value) :=
  entries (by simp [DeclarationRules.codes]) (by simp [DeclarationRules.codes]) fun e =>
    (declarationFindings rules e).mono (List.nil_subset _)

/-- What is found in a section has one of its codes, whichever section it is. -/
theorem ofSection (s : Section) (value : Tree) : CodedIn s.codes (s.findings value) := by
  cases s with
  | connection => exact connection value
  | test => exact test value
  | methods => exact methods value
  | objectDefinitions => exact declarations _ value
  | actions => exact operations _ value
  | triggers => exact operations _ value
  | pickLists => exact declarations _ value
  | _ => exact none (fun i hi => by cases hi)

/-! ### documents -/

/-- Backquoted commands are found under one code. -/
theorem commands (program : Tree) :
    CodedIn ["dangerous_xstr"] (program.commandIssues.map .issue) := by
  refine ofIssues fun i hi => ?_
  obtain ⟨t, -, rfl⟩ := List.mem_map.1 hi
  exact List.mem_cons_self

/-- Unknown keys are found under one code. -/
theorem unknownKeys (document : Tree) :
    CodedIn ["unknown_root_key"] (document.unknownKeyIssues.map .issue) := by
  refine ofIssues fun i hi => ?_
  obtain ⟨⟨name, key⟩, -, h⟩ := List.mem_filterMap.1 hi
  simp only at h
  split at h
  · obtain rfl := Option.some.inj h
    exact List.mem_cons_self
  · cases h

/-- Objects that are used but not declared are found under one code. -/
theorem objects (document : Tree) (declared : List String) :
    CodedIn ["missing_object_definition"] ((document.objectIssues declared).map .issue) := by
  refine ofIssues fun i hi => ?_
  obtain ⟨e, -, rfl⟩ := List.mem_map.1 hi
  exact List.mem_cons_self

/-- Pick lists that are used but not declared are found under one code. -/
theorem pickLists (document : Tree) (declared : List String) :
    CodedIn ["missing_pick_list"] ((document.pickListIssues declared).map .issue) := by
  refine ofIssues fun i hi => ?_
  obtain ⟨e, -, rfl⟩ := List.mem_map.1 hi
  exact List.mem_cons_self

/-- What is found in a document has a code of a document. -/
theorem ofDocument (document : Tree) : CodedIn documentCodes document.documentFindings := by
  have hsections : ∀ s ∈ outlinedSections,
      CodedIn documentCodes ((s.value? document).elim [] s.findings) := by
    intro s hs
    cases s.value? document with
    | none => exact none (by simp)
    | some value =>
      refine (ofSection s value).mono fun code hcode => ?_
      exact List.mem_cons_of_mem _ (List.mem_cons_of_mem _ (List.mem_cons_of_mem _
        (List.mem_flatMap.2 ⟨s, hs, hcode⟩)))
  refine (((unknownKeys document).mono ?_ |>.append (flatMap hsections)).append
    ((objects document _).mono ?_)).append ((pickLists document _).mono ?_) <;>
    simp [documentCodes]

/-- What is found in a program has a code of the survey. -/
theorem ofProgram (program : Tree) : CodedIn surveyCodes program.findings := by
  refine append ((commands program).mono (by simp [surveyCodes])) ?_
  cases program.document? with
  | none => exact issue (List.mem_cons_of_mem _ List.mem_cons_self)
  | some document =>
    refine (ofDocument document).mono fun code hcode => ?_
    exact List.mem_cons_of_mem _ (List.mem_cons_of_mem _ (List.mem_cons_of_mem _ hcode))

end CodedIn

/-! ## all issues -/

namespace Finding

variable {i : Issue} {fs : List Finding}

/-- The only issues that calls bring are those of dangerous calls. -/
theorem mem_issues {f : Finding} (h : i ∈ f.issues) : f = .issue i ∨ i.code = "dangerous_call" := by
  cases f with
  | issue j => exact .inl (congrArg Finding.issue (List.mem_singleton.1 h).symm)
  | method name => cases h
  | tally name count => cases h
  | callable owner kind body entry =>
    obtain ⟨⟨call, loc⟩, -, hissue⟩ := List.mem_filterMap.1 h
    cases call with
    | dangerous name =>
      obtain rfl := Option.some.inj hissue
      exact .inr rfl
    | http => cases hissue
    | method => cases hissue
    | dynamicMethod => cases hissue

/-- The issues with a code that is not the one of calls are those found. -/
theorem withCode_flatMap_issues {code : String} (hcode : code ≠ "dangerous_call")
    (fs : List Finding) :
    Issue.withCode (fs.flatMap issues) code = Issue.withCode (fs.filterMap issue?) code := by
  have hone : ∀ f : Finding,
      Issue.withCode f.issues code = Issue.withCode f.issue?.toList code := by
    intro f
    cases f with
    | callable owner kind body entry =>
      refine Issue.withCode_eq_nil fun i hi heq => hcode (heq ▸ ?_)
      exact (mem_issues hi).resolve_left (by simp)
    | issue i => rfl
    | method name => rfl
    | tally name count => rfl
  induction fs with
  | nil => rfl
  | cons f fs ih =>
    rw [List.flatMap_cons, Issue.withCode_append, ih, hone, ← Issue.withCode_append]
    cases h : f.issue? <;> simp [h]

end Finding

/-- The issues that are found in a source have codes from a fixed list. -/
theorem Tree.code_mem_surveyCodes {program : Tree} {i : Issue}
    (h : i ∈ program.findings.flatMap Finding.issues) : i.code ∈ surveyCodes := by
  obtain ⟨f, hf, hi⟩ := List.mem_flatMap.1 h
  rcases Finding.mem_issues hi with rfl | hcode
  · exact CodedIn.ofProgram program i hf
  · rw [hcode]
    exact List.mem_cons_of_mem _ (List.mem_cons_of_mem _ List.mem_cons_self)

end ConnectorAudit
