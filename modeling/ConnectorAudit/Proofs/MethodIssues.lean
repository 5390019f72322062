import Mathlib.Data.List.Nodup
import ConnectorAudit.Proofs.Caps
import ConnectorAudit.Proofs.Codes
import ConnectorAudit.Proofs.Entrypoints
import ConnectorAudit.Proofs.Sorting

/-!
# What an audit reports about methods

Three reports are made from different records of a survey: undefined methods from
the call sites, unused ones from the names declared, unreachable ones from the graph.
They fit together because a survey writes a call site and an edge for the same call
(`Survey.SameCalls`), and because the codes of the issues tell the reports apart
from all else that is found.

`Audit.accountsFor_ofSource` says what the issues of an audit are, each with its
number, in terms of the source's callables and the methods that its outline shows.
-/

namespace ConnectorAudit

/-! ## what an issue is about -/

namespace Issue

/-- The text under a name in what an issue is about. -/
def text? (i : Issue) (name : String) : Option String :=
  match i.context.get? name with
  | some (.text value) => some value
  | _ => none

def method? (i : Issue) : Option String := i.text? "method"

def callSite? (i : Issue) : Option CallSite :=
  (i.text? "caller").bind fun owner => i.method?.map fun method => ⟨owner, method, i.loc⟩

@[simp]
theorem loc_about (i : Issue) (name value : String) : (i.about name value).loc = i.loc := rfl

@[simp]
theorem loc_located (i : Issue) (loc : Location) : (i.located loc).loc = loc := rfl

/-- A text about a name is found under that name. -/
theorem text?_about (i : Issue) (key name value : String) :
    (i.about key value).text? name = if name = key then some value else i.text? name := by
  rw [text?, about, Table.get?_insert]
  by_cases h : name = key
  · rw [if_pos h, if_pos h]
  · rw [if_neg h, if_neg h, text?]

end Issue

/-! ## call sites -/

/-- The callable that a finding registers. -/
def Finding.callable? : Finding → Option Callable
  | .callable owner kind body _ => some ⟨owner, kind, body⟩
  | _ => none

namespace Tree

/-- The callables of a source, in the order in which they are registered. -/
def callables (program : Tree) : List Callable := program.findings.filterMap Finding.callable?

/-- The places at which the callables of a source call a method by a fixed name, in order. -/
def callSites (program : Tree) : List CallSite :=
  program.callables.flatMap fun c => c.body.preorder.filterMap fun t =>
    t.calledMethod?.map fun name => ⟨c.owner, name, t.span.location⟩

end Tree

namespace Survey

/-- Two surveys with the same graph and the same call sites. -/
structure SameCalls (s s' : Survey) : Prop where
  graph_eq : s.graph = s'.graph
  callSites_eq : s.callSites = s'.callSites

namespace SameCalls

variable {s s' : Survey}

/-- A call that is added to both surveys leaves them with the same calls. -/
theorem addCall (h : s.SameCalls s') (owner : String) (call : Call × Location) :
    (addCall owner s call).SameCalls (addCall owner s' call) where
  graph_eq := by rw [graph_addCall, graph_addCall, h.graph_eq]
  callSites_eq := by rw [callSites_addCall, callSites_addCall, h.callSites_eq]

/-- A callable that is registered in both surveys leaves them with the same calls. -/
theorem register (h : s.SameCalls s') (owner : String) (kind : Graph.Kind) (body : Tree) :
    (s.register owner kind body).SameCalls (s'.register owner kind body) := by
  have hrun : ∀ (calls : List (Call × Location)) (s s' : Survey), s.SameCalls s' →
      (calls.foldl (Survey.addCall owner) s).SameCalls (calls.foldl (Survey.addCall owner) s') := by
    intro calls
    induction calls with
    | nil => exact fun s s' h => h
    | cons call calls ih => exact fun s s' h => ih _ _ (h.addCall owner call)
  rw [register_eq, register_eq]
  exact hrun body.calls _ _ ⟨by simp only [h.graph_eq], h.callSites_eq⟩

/-- Only callables matter for the graph and the call sites. -/
theorem add (h : s.SameCalls s') (f : Finding) :
    (s.add f).SameCalls (s'.registerAll f.callable?.toList) := by
  cases f with
  | issue i => exact ⟨h.graph_eq, h.callSites_eq⟩
  | method name => exact ⟨h.graph_eq, h.callSites_eq⟩
  | tally name count => exact ⟨h.graph_eq, h.callSites_eq⟩
  | callable owner kind body entry =>
    have hregistered := h.register owner kind body
    obtain ⟨entrypoints, hadd⟩ := s.exists_add_callable_eq owner kind body entry
    rw [hadd]
    exact ⟨hregistered.graph_eq, hregistered.callSites_eq⟩

/-- Findings bring the same calls as the callables among them. -/
theorem addAll (h : s.SameCalls s') (fs : List Finding) :
    (s.addAll fs).SameCalls (s'.registerAll (fs.filterMap Finding.callable?)) := by
  induction fs generalizing s s' with
  | nil => exact h
  | cons f fs ih =>
    have hrest := ih (h.add f)
    have hfound : (f :: fs).filterMap Finding.callable? =
        f.callable?.toList ++ fs.filterMap Finding.callable? := by
      cases hf : f.callable? <;> simp [hf]
    rw [hfound, registerAll, List.foldl_append, ← registerAll]
    exact hrest

end SameCalls

end Survey

/-! ## reports -/

namespace Report

/-- The issues of a report with a code, part by part. -/
theorem withCode_issues (s : Survey) (code : String) :
    Issue.withCode (issues s) code =
      (if "undefined_method" = code then undefinedMethods s.methods s.callSites else []) ++
        (if "unused_method" = code then unusedMethods s.methods s.callSites else []) ++
        (if "method_cycle" = code then cycleIssues s.graph.cycles else []) ++
        (if "unreachable_method" = code then
          unreachableMethods s.graph s.methods s.callSites
            (s.graph.reachable (s.entrypoints.filter s.graph.contains)) else []) := by
  simp only [issues, Issue.withCode_append]
  congr 1
  · congr 1
    · congr 1
      · exact Issue.withCode_map "undefined_method" (fun _ => rfl) _ code
      · exact Issue.withCode_map "unused_method" (fun _ => rfl) _ code
    · exact Issue.withCode_map "method_cycle" (fun _ => rfl) _ code
  · exact Issue.withCode_map "unreachable_method" (fun _ => rfl) _ code

/-- The warnings of a report are those about undefined methods and cycles. -/
theorem countSeverity_issues (s : Survey) :
    Audit.countSeverity (issues s) .warning =
      (undefinedMethods s.methods s.callSites).length + s.graph.cycles.length := by
  have hall : ∀ {α : Type} {f : α → Issue} (l : List α), (∀ a, (f a).severity = .warning) →
      (l.map f).filter (·.severity == .warning) = l.map f := by
    intro α f l h
    exact List.filter_eq_self.2 (by simp [h])
  have hnone : ∀ {α : Type} {f : α → Issue} (l : List α), (∀ a, (f a).severity = .info) →
      (l.map f).filter (·.severity == .warning) = [] := by
    intro α f l h
    exact List.filter_eq_nil_iff.2 (by simp [h])
  rw [Audit.countSeverity, issues, List.filter_append, List.filter_append, List.filter_append,
    undefinedMethods, unusedMethods, cycleIssues, unreachableMethods, hall _ fun _ => rfl,
    hnone _ fun _ => rfl, hall _ fun _ => rfl, hnone _ fun _ => rfl]
  simp

variable {declared reached : List String} {sites : List CallSite} {graph : Graph}

/-- The issues about undefined methods tell the call sites of such methods, each once. -/
theorem map_callSite?_undefinedMethods :
    (undefinedMethods declared sites).map Issue.callSite? =
      (sites.filter fun site => !declared.contains site.method).eraseDups.map some := by
  rw [undefinedMethods, List.map_map]
  refine List.map_congr_left fun site _ => ?_
  simp [Issue.callSite?, Issue.method?, Issue.text?_about]

/-- The issues about undefined methods name the methods of their call sites. -/
theorem map_method?_undefinedMethods :
    (undefinedMethods declared sites).map Issue.method? =
      (sites.filter fun site => !declared.contains site.method).eraseDups.map
        fun site => some site.method := by
  rw [undefinedMethods, List.map_map]
  refine List.map_congr_left fun site _ => ?_
  simp [Issue.method?, Issue.text?_about]

/-- The issues about unused methods name what is declared but never called. -/
theorem map_method?_unusedMethods :
    (unusedMethods declared sites).map Issue.method? =
      ((sortedDistinct declared).filter fun name =>
        name != dynamicName && !sites.any (·.method == name)).map some := by
  rw [unusedMethods, List.map_map]
  refine List.map_congr_left fun name _ => ?_
  simp [Issue.method?, Issue.text?_about]

/-- The issues about unreachable methods name what is called but not reached. -/
theorem map_method?_unreachableMethods :
    (unreachableMethods graph declared sites reached).map Issue.method? =
      ((sortedDistinct declared).filter fun name =>
        sites.any (·.method == name) && graph.contains (methodId name) &&
          !reached.contains (methodId name)).map some := by
  rw [unreachableMethods, List.map_map]
  refine List.map_congr_left fun name _ => ?_
  simp [Issue.method?, Issue.text?_about]

end Report

/-! ## audits -/

/-- An item is in a list once if something holds, and not at all if it does not. -/
def OnceIff {α : Type} [BEq α] (p : Prop) (a : α) (l : List α) : Prop :=
  (p → l.count a = 1) ∧ (¬p → l.count a = 0)

theorem onceIff_of_nodup {α : Type} [BEq α] [LawfulBEq α] {p : Prop} {a : α} {l : List α}
    (h : l.Nodup) (hmem : a ∈ l ↔ p) : OnceIff p a l :=
  ⟨fun hp => List.count_eq_one_of_mem h (hmem.2 hp), fun hp =>
    List.count_eq_zero.2 fun ha => hp (hmem.1 ha)⟩

/-- Names picked from a list of names are listed once. -/
theorem nodup_reported (p : String → Bool) (names : List String) :
    (((sortedDistinct names).filter p).map some).Nodup :=
  ((nodup_sortedDistinct names).filter p).map fun _ _ => Option.some.inj

/-- What is reported are the names that meet the condition. -/
theorem mem_reported_iff {p : String → Bool} {names : List String} {name? : Option String} :
    name? ∈ ((sortedDistinct names).filter p).map some ↔
      ∃ name, (name ∈ names ∧ p name = true) ∧ some name = name? := by
  simp only [List.mem_map, List.mem_filter, mem_sortedDistinct_iff]

/-- Some call site names the method. -/
def Called (sites : List CallSite) (name : String) : Prop := ∃ site ∈ sites, site.method = name

/-- A method is called if some call site names it. -/
theorem called_iff {sites : List CallSite} {name : String} :
    Called sites name ↔ sites.any (·.method == name) = true := by
  simp [Called]

namespace Audit

/-- The methods that the issues with a code are about. -/
def accused (audit : Audit) (code : String) : List (Option String) :=
  (Issue.withCode audit.issues code).map Issue.method?

/-- A walk leads to the node from one of the entrypoints. -/
def Reached (audit : Audit) (id : String) : Prop :=
  ∃ entry ∈ audit.report.entrypoints, audit.graph.Reaches entry id

/-- What the issues of an audit say about the methods that its outline shows, given the call sites
of the source. -/
structure AccountsFor (audit : Audit) (sites : List CallSite) : Prop where
  /-- No two issues about undefined methods are about the same call site. -/
  nodup_undefined : ((Issue.withCode audit.issues "undefined_method").map Issue.callSite?).Nodup
  /-- They are about the call sites that name a method that is not declared. -/
  mem_undefined_iff : ∀ site?,
    site? ∈ (Issue.withCode audit.issues "undefined_method").map Issue.callSite? ↔
      ∃ site ∈ sites, site.method ∉ audit.root.namesOf .method ∧ some site = site?
  /-- A declared method is unused if no call site names it. -/
  unused : ∀ name,
    OnceIff (name ∈ audit.root.namesOf .method ∧ name ≠ dynamicName ∧ ¬Called sites name)
      (some name) (audit.accused "unused_method")
  /-- A declared method is unreachable if a call site names it and no entrypoint reaches it. -/
  unreachable : ∀ name,
    OnceIff (name ∈ audit.root.namesOf .method ∧ Called sites name ∧
        ¬audit.Reached (methodId name))
      (some name) (audit.accused "unreachable_method")
  /-- No method is reported in two of the three ways. -/
  disjoint : ["undefined_method", "unused_method", "unreachable_method"].Pairwise fun code code' =>
    (audit.accused code).Disjoint (audit.accused code')
  /-- What calls an unreachable method is itself not reached. -/
  not_reached_of_unreachable : ∀ name, some name ∈ audit.accused "unreachable_method" →
    ∀ site ∈ sites, site.method = name → ¬audit.Reached site.owner

section Parsed

variable {parsed : Parsed} {settings : Settings}

/-- What is gathered about a source has the graph and the call sites of its callables. -/
theorem sameCalls_gathered (parsed : Parsed) :
    (gathered parsed).SameCalls (.ofCallables 0 parsed.tree.callables) := by
  have hnew : (newSurvey parsed 0).SameCalls (.ofCap 0) := ⟨rfl, rfl⟩
  exact hnew.addAll parsed.tree.findings

/-- The call sites that are gathered are those of the tree. -/
theorem callSites_gathered (parsed : Parsed) :
    (gathered parsed).callSites = parsed.tree.callSites :=
  (sameCalls_gathered parsed).callSites_eq.trans (Survey.callSites_eq parsed.tree.callables)

/-- Each call site has its edge. -/
theorem joins_of_mem_callSites {site : CallSite} (h : site ∈ parsed.tree.callSites) :
    (gathered parsed).graph.Joins site.owner (methodId site.method) := by
  rw [← callSites_gathered, (sameCalls_gathered parsed).callSites_eq] at h
  rw [(sameCalls_gathered parsed).graph_eq]
  exact ⟨_, Survey.mem_edges_iff.2 (.inl ⟨site, h, rfl⟩), rfl, rfl⟩

/-- Where nothing is suppressed, the issues with a code that no pass has are those of the report. -/
theorem withCode_ofParsed
    (h : (ofParsed parsed settings).stats.get? "suppressed_warnings" = some 0) {code : String}
    (hcode : code ∉ surveyCodes) :
    Issue.withCode (ofParsed parsed settings).issues code =
      Issue.withCode (Report.issues (gathered parsed)) code := by
  rw [(get?_stats_ofParsed parsed settings).2] at h
  have hall : (ofParsed parsed settings).issues = raised parsed := by
    rw [ofParsed_eq]
    exact IssueLog.issues_ofIssues (Nat.le_of_sub_eq_zero (Option.some.inj h))
  have hfound : Issue.withCode (parsed.tree.findings.flatMap Finding.issues) code = [] :=
    Issue.withCode_eq_nil fun i hi heq => hcode (heq ▸ Tree.code_mem_surveyCodes hi)
  rw [hall, raised, Issue.withCode_append, hfound, List.nil_append]

/-- The search from the entrypoints of a report meets what they reach. -/
theorem mem_reachable_iff_reached {id : String} :
    id ∈ (gathered parsed).graph.reachable
        ((gathered parsed).entrypoints.filter (gathered parsed).graph.contains) ↔
      (ofParsed parsed settings).Reached id := by
  have hrooted := rooted_gathered parsed
  rw [ofParsed_eq, hrooted.wellFormed.mem_reachable_iff]
  refine exists_congr fun entry => and_congr_right fun hentry => and_iff_right ?_
  exact Graph.contains_iff.1 (List.mem_filter.1 hentry).2

/-- The node of a method that is called is in the graph. -/
theorem contains_methodId {name : String} (h : Called parsed.tree.callSites name) :
    (gathered parsed).graph.contains (methodId name) = true := by
  obtain ⟨site, hsite, rfl⟩ := h
  have hjoins := joins_of_mem_callSites hsite
  exact Graph.contains_iff.2 ((rooted_gathered parsed).wellFormed.mem_of_joins hjoins).2

variable (h : (ofParsed parsed settings).stats.get? "suppressed_warnings" = some 0)

include h

/-! ### the three reports -/

/-- The undefined methods of an audit are told by its own methods and calls. -/
theorem withCode_undefined_ofParsed :
    Issue.withCode (ofParsed parsed settings).issues "undefined_method" =
      Report.undefinedMethods ((ofParsed parsed settings).root.namesOf .method)
        parsed.tree.callSites := by
  rw [withCode_ofParsed h (by decide), Report.withCode_issues, namesOf_root_ofParsed,
    ← callSites_gathered]
  simp

/-- A method that is accused of being undefined is not declared. -/
theorem not_declared_of_mem_accused {name? : Option String}
    (hname : name? ∈ (ofParsed parsed settings).accused "undefined_method") :
    ∃ name, name ∉ (ofParsed parsed settings).root.namesOf .method ∧ some name = name? := by
  rw [accused, withCode_undefined_ofParsed h, Report.map_method?_undefinedMethods] at hname
  obtain ⟨site, hsite, rfl⟩ := List.mem_map.1 hname
  obtain ⟨-, hnot⟩ := List.mem_filter.1 (List.mem_eraseDups.1 hsite)
  exact ⟨site.method, by simpa using hnot, rfl⟩

/-- The methods accused of being unused are declared but never called, in their order. -/
theorem accused_unused_ofParsed :
    (ofParsed parsed settings).accused "unused_method" =
      ((sortedDistinct ((ofParsed parsed settings).root.namesOf .method)).filter fun name =>
        name != dynamicName && !parsed.tree.callSites.any (·.method == name)).map some := by
  rw [accused, withCode_ofParsed h (by decide), Report.withCode_issues, namesOf_root_ofParsed,
    ← callSites_gathered, ← Report.map_method?_unusedMethods]
  simp

/-- A method is accused of being unused if it is declared and never called. -/
theorem mem_accused_unused_iff {name? : Option String} :
    name? ∈ (ofParsed parsed settings).accused "unused_method" ↔
      ∃ name, (name ∈ (ofParsed parsed settings).root.namesOf .method ∧ name ≠ dynamicName ∧
        ¬Called parsed.tree.callSites name) ∧ some name = name? := by
  rw [accused_unused_ofParsed h, mem_reported_iff]
  simp only [Bool.and_eq_true, bne_iff_ne, Bool.not_eq_true', ← Bool.not_eq_true, called_iff]

/-- The methods accused of being unreachable are called but not reached, in their order. -/
theorem accused_unreachable_ofParsed :
    (ofParsed parsed settings).accused "unreachable_method" =
      ((sortedDistinct ((ofParsed parsed settings).root.namesOf .method)).filter fun name =>
        parsed.tree.callSites.any (·.method == name) &&
          (gathered parsed).graph.contains (methodId name) &&
          !((gathered parsed).graph.reachable ((gathered parsed).entrypoints.filter
            (gathered parsed).graph.contains)).contains (methodId name)).map some := by
  rw [accused, withCode_ofParsed h (by decide), Report.withCode_issues, namesOf_root_ofParsed,
    ← callSites_gathered, ← Report.map_method?_unreachableMethods]
  simp

/-- A method is accused of being unreachable if it is called and no entry point leads to it. -/
theorem mem_accused_unreachable_iff {name? : Option String} :
    name? ∈ (ofParsed parsed settings).accused "unreachable_method" ↔
      ∃ name, (name ∈ (ofParsed parsed settings).root.namesOf .method ∧
        Called parsed.tree.callSites name ∧
          ¬(ofParsed parsed settings).Reached (methodId name)) ∧ some name = name? := by
  rw [accused_unreachable_ofParsed h, mem_reported_iff]
  refine exists_congr fun name => and_congr_left fun _ => and_congr_right fun _ => ?_
  rw [Bool.and_eq_true, Bool.and_eq_true, ← called_iff, and_assoc]
  refine and_congr_right fun hcalled => ?_
  rw [contains_methodId hcalled, ← mem_reachable_iff_reached]
  simp

/-! ### how they fit together -/

/-- No method is accused of two things. -/
theorem disjoint_accused : ["undefined_method", "unused_method", "unreachable_method"].Pairwise
    fun code code' => ((ofParsed parsed settings).accused code).Disjoint
      ((ofParsed parsed settings).accused code') := by
  refine List.pairwise_cons.2 ⟨fun code hcode name? hundefined hother => ?_,
    List.pairwise_pair.2 fun name? hunused hunreachable => ?_⟩
  · -- Both other reports are about declared methods.
    obtain ⟨name, hnot, rfl⟩ := not_declared_of_mem_accused h hundefined
    rcases List.mem_pair.1 hcode with rfl | rfl
    · obtain ⟨other, ⟨hdeclared, -⟩, heq⟩ := (mem_accused_unused_iff h).1 hother
      exact hnot (Option.some.inj heq ▸ hdeclared)
    · obtain ⟨other, ⟨hdeclared, -⟩, heq⟩ := (mem_accused_unreachable_iff h).1 hother
      exact hnot (Option.some.inj heq ▸ hdeclared)
  · -- One is about methods that are not called, the other about methods that are.
    obtain ⟨name, ⟨-, -, hnot⟩, rfl⟩ := (mem_accused_unused_iff h).1 hunused
    obtain ⟨other, ⟨-, hcalled, -⟩, heq⟩ := (mem_accused_unreachable_iff h).1 hunreachable
    exact hnot (Option.some.inj heq ▸ hcalled)

/-- What calls an unreachable method is not reached, or the call would reach the method. -/
theorem not_reached_of_mem_accused {name : String}
    (hname : some name ∈ (ofParsed parsed settings).accused "unreachable_method") {site : CallSite}
    (hsite : site ∈ parsed.tree.callSites) (hmethod : site.method = name) :
    ¬(ofParsed parsed settings).Reached site.owner := by
  obtain ⟨other, ⟨-, -, hnot⟩, heq⟩ := (mem_accused_unreachable_iff h).1 hname
  rintro ⟨entry, hentry, hreach⟩
  refine hnot ⟨entry, hentry, hreach.tail ?_⟩
  rw [Option.some.inj heq, ← hmethod, ofParsed_eq]
  exact joins_of_mem_callSites hsite

/-- An audit of a parsed source accounts for its call sites. -/
theorem accountsFor_ofParsed : (ofParsed parsed settings).AccountsFor parsed.tree.callSites where
  nodup_undefined := by
    rw [withCode_undefined_ofParsed h, Report.map_callSite?_undefinedMethods]
    exact (nodup_eraseDups _).map fun _ _ => Option.some.inj
  mem_undefined_iff site? := by
    rw [withCode_undefined_ofParsed h, Report.map_callSite?_undefinedMethods]
    simp [and_assoc]
  unused name := by
    refine onceIff_of_nodup ?_ ((mem_accused_unused_iff h).trans (by simp))
    rw [accused_unused_ofParsed h]
    exact nodup_reported ..
  unreachable name := by
    refine onceIff_of_nodup ?_ ((mem_accused_unreachable_iff h).trans (by simp))
    rw [accused_unreachable_ofParsed h]
    exact nodup_reported ..
  disjoint := disjoint_accused h
  not_reached_of_unreachable _ hname _ hsite hmethod :=
    not_reached_of_mem_accused h hname hsite hmethod

end Parsed

/-- An audit of a source that can be parsed is that of what it is parsed into. -/
theorem ofSource_eq_ofParsed {source : String} {parsed : Parsed} {settings : Settings}
    (hparse : Parsed.ofSource source = .ok parsed) :
    ofSource source settings = ofParsed parsed settings := by
  simp only [ofSource, hparse]

/-- **Methods.** In the audit of a source that parses, with nothing suppressed, the issues about
undefined methods are those of the call sites that name no declared method, one for each; a declared
method is reported once as unused if no call site names it, and once as unreachable if one does and
no entrypoint reaches it; the three reports have no method in common, and nothing that calls an
unreachable method is reached. -/
theorem accountsFor_ofSource {source : String} {parsed : Parsed} {settings : Settings}
    (hparse : Parsed.ofSource source = .ok parsed)
    (h : (ofSource source settings).stats.get? "suppressed_warnings" = some 0) :
    (ofSource source settings).AccountsFor parsed.tree.callSites := by
  rw [ofSource_eq_ofParsed hparse] at h ⊢
  exact accountsFor_ofParsed h

/-- A test that calls a method that is declared and one that is not, a method that nothing calls,
and a method that only this one and itself call. -/
def strayCalls : String :=
  "\x7btest: lambda do call :live; call :ghost end, methods: \x7blive: 1, " ++
    "idle: lambda do call :dead end, dead: lambda do call :dead end\x7d\x7d"

def straySites : List CallSite :=
  [⟨"connector#test", "live", ⟨some 1, some 17, some 10⟩⟩,
    ⟨"connector#test", "ghost", ⟨some 1, some 29, some 11⟩⟩,
    ⟨"method:idle", "dead", ⟨some 1, some 81, some 10⟩⟩,
    ⟨"method:dead", "dead", ⟨some 1, some 113, some 10⟩⟩]

def strayGraph : Graph where
  nodes := ⟨"connector#test", "connector#test", .lambda⟩ ::
    ["live", "ghost", "idle", "dead"].map fun name => ⟨methodId name, methodId name, .method⟩
  edges := [Survey.callEdge "connector#test" "method:live",
    Survey.callEdge "connector#test" "method:ghost", Survey.callEdge "method:idle" "method:dead",
    Survey.callEdge "method:dead" "method:dead"]

/-- One method is undefined, one is unused, and one is called by that one and by itself only. -/
theorem accountsFor_strayCalls :
    ∃ parsed, Parsed.ofSource strayCalls = .ok parsed ∧
      (ofSource strayCalls {}).stats.get? "suppressed_warnings" = some 0 ∧
      parsed.tree.callSites = straySites ∧
      (ofSource strayCalls {}).root.namesOf .method = ["live", "idle", "dead"] ∧
      some ⟨"connector#test", "ghost", ⟨some 1, some 29, some 11⟩⟩ ∈
        (Issue.withCode (ofSource strayCalls {}).issues "undefined_method").map Issue.callSite? ∧
      ((ofSource strayCalls {}).accused "unused_method").count (some "idle") = 1 ∧
      ((ofSource strayCalls {}).accused "unreachable_method").count (some "dead") = 1 ∧
      ¬(ofSource strayCalls {}).Reached "method:idle" := by
  have hfound : (Parsed.ofSource strayCalls).toOption.map (fun parsed =>
      let s := gathered parsed
      (s.entrypoints, s.methods, s.graph,
        countSeverity (parsed.tree.findings.flatMap Finding.issues) .warning,
        parsed.tree.callSites)) =
        some (["connector#test"], ["live", "idle", "dead"], strayGraph, 1, straySites) := by
    decide +kernel
  have hgroups : strayGraph.groups = [["method:live"], ["method:ghost"], ["connector#test"],
      ["method:dead"], ["method:idle"]] := by decide +kernel
  have hcycles : strayGraph.cycles = [["method:dead"]] := by
    rw [Graph.cycles, Graph.components, hgroups]
    cbv
  have hrows : strayGraph.adjacency = [("connector#test", ["method:live", "method:ghost"]),
      ("method:live", []), ("method:ghost", []), ("method:idle", ["method:dead"]),
      ("method:dead", ["method:dead"])] := by decide +kernel
  have hids : strayGraph.ids = ["connector#test", "method:live", "method:ghost", "method:idle",
      "method:dead"] := by decide +kernel
  have hseeds : (["connector#test"].filter strayGraph.contains).filter strayGraph.contains =
      ["connector#test"] := by decide +kernel
  have hreached : strayGraph.reachable (["connector#test"].filter strayGraph.contains) =
      ["connector#test", "method:live", "method:ghost"] := by
    rw [Graph.reachable, hrows, hids, hseeds]
    simp +decide [reach, Graph.Adjacency.next, List.lookup_cons]
  obtain ⟨parsed, hparse, hfound⟩ := exists_of_map_toOption hfound
  simp only [Prod.mk.injEq] at hfound
  obtain ⟨hentries, hmethods, hgraph, hwarnings, hsites⟩ := hfound
  have haudit : ofSource strayCalls {} = ofParsed parsed {} := ofSource_eq_ofParsed hparse
  have hreport :
      countSeverity (Report.issues (gathered parsed)) .warning = 2 := by
    rw [Report.countSeverity_issues, callSites_gathered, hmethods, hgraph, hsites, hcycles]
    decide
  have hkept : (ofSource strayCalls {}).stats.get? "suppressed_warnings" = some 0 := by
    rw [haudit, (get?_stats_ofParsed parsed {}).2]
    rw [raised, countSeverity, List.filter_append, List.length_append, ← countSeverity, hwarnings,
      ← countSeverity, hreport]
    rfl
  have hdeclared : (ofSource strayCalls {}).root.namesOf .method = ["live", "idle", "dead"] := by
    rw [haudit, namesOf_root_ofParsed, hmethods]
  have hnot : ∀ id, id ∉ ["connector#test", "method:live", "method:ghost"] →
      ¬(ofSource strayCalls {}).Reached id := by
    intro id hid hreach
    rw [haudit, ← mem_reachable_iff_reached, hentries, hgraph, hreached] at hreach
    exact hid hreach
  have hall := accountsFor_ofSource hparse hkept
  rw [hsites] at hall
  have hundefined := hall.mem_undefined_iff
    (some ⟨"connector#test", "ghost", ⟨some 1, some 29, some 11⟩⟩)
  have hunused := hall.unused "idle"
  have hunreachable := hall.unreachable "dead"
  rw [hdeclared] at hundefined hunused hunreachable
  have hidle : ¬Called straySites "idle" := fun h => absurd (called_iff.1 h) (by decide)
  have hdead : Called straySites "dead" := called_iff.2 (by decide)
  exact ⟨parsed, hparse, hkept, hsites, hdeclared, hundefined.2 ⟨_, by decide, by decide, rfl⟩,
    hunused.1 ⟨by decide, by decide, hidle⟩,
    hunreachable.1 ⟨by decide, hdead, hnot _ (by decide)⟩, hnot _ (by decide)⟩

end Audit

end ConnectorAudit
