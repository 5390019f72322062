import ConnectorAudit.Proofs.Findings
import ConnectorAudit.Proofs.Results

/-!
# What the settings of an audit change

Every issue of an audit goes through one log, which keeps warnings up to a cap
and counts those beyond it.  No pass reads the log, so that the same issues are
raised under every cap (`Audit.ofParsed_eq`), and a smaller cap keeps of them what it
would keep of those that a larger one keeps (`IssueLog.kept_kept`).

`Audit.ofSource_settings` says what another cap changes in an audit, and what other
limits on the paths do.
-/

namespace ConnectorAudit

open Audit (countSeverity)

/-! ## audits -/

namespace Audit

/-- The counts of an audit: those of its issues and of its graph, over those it is given. -/
theorem get?_stats_assemble (root : Outline) (issues : List Issue) (graph : Graph)
    (stats : Table Nat) (salvaged : Bool) (report : Report) (key : String) :
    (assemble root issues graph stats salvaged report).stats.get? key =
      if key = "graph_edges" then some graph.edges.length
      else if key = "graph_nodes" then some graph.nodes.length
      else if key = "issues_error" then some (countSeverity issues .error)
      else if key = "issues_warning" then some (countSeverity issues .warning)
      else if key = "issues_info" then some (countSeverity issues .info)
      else stats.get? key := by
  simp only [assemble, List.foldl_cons, List.foldl_nil, Table.get?_insert]
  rfl

/-- The audit `few` is the audit `many` with no more than `cap` warnings: those behind are taken out
of the issues and counted as suppressed, and nothing else is different. -/
structure Caps (cap : Nat) (few many : Audit) : Prop where
  root_eq : few.root = many.root
  graph_eq : few.graph = many.graph
  salvaged_eq : few.salvaged = many.salvaged
  report_eq : few.report = many.report
  issues_eq : few.issues = IssueLog.kept cap many.issues
  /-- Warnings kept and warnings suppressed add up to the same number. -/
  warnings : ∃ kept suppressed kept' suppressed',
    few.stats.get? "issues_warning" = some kept ∧
      few.stats.get? "suppressed_warnings" = some suppressed ∧
      many.stats.get? "issues_warning" = some kept' ∧
      many.stats.get? "suppressed_warnings" = some suppressed' ∧
      kept + suppressed = kept' + suppressed'
  stats_eq : ∀ key, key ≠ "issues_warning" → key ≠ "suppressed_warnings" →
    few.stats.get? key = many.stats.get? key

/-- The warnings that the audit of a parsed source keeps, and those it suppresses. -/
theorem get?_stats_ofParsed (parsed : Parsed) (settings : Settings) :
    (ofParsed parsed settings).stats.get? "issues_warning" =
        some (min settings.maxWarnings (countSeverity (raised parsed) .warning)) ∧
      (ofParsed parsed settings).stats.get? "suppressed_warnings" =
        some (countSeverity (raised parsed) .warning - settings.maxWarnings) := by
  simp [ofParsed_eq, get?_stats_assemble, IssueLog.toList_ofIssues,
    IssueLog.countSeverity_kept_warning, IssueLog.suppressed_ofIssues, Table.get?_insert]

/-- The audits of a parsed source with two caps differ in the warnings that they keep only. -/
theorem caps_ofParsed (parsed : Parsed) (settings : Settings) {c d : Nat} (h : c ≤ d) :
    Caps c (ofParsed parsed { settings with maxWarnings := c })
      (ofParsed parsed { settings with maxWarnings := d }) where
  root_eq := by rw [ofParsed_eq, ofParsed_eq]; rfl
  graph_eq := by rw [ofParsed_eq, ofParsed_eq]; rfl
  salvaged_eq := by rw [ofParsed_eq, ofParsed_eq]; rfl
  report_eq := by rw [ofParsed_eq, ofParsed_eq]; rfl
  issues_eq := by
    simp only [ofParsed_eq, assemble, IssueLog.toList_ofIssues, IssueLog.kept_kept h]
  warnings := by
    obtain ⟨hkept, hsuppressed⟩ := get?_stats_ofParsed parsed { settings with maxWarnings := c }
    obtain ⟨hkept', hsuppressed'⟩ := get?_stats_ofParsed parsed { settings with maxWarnings := d }
    refine ⟨_, _, _, _, hkept, hsuppressed, hkept', hsuppressed', ?_⟩
    simp only
    omega
  stats_eq key hwarning hsuppressed := by
    have hinfo : Severity.info ≠ .warning := by decide
    have herror : Severity.error ≠ .warning := by decide
    simp only [ofParsed_eq, get?_stats_assemble, IssueLog.toList_ofIssues, Table.get?_insert,
      IssueLog.countSeverity_kept_of_ne hinfo, IssueLog.countSeverity_kept_of_ne herror, hwarning,
      hsuppressed, if_false]

/-- A source that does not parse has one issue, which is no warning. -/
theorem caps_ofFailure (source : String) (failure : ParseFailure) (settings : Settings)
    (c d : Nat) :
    Caps c (ofFailure source failure { settings with maxWarnings := c })
      (ofFailure source failure { settings with maxWarnings := d }) where
  root_eq := rfl
  graph_eq := rfl
  salvaged_eq := rfl
  report_eq := rfl
  issues_eq := by
    have hsyntax :
        (syntaxIssue failure (Fragments.ofSource source).faults).severity ≠ .warning := by
      simp [syntaxIssue, Issue.error, Issue.located, Issue.aboutAll]
    simp only [ofFailure, assemble, IssueLog.kept_of_not_warning hsyntax, IssueLog.kept]
  warnings := ⟨_, _, _, _, rfl, rfl, rfl, rfl, rfl⟩
  stats_eq _ _ _ := rfl

/-- The audit without what its paths amount to. -/
def withoutComplexity (audit : Audit) : Audit :=
  { audit with report := { audit.report with complexity := .empty } }

/-- **Settings.** A smaller cap on the warnings takes the warnings beyond it out of the issues and
counts them as suppressed; limits on the paths show in what the paths amount to.  Nothing else in
the audit of any source depends on either. -/
theorem ofSource_settings (source : String) (settings : Settings) :
    (∀ c d, c ≤ d →
      Caps c (ofSource source { settings with maxWarnings := c })
        (ofSource source { settings with maxWarnings := d })) ∧
      ∀ limits limits' : PathLimits,
        (ofSource source { settings with limits }).withoutComplexity =
          (ofSource source { settings with limits := limits' }).withoutComplexity := by
  unfold ofSource
  cases Parsed.ofSource source with
  | error failure =>
    exact ⟨fun c d _ => caps_ofFailure source failure settings c d, fun _ _ => rfl⟩
  | ok parsed =>
    refine ⟨fun c d h => caps_ofParsed parsed settings h, fun limits limits' => ?_⟩
    simp only [withoutComplexity, ofParsed_eq, assemble, Report.ofSurvey]

/-- Three actions that lack all keys that an action must have. -/
def bareActions : String :=
  "\x7b title: 'x', actions: \x7b a: \x7b\x7d, b: \x7b\x7d, c: \x7b\x7d \x7d \x7d"

/-- Under a cap of one, one of the three warnings that a cap of three keeps is kept. -/
theorem ofSource_settings_bareActions :
    1 ≤ 3 ∧ Caps 1 (ofSource bareActions { maxWarnings := 1 })
        (ofSource bareActions { maxWarnings := 3 }) ∧
      (ofSource bareActions { maxWarnings := 1 }).stats.get? "issues_warning" = some 1 ∧
      (ofSource bareActions { maxWarnings := 3 }).stats.get? "issues_warning" = some 3 := by
  refine ⟨by decide, (ofSource_settings bareActions {}).1 1 3 (by decide), ?_⟩
  have hfound : (Parsed.ofSource bareActions).toOption.map (fun parsed =>
      countSeverity (parsed.tree.findings.flatMap Finding.issues) .warning) = some 3 := by
    decide +kernel
  obtain ⟨parsed, hparse, hfound⟩ := exists_of_map_toOption hfound
  rw [ofSource, ofSource, hparse]
  simp only
  rw [(get?_stats_ofParsed parsed _).1, (get?_stats_ofParsed parsed _).1]
  rw [raised, countSeverity, List.filter_append, List.length_append, ← countSeverity, hfound]
  constructor <;> simp only [Option.some.injEq] <;> omega

end Audit

end ConnectorAudit
