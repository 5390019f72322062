import ConnectorAudit.Proofs.Caps
import ConnectorAudit.Proofs.Codes
import ConnectorAudit.Proofs.Faithful

/-!
# The commands that an audit reports

The warnings about command literals come from the tree of a source, so they are
those of the commands that its parse has left.

* `Tree.filter_isCommand_findings`: of all that is found in a source, only its command literals are
  reported as such;
* `Audit.commandIssues_ofSource`: the commands reported are all commands of the source, each once,
  but for those in the stretches that the parse leaves out.
-/

namespace ConnectorAudit

/-! ## command literals -/

namespace Issue

/-- The issue reports a command literal. -/
def isCommand (i : Issue) : Bool := i.code == "dangerous_xstr"

/-- The issue of the command literal that stands at `span`. -/
def ofCommand (span : Span) : Issue :=
  (warning "dangerous_xstr" "Command substitution literal").located span.location

end Issue

/-! ## findings and reports -/

/-- Of all that is found in a source, only its command literals are reported as such. -/
theorem Tree.filter_isCommand_findings (program : Tree) :
    (program.findings.flatMap Finding.issues).filter Issue.isCommand =
      (commandSpans [program]).map Issue.ofCommand := by
  have hprogram : program.commandIssues = (commandSpans [program]).map Issue.ofCommand := by
    simp [commandIssues, commandSpans, preorderAll, Issue.ofCommand, commandIssue]
  have hall : program.commandIssues.filter Issue.isCommand = program.commandIssues := by
    rw [hprogram, List.filter_eq_self]
    intro i hi
    obtain ⟨span, -, rfl⟩ := List.mem_map.1 hi
    rfl
  have hrest : ∃ rest, program.findings = program.commandIssues.map .issue ++ rest ∧
      (rest.filterMap Finding.issue?).filter Issue.isCommand = [] := by
    refine ⟨_, rfl, ?_⟩
    cases program.document? with
    | none =>
      exact (CodedIn.issue List.mem_cons_self : CodedIn ["no_connector_hash"] _).withCode_eq_nil
        (by decide)
    | some document => exact (CodedIn.ofDocument document).withCode_eq_nil (by decide)
  obtain ⟨rest, hfindings, hquiet⟩ := hrest
  have hfound : (program.findings.flatMap Finding.issues).filter Issue.isCommand =
      (program.findings.filterMap Finding.issue?).filter Issue.isCommand :=
    Finding.withCode_flatMap_issues (by decide) program.findings
  rw [hfound, hfindings, List.filterMap_append, List.filter_append, Finding.filterMap_issue?, hall,
    hquiet, List.append_nil, hprogram]

/-- A report has no command literals to report. -/
theorem Report.filter_issues (s : Survey) : (Report.issues s).filter Issue.isCommand = [] := by
  rw [List.filter_eq_nil_iff]
  intro i hi
  simp only [Report.issues, undefinedMethods, unusedMethods, cycleIssues, unreachableMethods,
    List.mem_append, List.mem_map] at hi
  rcases hi with ((⟨_, -, rfl⟩ | ⟨_, -, rfl⟩) | ⟨_, -, rfl⟩) | ⟨_, -, rfl⟩ <;>
    simp [Issue.isCommand]

/-- Where no method is declared or called and no callable is there, nothing is reported. -/
theorem Report.issues_eq_nil {s : Survey} (hmethods : s.methods = []) (hsites : s.callSites = [])
    (hgraph : s.graph = {}) : Report.issues s = [] := by
  have hcycles : s.graph.cycles = [] := by
    rw [hgraph]
    decide +kernel
  have hmethods' : sortedDistinct s.methods = [] := by
    rw [hmethods, sortedDistinct, List.mergeSort_nil]
    rfl
  simp [Report.issues, hsites, hcycles, undefinedMethods, unusedMethods, cycleIssues,
    unreachableMethods, hmethods']

/-! ## audits -/

namespace Audit

/-- Below the cap an audit keeps every issue that is raised. -/
theorem issues_ofParsed {parsed : Parsed} {settings : Settings}
    (h : countSeverity (raised parsed) .warning ≤ settings.maxWarnings) :
    (ofParsed parsed settings).issues = raised parsed := by
  rw [ofParsed_eq]
  exact IssueLog.issues_ofIssues h

/-- The raised issues about commands are those of the commands in the tree, in their order. -/
theorem filter_raised (parsed : Parsed) :
    (raised parsed).filter Issue.isCommand =
      (Tree.commandSpans [parsed.tree]).map Issue.ofCommand := by
  rw [raised, List.filter_append, Report.filter_issues, List.append_nil]
  exact parsed.tree.filter_isCommand_findings

/-- **Command literals.** Where no warning is suppressed, the commands that the audit of a source
reports are those that a reading of its tokens leaves, in order and each once; with the commands in
the stretches left out they are all commands of the source, at every depth.  So all are reported
exactly if no stretch left out holds one. -/
theorem commandIssues_ofSource (source : String) (settings : Settings) (parsed : Parsed)
    (h : Parsed.ofSource source = .ok parsed)
    (hcap : countSeverity (raised parsed) .warning ≤ settings.maxWarnings) :
    ∃ tokens s, Token.scan source = .ok tokens ∧ Reading (Token.significant tokens) s ∧
      (ofSource source settings).issues.filter Issue.isCommand =
        s.commands.map (fun t => Issue.ofCommand t.span) ∧
      s.commands.Sublist (Token.commands tokens) ∧
      (s.commands ++ s.lost.flatMap Token.commands).Perm (Token.commands tokens) ∧
      (((ofSource source settings).issues.filter Issue.isCommand).length =
          (Token.commands tokens).length ↔ ∀ ts ∈ s.lost, Token.commands ts = []) := by
  obtain ⟨tokens, s, hscan, hformed, hread, -, hspans⟩ := Parsed.reading_ofSource h
  have hissues : (ofSource source settings).issues.filter Issue.isCommand =
      s.commands.map (fun t => Issue.ofCommand t.span) := by
    rw [ofSource, h]
    rw [issues_ofParsed hcap, filter_raised, ← hspans, List.map_map]
    rfl
  have hsub : s.commands.Sublist (Token.commands tokens) :=
    Token.commands_significant hformed ▸ hread.commands_sublist
  have hperm : (s.commands ++ s.lost.flatMap Token.commands).Perm (Token.commands tokens) :=
    Token.commands_significant hformed ▸
      hread.commands_perm fun t ht => hformed t (List.mem_of_mem_filter ht)
  refine ⟨tokens, s, hscan, hread, hissues, hsub, hperm, ?_⟩
  rw [hissues, List.length_map, ← hperm.length_eq, List.length_append]
  rw [← List.flatMap_eq_nil_iff, ← List.length_eq_zero_iff]
  omega

/-- Commands before a block, among its parameters, in its body, in a signature and in a string. -/
def hiddenCommands : String :=
  "lambda(`a`) do |b = `c`| `d` end\ndef f(e = `g`)\n  \"#\x7b`h`\x7d\"\nend"

/-- Of five commands, the audit reports the one in the body and the one in the string. -/
theorem commandIssues_hiddenCommands :
    ∃ parsed tokens s, Parsed.ofSource hiddenCommands = .ok parsed ∧
      countSeverity (raised parsed) .warning = 3 ∧
      Token.scan hiddenCommands = .ok tokens ∧ Reading (Token.significant tokens) s ∧
      (Token.commands tokens).map Token.text = ["`a`", "`c`", "`d`", "`g`", "`h`"] ∧
      (ofSource hiddenCommands { maxWarnings := 3 }).issues.filter Issue.isCommand =
        [.ofCommand ⟨25, 3, 1, 25⟩, .ofCommand ⟨53, 3, 3, 5⟩] ∧
      s.commands.length = 2 ∧ (s.lost.flatMap Token.commands).length = 3 := by
  have hsurvey : (Parsed.ofSource hiddenCommands).toOption.map (fun parsed =>
      let s := gathered parsed
      (countSeverity (parsed.tree.findings.flatMap Finding.issues) .warning, s.methods,
        s.callSites, s.graph, Tree.commandSpans [parsed.tree])) =
        some (3, [], [], {}, [⟨25, 3, 1, 25⟩, ⟨53, 3, 3, 5⟩]) := by
    decide +kernel
  have htexts : (Token.scan hiddenCommands).toOption.map
      (fun tokens => (Token.commands tokens).map Token.text) =
        some ["`a`", "`c`", "`d`", "`g`", "`h`"] := by
    decide +kernel
  obtain ⟨parsed, hparse, hsurvey⟩ := exists_of_map_toOption hsurvey
  simp only [Prod.mk.injEq] at hsurvey
  obtain ⟨hwarnings, hmethods, hsites, hgraph, hspans⟩ := hsurvey
  have hraised : countSeverity (raised parsed) .warning = 3 := by
    rw [raised, Report.issues_eq_nil hmethods hsites hgraph,
      List.append_nil]
    exact hwarnings
  have hcap : countSeverity (raised parsed) .warning ≤ 3 := Nat.le_of_eq hraised
  obtain ⟨tokens, s, hscan, hread, hreported, -, hperm, -⟩ :=
    commandIssues_ofSource hiddenCommands { maxWarnings := 3 } parsed hparse hcap
  have hissues : (ofSource hiddenCommands { maxWarnings := 3 }).issues.filter Issue.isCommand =
      [.ofCommand ⟨25, 3, 1, 25⟩, .ofCommand ⟨53, 3, 3, 5⟩] := by
    rw [ofSource, hparse]
    rw [issues_ofParsed hcap, filter_raised, hspans]
    rfl
  rw [hscan] at htexts
  have htexts : (Token.commands tokens).map Token.text = ["`a`", "`c`", "`d`", "`g`", "`h`"] :=
    Option.some.inj htexts
  have hleft : s.commands.length = 2 := by
    rw [← List.length_map fun t => Issue.ofCommand t.span, ← hreported, hissues]
    rfl
  refine ⟨parsed, tokens, s, hparse, hraised, hscan, hread, htexts, hissues, hleft, ?_⟩
  have htotal : (Token.commands tokens).length = 5 := by
    simpa using congrArg List.length htexts
  have hall := hperm.length_eq
  rw [List.length_append] at hall
  omega

end Audit

end ConnectorAudit
