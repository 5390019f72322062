import ConnectorAudit.Proofs.Faithful

/-!
# The brackets of sources that parse

Where a source parses, its brackets need not be balanced: a bracket behind a call
operator is taken for the name of a method, the parameters of blocks and lambdas
are passed over with one count for all brackets, and the signature of a
definition with a count of parentheses alone.

* `Parsed.balanced_kept`: all other brackets are balanced, and so are all brackets of the source if
  those in each stretch that is passed over are.
-/

namespace ConnectorAudit

namespace Parsed

/-- **Brackets.** The tokens of a source that parses can be read so that the brackets among the
tokens kept are balanced; if those in every stretch passed over are as well, then all brackets of
the source are. -/
theorem balanced_kept (source : String) (parsed : Parsed) (h : ofSource source = .ok parsed) :
    ∃ tokens s, Token.scan source = .ok tokens ∧ Reading (Token.significant tokens) s ∧
      Balanced s.kept ∧ ((∀ ts ∈ s.passed, Balanced ts) → Balanced tokens) := by
  obtain ⟨tokens, s, hscan, -, hread, hkept, -⟩ := reading_ofSource h
  refine ⟨tokens, s, hscan, hread, hkept, fun hpassed => ?_⟩
  have hall : nest [] tokens = some [] := by
    rw [← Token.nest_significant, hread.nest_eq hpassed]
    exact hkept
  exact hall

/-- A signature, parameters and a name of a method, each with a bracket that has no partner. -/
def brokenBrackets : String := "def f[\n  lambda do |a = (]| g.) end\nend"

/-- The source parses although its brackets are not balanced, so that one of the stretches passed
over is not. -/
theorem balanced_kept_brokenBrackets :
    ∃ parsed tokens s, ofSource brokenBrackets = .ok parsed ∧
      Token.scan brokenBrackets = .ok tokens ∧ ¬Balanced tokens ∧
      Reading (Token.significant tokens) s ∧ Balanced s.kept ∧ ∃ ts ∈ s.passed, ¬Balanced ts := by
  have hbroken : (Token.scan brokenBrackets).toOption.map (fun ts => decide (Balanced ts)) =
      some false := by
    decide +kernel
  obtain ⟨parsed, hparse⟩ : ∃ parsed, ofSource brokenBrackets = .ok parsed :=
    exists_of_isOk (by decide +kernel)
  obtain ⟨tokens, s, hscan, hread, hkept, hall⟩ := balanced_kept brokenBrackets parsed hparse
  rw [hscan] at hbroken
  have hnot : ¬Balanced tokens := of_decide_eq_false (Option.some.inj hbroken)
  refine ⟨parsed, tokens, s, hparse, hscan, hnot, hread, hkept, ?_⟩
  by_contra hpassed
  push Not at hpassed
  exact hnot (hall hpassed)

end Parsed

end ConnectorAudit
