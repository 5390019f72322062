import ConnectorAudit.Audit

/-!
# Runs of a log

A log takes in issues one at a time or in batches, and goes by a counter of the
warnings it has.  What it comes to can be told from the issues alone: each issue has
a number, and lost are the warnings that have as many warnings before them as the cap
allows.  `IssueLog.kept` says the same by recursion on the issues.

* `IssueLog.toList_append`, `IssueLog.suppressed_append`: what a log keeps of issues and how many it
  suppresses;
* `IssueLog.kept_kept`: a smaller cap keeps of what a larger one has kept what it keeps of all;
* `IssueLog.Counted.push`, `IssueLog.counted_append`: the counter is what it should be, and never
  exceeds the cap;
* `IssueLog.ofChanges_eq_ofIssues`: it does not matter how issues are batched;
* `IssueLog.keeps_ofChanges`: hence what a log has kept and lost, whatever was done to it.
-/

namespace ConnectorAudit

open Audit (countSeverity)

/-! ## what a log keeps -/

namespace IssueLog

/-- The issues without the warnings behind the first `cap` ones. -/
def kept : (cap : Nat) → List Issue → List Issue
  | _, [] => []
  | cap, i :: issues =>
    if i.severity = .warning then
      match cap with
      | 0 => kept 0 issues
      | cap + 1 => i :: kept cap issues
    else i :: kept cap issues

section Kept

variable {i : Issue} {issues : List Issue}

/-- Past the cap no warning is kept. -/
theorem kept_zero_of_warning (h : i.severity = .warning) :
    kept 0 (i :: issues) = kept 0 issues := by
  simp [kept, h]

/-- Below the cap a warning is kept, and fewer may follow. -/
theorem kept_succ_of_warning (h : i.severity = .warning) (cap : Nat) :
    kept (cap + 1) (i :: issues) = i :: kept cap issues := by
  simp [kept, h]

/-- What is no warning is kept, whatever the cap. -/
theorem kept_of_not_warning (h : i.severity ≠ .warning) (cap : Nat) :
    kept cap (i :: issues) = i :: kept cap issues := by
  simp [kept, h]

theorem countSeverity_cons (i : Issue) (issues : List Issue) (s : Severity) :
    countSeverity (i :: issues) s = countSeverity issues s + if i.severity = s then 1 else 0 := by
  unfold countSeverity
  rw [List.filter_cons]
  by_cases h : i.severity = s <;> simp [h]

/-- Of the warnings as many are kept as the cap allows. -/
theorem countSeverity_kept_warning (cap : Nat) (issues : List Issue) :
    countSeverity (kept cap issues) .warning = min cap (countSeverity issues .warning) := by
  induction issues generalizing cap with
  | nil => simp [kept, countSeverity]
  | cons i issues ih =>
    by_cases h : i.severity = .warning
    · cases cap with
      | zero => rw [kept_zero_of_warning h, ih, Nat.zero_min, Nat.zero_min]
      | succ cap =>
        rw [kept_succ_of_warning h, countSeverity_cons, countSeverity_cons, if_pos h, ih]
        omega
    · rw [kept_of_not_warning h, countSeverity_cons, countSeverity_cons, if_neg h, ih, Nat.add_zero,
        Nat.add_zero]

/-- All that is no warning is kept. -/
theorem countSeverity_kept_of_ne {s : Severity} (hs : s ≠ .warning) (cap : Nat)
    (issues : List Issue) : countSeverity (kept cap issues) s = countSeverity issues s := by
  induction issues generalizing cap with
  | nil => rfl
  | cons i issues ih =>
    by_cases h : i.severity = .warning
    · have hne : i.severity ≠ s := fun heq => hs (heq.symm.trans h)
      cases cap with
      | zero => rw [kept_zero_of_warning h, ih, countSeverity_cons, if_neg hne, Nat.add_zero]
      | succ cap => rw [kept_succ_of_warning h, countSeverity_cons, countSeverity_cons, ih]
    · rw [kept_of_not_warning h, countSeverity_cons, countSeverity_cons, ih]

/-- A smaller cap finds among what a larger one has kept all that it keeps itself. -/
theorem kept_kept {c d : Nat} (h : c ≤ d) (issues : List Issue) :
    kept c (kept d issues) = kept c issues := by
  induction issues generalizing c d with
  | nil => rfl
  | cons i issues ih =>
    by_cases hi : i.severity = .warning
    · cases d with
      | zero =>
        obtain rfl := Nat.le_zero.1 h
        rw [kept_zero_of_warning hi, ih h]
      | succ d =>
        rw [kept_succ_of_warning hi]
        cases c with
        | zero => rw [kept_zero_of_warning hi, kept_zero_of_warning hi, ih (Nat.zero_le d)]
        | succ c =>
          rw [kept_succ_of_warning hi, kept_succ_of_warning hi, ih (Nat.le_of_succ_le_succ h)]
    · rw [kept_of_not_warning hi, kept_of_not_warning hi, kept_of_not_warning hi, ih h]

/-- What is kept comes in the order in which it was raised. -/
theorem kept_sublist (cap : Nat) (issues : List Issue) : (kept cap issues).Sublist issues := by
  induction issues generalizing cap with
  | nil => exact .slnil
  | cons i issues ih =>
    by_cases hi : i.severity = .warning
    · cases cap with
      | zero =>
        rw [kept_zero_of_warning hi]
        exact (ih 0).cons i
      | succ cap =>
        rw [kept_succ_of_warning hi]
        exact (ih cap).cons_cons i
    · rw [kept_of_not_warning hi]
      exact (ih cap).cons_cons i

/-- A cap that the warnings do not exceed keeps all issues. -/
theorem kept_of_le {cap : Nat} (h : countSeverity issues .warning ≤ cap) :
    kept cap issues = issues := by
  induction issues generalizing cap with
  | nil => rfl
  | cons i issues ih =>
    rw [countSeverity_cons] at h
    by_cases hi : i.severity = .warning
    · rw [if_pos hi] at h
      obtain ⟨cap, rfl⟩ : ∃ c, cap = c + 1 := Nat.exists_eq_add_one.2 (by omega)
      rw [kept_succ_of_warning hi, ih (by omega)]
    · rw [kept_of_not_warning hi, ih (by omega)]

end Kept

/-! ## runs of a log -/

/-- A log keeps of issues what its cap leaves room for, behind those it has. -/
theorem toList_append (log : IssueLog) (issues : List Issue) :
    (log.append issues).issues.toList =
      log.issues.toList ++ kept (log.cap - log.warnings) issues := by
  induction issues generalizing log with
  | nil => simp [append, kept]
  | cons i issues ih =>
    have hrun : log.append (i :: issues) = (log.push i).append issues := rfl
    rw [hrun, ih, push]
    by_cases hi : i.severity = .warning
    · rw [if_pos hi]
      by_cases hfull : log.cap ≤ log.warnings
      · rw [if_pos hfull, Nat.sub_eq_zero_of_le hfull, kept_zero_of_warning hi]
      · have hroom : log.cap - log.warnings = log.cap - (log.warnings + 1) + 1 := by omega
        rw [if_neg hfull, hroom, kept_succ_of_warning hi]
        simp
    · rw [if_neg hi, kept_of_not_warning hi]
      simp

/-- A log suppresses the warnings that it has no room for. -/
theorem suppressed_append (log : IssueLog) (issues : List Issue) :
    (log.append issues).suppressed =
      log.suppressed + (countSeverity issues .warning - (log.cap - log.warnings)) := by
  induction issues generalizing log with
  | nil => simp [append, countSeverity]
  | cons i issues ih =>
    have hrun : log.append (i :: issues) = (log.push i).append issues := rfl
    rw [hrun, ih, push, countSeverity_cons]
    by_cases hi : i.severity = .warning
    · rw [if_pos hi, if_pos hi]
      by_cases hfull : log.cap ≤ log.warnings
      · rw [if_pos hfull]
        simp only
        omega
      · rw [if_neg hfull]
        simp only
        omega
    · rw [if_neg hi, if_neg hi, Nat.add_zero]

/-- The log of a list of issues. -/
def ofIssues (cap : Nat) (issues : List Issue) : IssueLog := { cap : IssueLog }.append issues

/-- A log keeps what the cap lets it keep. -/
theorem toList_ofIssues (cap : Nat) (issues : List Issue) :
    (ofIssues cap issues).issues.toList = kept cap issues := by
  rw [ofIssues, toList_append]
  simp

/-- Below the cap a log keeps everything. -/
theorem issues_ofIssues {cap : Nat} {issues : List Issue}
    (h : countSeverity issues .warning ≤ cap) : (ofIssues cap issues).issues.toList = issues := by
  rw [toList_ofIssues, kept_of_le h]

/-- A log counts the warnings that are too many. -/
theorem suppressed_ofIssues (cap : Nat) (issues : List Issue) :
    (ofIssues cap issues).suppressed = countSeverity issues .warning - cap := by
  rw [ofIssues, suppressed_append]
  simp

/-! ## what is done to a log -/

/-- Something that is done to a log. -/
inductive Change where
  | push (i : Issue)
  | append (issues : List Issue)

/-- The issues that a change brings, in order. -/
def Change.issues : Change → List Issue
  | push i => [i]
  | append issues => issues

/-- The log after a change. -/
def apply (log : IssueLog) : Change → IssueLog
  | .push i => log.push i
  | .append issues => log.append issues

/-- The log that changes make of an empty one, one after the other. -/
def ofChanges (cap : Nat) (changes : List Change) : IssueLog := changes.foldl apply { cap }

/-- The issue and its number are those of a warning with at least `cap` warnings before it. -/
def isBeyond (cap : Nat) (issues : List Issue) (numbered : Issue × Nat) : Bool :=
  numbered.1.severity == .warning &&
    decide (cap ≤ countSeverity (issues.take numbered.2) .warning)

/-- The log is what the issues come to under the cap. -/
structure Keeps (cap : Nat) (issues : List Issue) (log : IssueLog) : Prop where
  /-- The issues are kept in order, without the warnings beyond the cap. -/
  issues_eq : log.issues.toList =
    (issues.zipIdx.filter fun numbered => !isBeyond cap issues numbered).map Prod.fst
  /-- The warnings beyond the cap are counted. -/
  suppressed_eq : log.suppressed = (issues.zipIdx.filter (isBeyond cap issues)).length
  /-- Nothing but warnings is ever lost. -/
  others_eq : (log.issues.toList.filter fun i => i.severity != .warning) =
    issues.filter fun i => i.severity != .warning
  /-- Every issue is kept or counted. -/
  size_add_suppressed : log.issues.size + log.suppressed = issues.length
  /-- The counter is the number of warnings kept. -/
  warnings_eq : log.warnings = countSeverity log.issues.toList .warning
  warnings_le : log.warnings ≤ cap

/-! ## the counter -/

/-- The counter is the number of warnings kept, and within the cap. -/
structure Counted (log : IssueLog) : Prop where
  warnings_eq : log.warnings = countSeverity log.issues.toList .warning
  warnings_le : log.warnings ≤ log.cap

theorem cap_push (log : IssueLog) (i : Issue) : (log.push i).cap = log.cap := by
  unfold push
  split
  · split <;> rfl
  · rfl

theorem countSeverity_concat (issues : List Issue) (i : Issue) (s : Severity) :
    countSeverity (issues ++ [i]) s =
      countSeverity issues s + if i.severity = s then 1 else 0 := by
  unfold countSeverity
  by_cases h : i.severity = s <;> simp [List.filter_append, h]

/-- An issue more keeps the counts right. -/
theorem Counted.push {log : IssueLog} (h : log.Counted) (i : Issue) : (log.push i).Counted := by
  have heq := h.warnings_eq
  have hle := h.warnings_le
  unfold IssueLog.push
  split
  · next hwarning =>
    split
    · exact ⟨heq, hle⟩
    · next hroom =>
      refine ⟨?_, ?_⟩
      · simp only [Array.toList_push, countSeverity_concat, if_pos hwarning, heq]
      · simp only
        omega
  · next hother =>
    refine ⟨?_, hle⟩
    simp only [Array.toList_push, countSeverity_concat, if_neg hother, Nat.add_zero, heq]

/-- Issues keep the counts right, and the cap as it is. -/
theorem counted_append {log : IssueLog} (h : log.Counted) (issues : List Issue) :
    (log.append issues).Counted ∧ (log.append issues).cap = log.cap := by
  induction issues generalizing log with
  | nil => exact ⟨h, rfl⟩
  | cons i issues ih =>
    obtain ⟨hcounted, hcap⟩ := ih (h.push i)
    exact ⟨hcounted, hcap.trans (log.cap_push i)⟩

/-! ## batches -/

/-- A change of a log appends its issues. -/
theorem apply_eq_append (log : IssueLog) (change : Change) :
    log.apply change = log.append change.issues := by
  cases change <;> rfl

/-- Issues are appended one list after the other. -/
theorem append_append (log : IssueLog) (xs ys : List Issue) :
    (log.append xs).append ys = log.append (xs ++ ys) := by
  simp only [append, List.foldl_append]

/-- A log of two lists is that of the first, with the second appended. -/
theorem ofIssues_append (cap : Nat) (xs ys : List Issue) :
    ofIssues cap (xs ++ ys) = (ofIssues cap xs).append ys :=
  (append_append ..).symm

/-- It does not matter how issues are batched. -/
theorem ofChanges_eq_ofIssues (cap : Nat) (changes : List Change) :
    ofChanges cap changes = ofIssues cap (changes.flatMap Change.issues) := by
  have hrun : ∀ log : IssueLog,
      changes.foldl apply log = log.append (changes.flatMap Change.issues) := by
    induction changes with
    | nil => exact fun _ => rfl
    | cons change changes ih =>
      intro log
      rw [List.foldl_cons, ih, apply_eq_append, append_append, List.flatMap_cons]
  exact hrun { cap }

/-! ## numbers -/

/-- What is kept, told by the numbers of the issues. -/
theorem kept_eq_filter (cap : Nat) (issues : List Issue) :
    kept cap issues =
      (issues.zipIdx.filter fun numbered => !isBeyond cap issues numbered).map Prod.fst := by
  -- The induction goes through the issues behind a front that grows.
  suffices h : ∀ front, issues = front ++ issues.drop front.length →
      kept (cap - countSeverity front .warning) (issues.drop front.length) =
        (((issues.drop front.length).zipIdx front.length).filter fun numbered =>
          !isBeyond cap issues numbered).map Prod.fst by
    simpa [countSeverity] using h []
  intro front hfront
  generalize issues.drop front.length = rest at hfront
  induction rest generalizing front with
  | nil => rfl
  | cons i rest ih =>
    have htake : issues.take front.length = front := by rw [hfront, List.take_left]
    have hrest := ih (front ++ [i]) (by rw [hfront, List.append_assoc]; rfl)
    rw [List.length_append, List.length_singleton, countSeverity_concat] at hrest
    rw [List.zipIdx_cons]
    by_cases hi : i.severity = .warning
    · rw [if_pos hi] at hrest
      by_cases hroom : cap ≤ countSeverity front .warning
      · have hbeyond : isBeyond cap issues (i, front.length) = true := by
          simp [isBeyond, hi, htake, hroom]
        rw [List.filter_cons_of_neg (by simp [hbeyond]), ← hrest, Nat.sub_eq_zero_of_le hroom,
          Nat.sub_eq_zero_of_le (Nat.le_succ_of_le hroom), kept_zero_of_warning hi]
      · have hbeyond : isBeyond cap issues (i, front.length) = false := by
          simp [isBeyond, hi, htake, Nat.lt_of_not_le hroom]
        have hcap : cap - countSeverity front .warning =
            cap - (countSeverity front .warning + 1) + 1 := by omega
        rw [List.filter_cons_of_pos (by simp [hbeyond]), List.map_cons, ← hrest, hcap,
          kept_succ_of_warning hi]
    · rw [if_neg hi, Nat.add_zero] at hrest
      have hbeyond : isBeyond cap issues (i, front.length) = false := by
        simp [isBeyond, hi]
      rw [List.filter_cons_of_pos (by simp [hbeyond]), List.map_cons, ← hrest,
        kept_of_not_warning hi]

/-- What is kept and what is suppressed is all that was raised. -/
theorem length_kept_add (cap : Nat) (issues : List Issue) :
    (kept cap issues).length + (countSeverity issues .warning - cap) = issues.length := by
  induction issues generalizing cap with
  | nil => simp [kept, countSeverity]
  | cons i issues ih =>
    rw [countSeverity_cons, List.length_cons]
    by_cases hi : i.severity = .warning
    · rw [if_pos hi]
      cases cap with
      | zero =>
        rw [kept_zero_of_warning hi, ← ih 0]
        omega
      | succ cap =>
        rw [kept_succ_of_warning hi, List.length_cons, ← ih cap]
        omega
    · rw [if_neg hi, kept_of_not_warning hi, List.length_cons, ← ih cap]
      omega

/-- All but warnings are kept. -/
theorem filter_kept (cap : Nat) (issues : List Issue) :
    ((kept cap issues).filter fun i => i.severity != .warning) =
      issues.filter fun i => i.severity != .warning := by
  induction issues generalizing cap with
  | nil => rfl
  | cons i issues ih =>
    by_cases hi : i.severity = .warning
    · rw [List.filter_cons_of_neg (by simp [hi])]
      cases cap with
      | zero => rw [kept_zero_of_warning hi, ih]
      | succ cap => rw [kept_succ_of_warning hi, List.filter_cons_of_neg (by simp [hi]), ih]
    · rw [kept_of_not_warning hi, List.filter_cons_of_pos (by simp [hi]),
        List.filter_cons_of_pos (by simp [hi]), ih]

/-- As many issues are beyond the cap as are not kept. -/
theorem length_filter_isBeyond (cap : Nat) (issues : List Issue) :
    (issues.zipIdx.filter (isBeyond cap issues)).length = countSeverity issues .warning - cap := by
  have hkept := length_kept_add cap issues
  rw [kept_eq_filter, List.length_map, ← List.countP_eq_length_filter] at hkept
  have hall := issues.zipIdx.length_eq_countP_add_countP (isBeyond cap issues)
  rw [List.length_zipIdx] at hall
  simp only [Bool.not_eq_true, Bool.decide_eq_false] at hall
  rw [← List.countP_eq_length_filter]
  omega

/-! ## whole runs -/

/-- **Capped logs.** Whatever was done to a new log, its issues are all that it was given, in order,
without the warnings that have as many warnings before them as the cap allows; these are counted
as suppressed.  So only warnings are lost, and nothing goes uncounted. -/
theorem keeps_ofChanges (cap : Nat) (changes : List Change) :
    Keeps cap (changes.flatMap Change.issues) (ofChanges cap changes) := by
  rw [ofChanges_eq_ofIssues]
  generalize changes.flatMap Change.issues = issues
  have hnew : ({ cap } : IssueLog).Counted := ⟨rfl, Nat.zero_le cap⟩
  obtain ⟨hcounted, hcap⟩ := counted_append hnew issues
  have hlist := toList_ofIssues cap issues
  have hsuppressed := suppressed_ofIssues cap issues
  exact {
    issues_eq := by rw [hlist, kept_eq_filter]
    suppressed_eq := by rw [hsuppressed, length_filter_isBeyond]
    others_eq := by rw [hlist, filter_kept]
    size_add_suppressed := by
      rw [← Array.length_toList, hlist, hsuppressed, length_kept_add]
    warnings_eq := hcounted.warnings_eq
    warnings_le := Nat.le_trans hcounted.warnings_le (Nat.le_of_eq hcap) }

/-- Of three warnings, a note and an error under a cap of two, the last warning is lost. -/
example :
    let log := ofChanges 2 [
      .append [.warning "a" "first", .info "b" "kept", .warning "c" "second"],
      .push (.warning "d" "dropped"), .push (.error "e" "kept")]
    log.issues.toList.map Issue.code = ["a", "b", "c", "e"] ∧ log.suppressed = 1 := by
  decide

end IssueLog

end ConnectorAudit
