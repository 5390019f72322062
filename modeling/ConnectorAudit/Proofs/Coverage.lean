import ConnectorAudit.Proofs.Scans

/-!
# What a scan leaves out

A scan may pass over separators, over the bodies of heredocs whose markers it
has read, and over the data behind the data marker.  Whether it drops anything
else hangs on one thing.  An attempt at a literal that is undone gives back all
that it has changed, but for the flag that says that the data was reached; if
the attempt reached the data from inside a literal that nothing closes, the scan
stops behind the first character of that literal.

* `accounted_scan_iff`: a scan accounts for the whole source exactly if, wherever it stops by
  that flag, nothing but separators was left to read before the data;
* `not_accounted_abandonedRegex`: a slash that was first taken for a regex, behind which a comment
  is dropped.
-/

namespace ConnectorAudit

/-- The text from the place `p` on is data: `__END__` at the beginning of a line, and a line end
or nothing behind it. -/
def DataFrom (cs : List Char) (p : Nat) : Prop :=
  (p = 0 ∨ cs[p - 1]? = some '\n') ∧ ∃ rest, cs.drop p = "__END__".toList ++ rest ∧
    (rest = [] ∨ rest.head? = some '\n' ∨ rest.head? = some '\r')

/-- Nothing of the source is dropped.  Up to a place `p` every character is part of a token, or
separates tokens, or is part of the body of a heredoc whose marker is among the tokens; `p` is the
end of the source or the beginning of its data, behind all tokens and outside of all bodies. -/
def Accounted (source : String) (tokens : List Token) : Prop :=
  ∃ p, (p = source.toList.length ∨ DataFrom source.toList p ∧
      ¬(Heredocs.ofTokens source tokens).Holds (byteAt source.toList p)) ∧
    (∀ t ∈ tokens, t.stop ≤ byteAt source.toList p) ∧
    ∀ x, x < p → AccountedAt source tokens x

/-- Wherever the scan of the source stops because the flag for the end of data is set, it would
have stopped without the flag as well. -/
def EndsByData (source : String) : Prop :=
  ∀ r, Relation.ReflTransGen Reader.Follows (.ofCursor (.ofSource source)) r → r.ended = true →
    { r with ended := false }.step = .done

/-! ## the data marker -/

/-- The marker for data is seen where the source has it. -/
theorem atDataMarker_place_iff {cs : List Char} {p : Nat} (hp : p ≤ cs.length) :
    Reader.atDataMarker (.place cs p) = true ↔ DataFrom cs p := by
  have hstart : (Cursor.place cs p).atLineStart = true ↔ p = 0 ∨ cs[p - 1]? = some '\n' := by
    rw [Cursor.atLineStart_place_iff, List.getLast?_take]
    by_cases hzero : p = 0
    · simp [hzero]
    · have hlast : cs[p - 1]?.or cs.getLast? = cs[p - 1]? := by
        rw [List.getElem?_eq_getElem (by omega), Option.some_or]
      have hne : cs ≠ [] := by
        rintro rfl
        exact hzero (Nat.le_zero.1 hp)
      simp [hzero, hlast, hne]
  unfold Reader.atDataMarker DataFrom
  rw [Bool.and_eq_true, Bool.and_eq_true, hstart, Cursor.startsWith, List.isPrefixOf_iff_prefix,
    Cursor.rest_place, and_assoc]
  refine and_congr_right fun _ => ⟨?_, ?_⟩
  · rintro ⟨⟨rest, hrest⟩, hend⟩
    have hdrop : (cs.drop p).drop 7 = rest := by
      rw [← hrest]
      rfl
    rw [hdrop] at hend
    refine ⟨rest, hrest.symm, ?_⟩
    cases rest with
    | nil => exact .inl rfl
    | cons c rest => simpa using hend
  · rintro ⟨rest, hrest, hend⟩
    have hdrop : (cs.drop p).drop 7 = rest := by
      rw [hrest]
      rfl
    refine ⟨⟨rest, hrest.symm⟩, ?_⟩
    rw [hdrop]
    cases rest with
    | nil => rfl
    | cons c rest => simpa using hend

/-- Data begins with a character that separates nothing. -/
theorem DataFrom.not_separates {cs : List Char} {p : Nat} (h : DataFrom cs p) :
    ¬Reader.Separates cs p := by
  obtain ⟨-, rest, hrest, -⟩ := h
  have hhead : cs[p]? = some '_' := by
    rw [← List.head?_drop, hrest]
    rfl
  simp [Reader.Separates, hhead, Reader.isSeparator]

/-! ## where a scan stops -/

namespace Reader

/-- There is at most one reader behind another. -/
theorem follows_rightUnique : Relator.RightUnique Follows := by
  intro r s s' hs hs'
  cases hs with
  | inl hs =>
    obtain ⟨t, hs⟩ := hs
    cases hs' with
    | inl hs' =>
      obtain ⟨t', hs'⟩ := hs'
      exact (Step.token.inj (hs.symm.trans hs')).2
    | inr hs' =>
      obtain ⟨f, t', hs'⟩ := hs'
      cases hs.symm.trans hs'
  | inr hs =>
    obtain ⟨f, t, hs⟩ := hs
    cases hs' with
    | inl hs' =>
      obtain ⟨t', hs'⟩ := hs'
      cases hs.symm.trans hs'
    | inr hs' =>
      obtain ⟨f', t', hs'⟩ := hs'
      exact (Step.fault.inj (hs.symm.trans hs')).2.2

/-- There is no reader behind one that is done. -/
theorem not_follows_of_done {r s : Reader} (h : r.step = .done) : ¬Follows r s := by
  intro hs
  cases hs with
  | inl hs =>
    obtain ⟨t, hs⟩ := hs
    cases h.symm.trans hs
  | inr hs =>
    obtain ⟨f, t, hs⟩ := hs
    cases h.symm.trans hs

/-- A scan stops at one place only. -/
theorem eq_of_done {r s s' : Reader} (hs : Relation.ReflTransGen Follows r s)
    (hs' : Relation.ReflTransGen Follows r s') (hdone : s.step = .done) (hdone' : s'.step = .done) :
    s = s' := by
  cases Relation.ReflTransGen.total_of_right_unique follows_rightUnique hs hs' with
  | inl hle =>
    cases Relation.ReflTransGen.cases_head hle with
    | inl heq => exact heq
    | inr hstep =>
      obtain ⟨u, hu, -⟩ := hstep
      exact absurd hu (not_follows_of_done hdone)
  | inr hle =>
    cases Relation.ReflTransGen.cases_head hle with
    | inl heq => exact heq.symm
    | inr hstep =>
      obtain ⟨u, hu, -⟩ := hstep
      exact absurd hu (not_follows_of_done hdone')

end Reader

namespace ScanAt

variable {source : String} {tokens : List Token} {i : Nat} {r : Reader}

/-- The place of a scan does not depend on whether the data was met. -/
theorem congr (hscan : ScanAt source tokens i r) (ended : Bool) :
    ScanAt source tokens i { r with ended } :=
  ⟨hscan.reader.congr rfl rfl, hscan.laid, hscan.accounted⟩

/-- All that stands before a place to which only separators and bodies were passed. -/
theorem accounted_of_passed (hscan : ScanAt source tokens i r) {p : Nat}
    (hpassed : ∀ x, i ≤ x → x < p → Reader.Separates source.toList x ∨
      (Heredocs.ofTokens source tokens).Holds (byteAt source.toList x)) :
    ∀ x, x < p → AccountedAt source tokens x := by
  intro x hx
  by_cases hxi : x < i
  · exact hscan.accounted x hxi
  · exact .inr (hpassed x (Nat.le_of_not_lt hxi) hx)

/-- A scan that stops without the flag has accounted for all. -/
theorem accounted_of_done (hscan : ScanAt source tokens i r) (hended : r.ended = false)
    (hdone : r.step = .done) : Accounted source tokens := by
  rw [Reader.step_eq_done_iff, hended] at hdone
  obtain ⟨p, s, hip, hs, hkept, hpassed, hstop⟩ := hscan.reader.skipTrivia {}
  have hle : byteAt source.toList i ≤ byteAt source.toList p := byteAt_le hip
  refine ⟨p, ?_, fun t ht => Nat.le_trans (hscan.laid.within t ht).2 hle,
    hscan.accounted_of_passed hpassed⟩
  cases hstop with
  | inl hstop =>
    rw [hstop.1, hkept, hended, hs.rest_eq, List.drop_eq_nil_iff] at hdone
    have hlen := hs.le_length
    simp only [Bool.false_eq_true, false_or] at hdone
    exact .inl (by omega)
  | inr hstop => exact .inr ⟨(atDataMarker_place_iff hs.le_length).1 hstop.2, hs.not_holds⟩

/-- If all is accounted for, nothing was left to read but separators and data. -/
theorem done_of_accounted (hscan : ScanAt source tokens i r) (hacc : Accounted source tokens) :
    { r with ended := false }.step = .done := by
  rw [Reader.step_eq_done_iff]
  by_contra hleft
  simp only [not_or] at hleft
  obtain ⟨p, hip, hs, -, hpassed, hnot, hmark⟩ :=
    (hscan.congr false).reader.skipTrivia_of_rest rfl hleft.2.2
  have hlt := hs.lt_length hleft.2.2
  obtain ⟨q, hq, hstops, haccq⟩ := hacc
  have huncovered : ∀ x, i ≤ x → ¬Covered tokens (byteAt source.toList x) := by
    rintro x hx ⟨t, ht, hin⟩
    have hle : byteAt source.toList i ≤ byteAt source.toList x := byteAt_le hx
    have hstop := (hscan.laid.within t ht).2
    omega
  by_cases hpq : p < q
  · -- The first character left would be dropped.
    cases haccq p hpq with
    | inl hcovered => exact huncovered p hip hcovered
    | inr hrest =>
      cases hrest with
      | inl hsep => exact hnot hsep
      | inr hbody => exact hs.not_holds hbody
  · cases hq with
    | inl hend => omega
    | inr hdata =>
      obtain ⟨hdata, houtside⟩ := hdata
      have hqp : q < p := by
        by_contra hge
        obtain rfl : q = p := by omega
        rw [(atDataMarker_place_iff hs.le_length).2 hdata] at hmark
        cases hmark
      -- The data would begin at a character that was read or passed as something else.
      cases hscan.accounted_of_passed hpassed q hqp with
      | inl hcovered =>
        obtain ⟨t, ht, hin⟩ := hcovered
        have hstop := hstops t ht
        omega
      | inr hrest =>
        cases hrest with
        | inl hsep => exact hdata.not_separates hsep
        | inr hbody => exact houtside hbody

/-- A source is accounted for to its end unless it ends by data. -/
theorem accounted_iff (hscan : ScanAt source tokens i r) (hdone : r.step = .done)
    (hreached : Relation.ReflTransGen Reader.Follows (.ofCursor (.ofSource source)) r) :
    Accounted source tokens ↔ EndsByData source := by
  constructor
  · intro hacc s hs hended
    have hdone' : s.step = .done := Reader.step_eq_done_iff.2 (.inl hended)
    obtain rfl := Reader.eq_of_done hreached hs hdone hdone'
    exact hscan.done_of_accounted hacc
  · intro hends
    refine (hscan.congr false).accounted_of_done rfl ?_
    cases hended : r.ended with
    | true => exact hends r hreached hended
    | false =>
      rw [← hended]
      exact hdone

end ScanAt

namespace Token

/-- **Coverage.** A scan, with or without faults, drops nothing of its source exactly if the flag
for the end of data never stops it before the data. -/
theorem accounted_scan_iff (source : String) :
    (Accounted source (scanLossy source).1 ↔ EndsByData source) ∧
      ∀ tokens, scan source = .ok tokens → (Accounted source tokens ↔ EndsByData source) := by
  refine ⟨?_, fun tokens hok => ?_⟩
  · obtain ⟨j, s, hscan, hdone, hreached⟩ := ScanAt.start_lossy source
    exact hscan.accounted_iff hdone hreached
  · obtain ⟨j, s, hscan, hdone, hreached⟩ := ScanAt.start_strict hok
    exact hscan.accounted_iff hdone hreached

/-- A slash that may open a regex, in front of code that nothing closes before the data. -/
def abandonedRegex : String := "f /a#\x7b\n__END__\n"

/-- Behind the slash a name and a comment are dropped, without any fault. -/
theorem not_accounted_abandonedRegex :
    ∃ tokens, scan abandonedRegex = .ok tokens ∧ tokens.map text = ["f", "/"] ∧
      ¬Accounted abandonedRegex tokens := by
  have htexts : (scan abandonedRegex).toOption.map (List.map text) = some ["f", "/"] := by
    decide +kernel
  have hflag : (match (Reader.ofCursor (.ofSource abandonedRegex)).step with
      | .token _ r =>
        match r.step with
        | .token _ s =>
          match { s with ended := false }.step with
          | .token .. => s.ended
          | _ => false
        | _ => false
      | _ => false) = true := by
    decide +kernel
  have hnot : ¬EndsByData abandonedRegex := by
    intro hends
    split at hflag
    · next r hr =>
      split at hflag
      · next s hs =>
        have hreached : Relation.ReflTransGen Reader.Follows
            (.ofCursor (.ofSource abandonedRegex)) s :=
          .tail (.single (.inl ⟨_, hr⟩)) (.inl ⟨_, hs⟩)
        split at hflag
        · next hstep => cases (hends s hreached hflag).symm.trans hstep
        · cases hflag
      · cases hflag
    · cases hflag
  obtain ⟨tokens, hscan, htexts⟩ := exists_of_map_toOption htexts
  refine ⟨tokens, hscan, htexts, ?_⟩
  rw [(accounted_scan_iff abandonedRegex).2 tokens hscan]
  exact hnot

end Token

end ConnectorAudit
