import Mathlib.Logic.Relation
import ConnectorAudit.Proofs.Literals

/-!
# Scans

What holds of a scan at every step.  `ScanAt source tokens i r` says that the
tokens read so far are laid in the source up to the place `i`, where the reader
stands, and that they account for everything before it: a character there is
covered by a token, separates tokens, or belongs to the body of a heredoc.

* `ScanAt.step_token`, `ScanAt.step_fault`: a step keeps it, and goes on;
* `ScanAt.lossyFrom`, `ScanAt.tokensFrom`: so does a scan, which stops where no step is left;
* `Token.laid_scan`: the tokens of a source are laid in it.
-/

namespace ConnectorAudit

/-- The byte is part of one of the tokens. -/
def Covered (tokens : List Token) (byte : Nat) : Prop :=
  ∃ t ∈ tokens, t.offset ≤ byte ∧ byte < t.stop

/-- The character of index `x` is part of a token, separates tokens, or is part of the body of a
heredoc. -/
def AccountedAt (source : String) (tokens : List Token) (x : Nat) : Prop :=
  Covered tokens (byteAt source.toList x) ∨ Reader.Separates source.toList x ∨
    (Heredocs.ofTokens source tokens).Holds (byteAt source.toList x)

/-- A scan stands at the place `i`, with the tokens behind it. -/
structure ScanAt (source : String) (tokens : List Token) (i : Nat) (r : Reader) : Prop where
  reader : r.At source (Heredocs.ofTokens source tokens) i
  laid : Laid source 0 (byteAt source.toList i) tokens
  accounted : ∀ x, x < i → AccountedAt source tokens x

/-! ## one step -/

namespace Reader

/-- No step is left at the end of the text, and none behind the data marker. -/
theorem step_eq_done_iff {r : Reader} :
    r.step = .done ↔
      r.ended = true ∨ (r.skipTrivia).2.ended = true ∨ (r.skipTrivia).2.rest = [] := by
  unfold step
  by_cases hended : r.ended = true
  · simp [hended]
  · rw [if_neg hended]
    simp only [hended, ← List.isEmpty_iff, ← Bool.or_eq_true]
    split
    · next hdone => simp [hdone]
    · next hleft =>
      simp only [hleft]
      split <;> simp

/-- A step that reads a token. -/
theorem step_eq_token {r s : Reader} {t : Token} (h : r.step = .token t s) :
    r.ended = false ∧ ∃ gap u v, r.skipTrivia = (gap, u) ∧ u.rest ≠ [] ∧
      tokenAt interpolationLimit gap u = .ok (t, v) ∧ s = v.note t := by
  unfold step at h
  split at h
  · cases h
  · next hended =>
    simp only at h
    split at h
    · cases h
    · next hleft =>
      simp only [Bool.or_eq_true, List.isEmpty_iff, not_or] at hleft
      split at h
      · next t' v hread =>
        obtain ⟨rfl, rfl⟩ := Step.token.inj h
        exact ⟨Bool.not_eq_true _ ▸ hended, _, _, v, rfl, hleft.2, hread, rfl⟩
      · cases h

/-- A step over the first character of what cannot be read. -/
theorem step_eq_fault {r s : Reader} {f : Fault} {t : Token} (h : r.step = .fault f t s) :
    r.ended = false ∧ ∃ gap u ended, r.skipTrivia = (gap, u) ∧ u.rest ≠ [] ∧
      t = ({ u with ended }.stray gap).1 ∧ s = ({ u with ended }.stray gap).2.note t := by
  unfold step at h
  split at h
  · cases h
  · next hended =>
    simp only at h
    split at h
    · cases h
    · next hleft =>
      simp only [Bool.or_eq_true, List.isEmpty_iff, not_or] at hleft
      split at h
      · cases h
      · next failure hread =>
        obtain ⟨-, rfl, rfl⟩ := Step.fault.inj h
        exact ⟨Bool.not_eq_true _ ▸ hended, _, _, failure.ended, rfl, hleft.2, rfl, rfl⟩

/-- A step leads from the one reader to the other. -/
def Follows (r s : Reader) : Prop :=
  (∃ t, r.step = .token t s) ∨ ∃ f t, r.step = .fault f t s

end Reader

namespace ScanAt

variable {source : String} {tokens : List Token} {i : Nat} {r s : Reader}

/-- Nothing is read yet. -/
theorem start (source : String) : ScanAt source [] 0 (.ofCursor (.ofSource source)) where
  reader := .start source
  laid := .nil
  accounted x hx := by omega

/-- A token behind what separates it from those before. -/
theorem next (hscan : ScanAt source tokens i r) {gap : Gap} {t : Token} {u : Reader}
    (hskip : r.skipTrivia = (gap, u)) (hne : u.rest ≠ [])
    (hread : ∀ h p, u.At source h p → Reads source h p t s) :
    ∃ j, i < j ∧ ScanAt source (tokens ++ [t]) j s := by
  obtain ⟨p, hip, hu, -, hpassed, -⟩ := hscan.reader.skipTrivia_of_rest hskip hne
  have ht := hread _ p hu
  obtain ⟨j, hpj, hstop, hs, hlaid⟩ := ht.laid_append hscan.laid (Nat.zero_le _) hip
  refine ⟨j, by omega, hs, hlaid, fun x hx => ?_⟩
  have hheld : ∀ byte, (Heredocs.ofTokens source tokens).Holds byte →
      (Heredocs.ofTokens source (tokens ++ [t])).Holds byte := by
    intro byte hbyte
    rw [Heredocs.ofTokens, Heredocs.addAll_append]
    exact hbyte.addAll [t]
  by_cases hxi : x < i
  · cases hscan.accounted x hxi with
    | inl hcovered =>
      obtain ⟨t', ht', hin⟩ := hcovered
      exact .inl ⟨t', List.mem_append_left _ ht', hin⟩
    | inr hrest =>
      cases hrest with
      | inl hsep => exact .inr (.inl hsep)
      | inr hbody => exact .inr (.inr (hheld _ hbody))
  · by_cases hxp : x < p
    · cases hpassed x (by omega) hxp with
      | inl hsep => exact .inr (.inl hsep)
      | inr hbody => exact .inr (.inr (hheld _ hbody))
    · refine .inl ⟨t, List.mem_append_right _ (List.mem_singleton_self t), ?_, ?_⟩
      · rw [ht.offset_eq]
        exact byteAt_le (by omega)
      · rw [hstop]
        exact byteAt_lt hx hs.le_length

/-- A token more keeps the scan in place. -/
theorem step_token (hscan : ScanAt source tokens i r) {t : Token} (hstep : r.step = .token t s) :
    ∃ j, i < j ∧ ScanAt source (tokens ++ [t]) j s := by
  obtain ⟨-, gap, u, v, hskip, hne, hread, rfl⟩ := Reader.step_eq_token hstep
  refine hscan.next hskip hne fun h p hu => ?_
  have ht := tokenReads_tokenAt source interpolationLimit h p gap u t v hu hread
  obtain ⟨j, hpj, hstop, hv⟩ := ht.behind
  exact ⟨ht.placed, ht.offset_eq, j, hpj, hstop, hv.note t⟩

/-- A token with a fault keeps the scan in place. -/
theorem step_fault (hscan : ScanAt source tokens i r) {f : Fault} {t : Token}
    (hstep : r.step = .fault f t s) : ∃ j, i < j ∧ ScanAt source (tokens ++ [t]) j s := by
  obtain ⟨-, gap, u, ended, hskip, hne, rfl, rfl⟩ := Reader.step_eq_fault hstep
  refine hscan.next hskip hne fun h p hu => ?_
  have hu' : { u with ended }.At source h p := hu.congr rfl rfl
  have ht := hu'.stray hne gap
  obtain ⟨j, hpj, hstop, hv⟩ := ht.behind
  exact ⟨ht.placed, ht.offset_eq, j, hpj, hstop, hv.note _⟩

/-! ## whole scans -/

/-- A scan that notes its faults goes on to where no step is left. -/
theorem lossyFrom {tokens : List Token} (hscan : ScanAt source tokens.reverse i r)
    (faults : List Fault) :
    ∃ j s, ScanAt source (r.lossyFrom tokens faults).1 j s ∧ s.step = .done ∧
      Relation.ReflTransGen Reader.Follows r s := by
  fun_induction Reader.lossyFrom tokens faults r generalizing i with
  | case1 tokens faults r hdone => exact ⟨i, r, hscan, hdone, .refl⟩
  | case2 tokens faults r t s hstep _ ih =>
    obtain ⟨j, -, hs⟩ := hscan.step_token hstep
    obtain ⟨l, u, hu, hdone, hfollows⟩ := ih (List.reverse_cons ▸ hs)
    exact ⟨l, u, hu, hdone, .head (.inl ⟨t, hstep⟩) hfollows⟩
  | case3 tokens faults r t s hstep hleft =>
    obtain ⟨j, hij, hs⟩ := hscan.step_token hstep
    exact absurd (hscan.reader.left_lt hs.reader hij) hleft
  | case4 tokens faults r f t s hstep _ ih =>
    obtain ⟨j, -, hs⟩ := hscan.step_fault hstep
    obtain ⟨l, u, hu, hdone, hfollows⟩ := ih (List.reverse_cons ▸ hs)
    exact ⟨l, u, hu, hdone, .head (.inr ⟨f, t, hstep⟩) hfollows⟩
  | case5 tokens faults r f t s hstep hleft =>
    obtain ⟨j, hij, hs⟩ := hscan.step_fault hstep
    exact absurd (hscan.reader.left_lt hs.reader hij) hleft

/-- A scan that gives up at a fault goes on to where no step is left, if it meets none. -/
theorem tokensFrom {tokens result : List Token} (hscan : ScanAt source tokens.reverse i r)
    (hok : r.tokensFrom tokens = .ok result) :
    ∃ j s, ScanAt source result j s ∧ s.step = .done ∧
      Relation.ReflTransGen Reader.Follows r s := by
  fun_induction Reader.tokensFrom tokens r generalizing i with
  | case1 tokens r hdone =>
    obtain rfl := Except.ok.inj hok
    exact ⟨i, r, hscan, hdone, .refl⟩
  | case2 tokens r t s hstep _ ih =>
    obtain ⟨j, -, hs⟩ := hscan.step_token hstep
    obtain ⟨l, u, hu, hdone, hfollows⟩ := ih (List.reverse_cons ▸ hs) hok
    exact ⟨l, u, hu, hdone, .head (.inl ⟨t, hstep⟩) hfollows⟩
  | case3 tokens r t s hstep hleft =>
    obtain ⟨j, hij, hs⟩ := hscan.step_token hstep
    exact absurd (hscan.reader.left_lt hs.reader hij) hleft
  | case4 => cases hok

/-- The tokens of a scan are laid out in the source. -/
theorem laid_source (hscan : ScanAt source tokens i r) :
    Laid source 0 source.utf8ByteSize tokens := by
  refine hscan.laid.mono (Nat.le_refl 0) ?_
  rw [utf8ByteSize_eq, ← byteAt_length]
  exact byteAt_le hscan.reader.le_length

/-- A scan that skips faults ends, with its tokens in place. -/
theorem start_lossy (source : String) :
    ∃ j s, ScanAt source (Token.scanLossy source).1 j s ∧ s.step = .done ∧
      Relation.ReflTransGen Reader.Follows (.ofCursor (.ofSource source)) s := by
  have hstart : ScanAt source [].reverse 0 (.ofCursor (.ofSource source)) := .start source
  exact hstart.lossyFrom []

/-- A scan without faults ends, with its tokens in place. -/
theorem start_strict {tokens : List Token} (hok : Token.scan source = .ok tokens) :
    ∃ j s, ScanAt source tokens j s ∧ s.step = .done ∧
      Relation.ReflTransGen Reader.Follows (.ofCursor (.ofSource source)) s := by
  have hstart : ScanAt source [].reverse 0 (.ofCursor (.ofSource source)) := .start source
  exact hstart.tokensFrom hok

end ScanAt

namespace Token

/-- **Layout.** The tokens of every source are laid in it: each is a stretch of the text, at the
offset, line and column it says, they do not overlap, and so it is at every level of nesting. -/
theorem laid_scan (source : String) :
    Laid source 0 source.utf8ByteSize (scanLossy source).1 ∧
      ∀ tokens, scan source = .ok tokens → Laid source 0 source.utf8ByteSize tokens := by
  refine ⟨?_, fun tokens hok => ?_⟩
  · obtain ⟨j, s, hscan, -⟩ := ScanAt.start_lossy source
    exact hscan.laid_source
  · obtain ⟨j, s, hscan, -⟩ := ScanAt.start_strict hok
    exact hscan.laid_source

/-- A string that begins on the line of a heredoc's marker and ends behind its body. -/
def stringAcrossHeredoc : String := "f(<<A, \"é\nbody\nA\n#\x7bb\x7d\")"

theorem laid_stringAcrossHeredoc :
    ∃ tokens, scan stringAcrossHeredoc = .ok tokens ∧
      tokens.map text = ["f", "(", "<<A", ",", "\"é\nbody\nA\n#\x7bb\x7d\"", ")"] ∧
      Laid stringAcrossHeredoc 0 stringAcrossHeredoc.utf8ByteSize tokens := by
  have htexts : (scan stringAcrossHeredoc).toOption.map (List.map text) =
      some ["f", "(", "<<A", ",", "\"é\nbody\nA\n#\x7bb\x7d\"", ")"] := by
    decide +kernel
  obtain ⟨tokens, hscan, htexts⟩ := exists_of_map_toOption htexts
  exact ⟨tokens, hscan, htexts, (laid_scan stringAcrossHeredoc).2 tokens hscan⟩

end Token

end ConnectorAudit
