import ConnectorAudit.Proofs.Scans

/-!
# Traces

Both forms of a scan go through the same steps and differ in what they make of
them.  The *trace* of a reader is what its steps read, one token each, with the
fault beside it where the token stands for the first character of something that
cannot be read.

* `Reader.lossyFrom_eq`: a scan that notes its faults lists the tokens and the faults of the trace;
* `Reader.tokensFrom_eq`: one that gives up lists the tokens, or tells the first fault;
* `Token.scan_agrees`: hence how the two agree.
-/

namespace ConnectorAudit

namespace Reader

/-- What the steps from `r` on read, each token with the fault it stands for, if it does. -/
def trace (r : Reader) : List (Token × Option Fault) :=
  match r.step with
  | .done => []
  | .token t s => (t, none) :: if s.left < r.left then s.trace else []
  | .fault f t s => (t, some f) :: if s.left < r.left then s.trace else []
termination_by r.left

/-- A scan that notes its faults goes through the whole trace. -/
theorem lossyFrom_eq (tokens : List Token) (faults : List Fault) (r : Reader) :
    r.lossyFrom tokens faults =
      (tokens.reverse ++ r.trace.map Prod.fst, faults.reverse ++ r.trace.filterMap Prod.snd) := by
  fun_induction lossyFrom tokens faults r with
  | case1 tokens faults r hstep =>
    rw [trace, hstep]
    simp
  | case2 tokens faults r t s hstep hleft ih =>
    rw [trace, hstep, ih]
    simp [hleft]
  | case3 tokens faults r t s hstep hleft =>
    rw [trace, hstep]
    simp [hleft]
  | case4 tokens faults r f t s hstep hleft ih =>
    rw [trace, hstep, ih]
    simp [hleft]
  | case5 tokens faults r f t s hstep hleft =>
    rw [trace, hstep]
    simp [hleft]

/-- A scan that gives up at a fault stops at the first one of the trace. -/
theorem tokensFrom_eq (tokens : List Token) (r : Reader) :
    r.tokensFrom tokens =
      match (r.trace.filterMap Prod.snd).head? with
      | none => .ok (tokens.reverse ++ r.trace.map Prod.fst)
      | some f => .error f := by
  fun_induction tokensFrom tokens r with
  | case1 tokens r hstep =>
    rw [trace, hstep]
    simp
  | case2 tokens r t s hstep hleft ih =>
    rw [trace, hstep, ih]
    simp [hleft]
  | case3 tokens r t s hstep hleft =>
    rw [trace, hstep]
    simp [hleft]
  | case4 tokens r f t s hstep =>
    rw [trace, hstep]
    simp

end Reader

/-! ## where a trace comes from -/

namespace ScanAt

variable {source : String} {tokens : List Token} {i : Nat} {r s : Reader}

/-- A step that reads a token traces the token. -/
theorem trace_token (hscan : ScanAt source tokens i r) {t : Token} (hstep : r.step = .token t s) :
    r.trace = (t, none) :: s.trace := by
  obtain ⟨j, hij, hs⟩ := hscan.step_token hstep
  rw [Reader.trace, hstep]
  simp [hscan.reader.left_lt hs.reader hij]

/-- A step that meets a fault traces it with the token in its place. -/
theorem trace_fault (hscan : ScanAt source tokens i r) {f : Fault} {t : Token}
    (hstep : r.step = .fault f t s) : r.trace = (t, some f) :: s.trace := by
  obtain ⟨j, hij, hs⟩ := hscan.step_fault hstep
  rw [Reader.trace, hstep]
  simp [hscan.reader.left_lt hs.reader hij]

/-- The first item of a trace is what the next step reads, and the rest is read behind it. -/
theorem trace_cons (hscan : ScanAt source tokens i r) {e : Token × Option Fault}
    {rest : List (Token × Option Fault)} (htrace : r.trace = e :: rest) :
    ∃ j s, ScanAt source (tokens ++ [e.1]) j s ∧ s.trace = rest ∧
      (e.2 = none ∧ r.step = .token e.1 s ∨ ∃ f, e.2 = some f ∧ r.step = .fault f e.1 s) := by
  cases hstep : r.step with
  | done =>
    rw [Reader.trace, hstep] at htrace
    cases htrace
  | token t s =>
    obtain ⟨j, -, hs⟩ := hscan.step_token hstep
    rw [hscan.trace_token hstep] at htrace
    obtain ⟨rfl, rfl⟩ := List.cons.inj htrace
    exact ⟨j, s, hs, rfl, .inl ⟨rfl, rfl⟩⟩
  | fault f t s =>
    obtain ⟨j, -, hs⟩ := hscan.step_fault hstep
    rw [hscan.trace_fault hstep] at htrace
    obtain ⟨rfl, rfl⟩ := List.cons.inj htrace
    exact ⟨j, s, hs, rfl, .inr ⟨f, rfl, rfl⟩⟩

/-- Wherever a trace is cut, a scan stands there and reads the rest. -/
theorem trace_append (hscan : ScanAt source tokens i r) {front rest : List (Token × Option Fault)}
    (htrace : r.trace = front ++ rest) :
    ∃ j s, ScanAt source (tokens ++ front.map Prod.fst) j s ∧ s.trace = rest ∧
      Relation.ReflTransGen Reader.Follows r s := by
  induction front generalizing tokens i r with
  | nil => exact ⟨i, r, by simpa using hscan, htrace, .refl⟩
  | cons e front ih =>
    obtain ⟨j, s, hs, hrest, hstep⟩ := hscan.trace_cons htrace
    obtain ⟨k, u, hu, hrest', hfollows⟩ := ih hs hrest
    refine ⟨k, u, by simpa using hu, hrest', .head ?_ hfollows⟩
    cases hstep with
    | inl hstep => exact .inl ⟨_, hstep.2⟩
    | inr hstep =>
      obtain ⟨f, -, hstep⟩ := hstep
      exact .inr ⟨f, _, hstep⟩

/-- What stands for something that cannot be read is one character, and ends no line. -/
theorem stray_of_fault (hscan : ScanAt source tokens i r) {f : Fault} {t : Token}
    (hstep : r.step = .fault f t s) : t.kind = .other ∧ ∃ c, t.text = String.singleton c := by
  obtain ⟨-, gap, u, ended, hskip, hne, rfl, -⟩ := Reader.step_eq_fault hstep
  obtain ⟨p, -, hu, -, -, hnot, -⟩ := hscan.reader.skipTrivia_of_rest hskip hne
  have hlt := hu.lt_length hne
  have hat : { u with ended }.At source (Heredocs.ofTokens source tokens) p := hu.congr rfl rfl
  obtain ⟨v, hbump⟩ := hat.exists_bump (List.getElem?_eq_getElem hlt)
  obtain ⟨hc, -, j, -, hv, hj, -⟩ := hat.bump hbump
  -- A line end would have been passed as a separator.
  have hfeed : source.toList[p] ≠ '\n' := by
    intro hfeed
    exact hnot (.inl ⟨_, hc, by rw [hfeed]; rfl⟩)
  obtain rfl := hj hfeed
  unfold Reader.stray
  rw [hbump]
  refine ⟨rfl, source.toList[p], ?_⟩
  change (u.cursor.textTo v.cursor) = _
  rw [hu.cursor_eq, hv.cursor_eq, Cursor.textTo_place (Nat.le_add_right p 1),
    Nat.add_sub_cancel_left, List.drop_eq_getElem_cons hlt, List.take_succ_cons, List.take_zero]
  rfl

end ScanAt

namespace Token

def trace (source : String) : List (Token × Option Fault) :=
  (Reader.ofCursor (.ofSource source)).trace

/-- A scan that skips faults gives the tokens and the faults of the trace. -/
theorem scanLossy_eq (source : String) :
    scanLossy source = ((trace source).map Prod.fst, (trace source).filterMap Prod.snd) := by
  rw [scanLossy, scanLossyFrom, Reader.lossyFrom_eq]
  rfl

/-- A scan gives the tokens of the trace, or the first of its faults. -/
theorem scan_eq (source : String) :
    scan source =
      match ((trace source).filterMap Prod.snd).head? with
      | none => .ok ((trace source).map Prod.fst)
      | some f => .error f := by
  rw [scan, Reader.tokensFrom_eq]
  rfl

/-- The fault of an item of a trace, with the token that stands for it. -/
def stray? (e : Token × Option Fault) : Option (Fault × Token) := e.2.map fun f => (f, e.1)

theorem map_fst_strays (l : List (Token × Option Fault)) :
    (l.filterMap stray?).map Prod.fst = l.filterMap Prod.snd := by
  rw [List.map_filterMap]
  refine List.filterMap_congr fun e _ => ?_
  simp [stray?, Function.comp_def]

theorem map_snd_strays_sublist (l : List (Token × Option Fault)) :
    ((l.filterMap stray?).map Prod.snd).Sublist (l.map Prod.fst) := by
  induction l with
  | nil => exact .slnil
  | cons e l ih =>
    obtain ⟨t, f⟩ := e
    cases f with
    | none => exact ih.cons t
    | some f => exact ih.cons_cons t

/-- A step of the scan of the source meets the fault, and puts the token for it. -/
def Refused (source : String) (f : Fault) (t : Token) : Prop :=
  ∃ r s, Relation.ReflTransGen Reader.Follows (.ofCursor (.ofSource source)) r ∧
    r.step = .fault f t s

/-- What a fault stands in for was refused, and is a single character. -/
theorem refused_of_mem_trace {source : String} {t : Token} {f : Fault}
    (h : (t, some f) ∈ trace source) :
    Refused source f t ∧ t.kind = .other ∧ ∃ c, t.text = String.singleton c := by
  obtain ⟨front, rest, htrace⟩ := List.append_of_mem h
  obtain ⟨i, r, hscan, hrest, hfollows⟩ := (ScanAt.start source).trace_append htrace
  obtain ⟨j, s, -, -, hstep⟩ := hscan.trace_cons hrest
  cases hstep with
  | inl hstep => cases hstep.1
  | inr hstep =>
    obtain ⟨f', hf, hstep⟩ := hstep
    obtain rfl := Option.some.inj hf
    exact ⟨⟨r, s, hfollows, hstep⟩, hscan.stray_of_fault hstep⟩

/-- **Agreement.** A source can be cut into tokens exactly if no fault is noted in it, and then the
two scans give the same tokens; the fault at which the one gives up is the first that the other
notes.  Each fault noted is met at a token of its own, in order, and that token is a single stray
character. -/
theorem scan_agrees (source : String) :
    (∀ tokens, scan source = .ok tokens ↔ scanLossy source = (tokens, [])) ∧
      (∀ fault, scan source = .error fault ↔ ∃ faults, (scanLossy source).2 = fault :: faults) ∧
      ∃ strays : List (Fault × Token), strays.map Prod.fst = (scanLossy source).2 ∧
        (strays.map Prod.snd).Sublist (scanLossy source).1 ∧
        ∀ stray ∈ strays, Refused source stray.1 stray.2 ∧ stray.2.kind = .other ∧
          ∃ c, stray.2.text = String.singleton c := by
  rw [scan_eq, scanLossy_eq]
  refine ⟨fun tokens => ?_, fun fault => ?_, ?_⟩
  · cases hfaults : (trace source).filterMap Prod.snd with
    | nil => simp
    | cons f faults => simp
  · cases hfaults : (trace source).filterMap Prod.snd with
    | nil => simp
    | cons f faults => simp
  · refine ⟨_, map_fst_strays _, map_snd_strays_sublist _, fun m hm => ?_⟩
    obtain ⟨⟨t, f?⟩, he, hstray⟩ := List.mem_filterMap.1 hm
    obtain ⟨f, hf, rfl⟩ := Option.map_eq_some_iff.1 hstray
    obtain rfl : f? = some f := hf
    exact refused_of_mem_trace he

end Token

end ConnectorAudit
