import ConnectorAudit.Proofs.Documents
import ConnectorAudit.Proofs.Faithful

/-!
# Sections that are left unclosed

A document whose actions lack their closing brace, so that the triggers stand inside
of them.  It does not parse, since its braces are not balanced; but what is found in
it by its layout keeps the two sections apart, whatever their entries are called.

* `Unclosed.exists_error`: the document does not parse;
* `Unclosed.lookAll_entry`, `Unclosed.lookAll_entries`: the pass over the tokens takes no notice of
  an entry, and so of none of them;
* `Unclosed.entriesFrom_entry`, `Unclosed.map_name_entriesFrom`: a section has an entry, and so all
  of them, up to what ends it;
* `Unclosed.names_ofSource`: the audit tells the names of both sections.
-/

namespace ConnectorAudit

/-- The names in the outline of a source that does not parse. -/
theorem Audit.namesOf_root_ofFailure (source : String) (failure : ParseFailure)
    (settings : Settings) :
    let root := (Audit.ofFailure source failure settings).root
    root.namesOf .action = (Fragments.ofSource source).actions.map Fragment.name ∧
      root.namesOf .trigger = (Fragments.ofSource source).triggers.map Fragment.name := by
  intro root
  let found := Fragments.ofSource source
  have hroot : ∀ kind, kind ≠ .connector → root.namesOf kind =
      (Audit.fragmentOutline found .actions .actions .action found.actions).namesOf kind ++
        ((Audit.fragmentOutline found .triggers .triggers .trigger found.triggers).namesOf kind ++
          (Audit.fragmentOutline found .methods .methods .method found.methods).namesOf kind) := by
    intro kind hkind
    have hne : root.kind ≠ kind := fun h => hkind h.symm
    rw [Outline.namesOf, Outline.descendants_eq, if_neg hne]
    simp [root, Audit.ofFailure, Audit.assemble, Outline.withText, Outline.withTexts,
      Outline.descendantsAll, Outline.namesOf, found]
  have hsection : ∀ (s : Section) (group part : Outline.Kind) (entries : List Fragment) kind,
      group ≠ kind → (Audit.fragmentOutline found s group part entries).namesOf kind =
        if part = kind then entries.map Fragment.name else [] :=
    fun s group part entries kind hne =>
      Outline.namesOf_entries rfl (fun e => ⟨rfl, rfl, rfl⟩) hne
  constructor <;> simp [hroot, hsection, found]

namespace Unclosed

open Datum (Name Anywhere)
open Fragments (entryKey? entriesFrom lookAll)
open Spelling (textOf tokens)

/-! ## the document -/

def entryLine (name : Name) : String := "    " ++ name.text ++ ": \x7b\x7d,"

def lines (actions triggers : List Name) : List String :=
  ["\x7b", "  actions: \x7b"] ++ actions.map entryLine ++ ["  triggers: \x7b"] ++
    triggers.map entryLine ++ ["  \x7d", "\x7d"]

/-- The document: a line feed stands behind every line. -/
def source (actions triggers : List Name) : String :=
  String.join ((lines actions triggers).map (· ++ "\n"))

/-- The first line of a section, behind the line feed before it. -/
def header (s : Section) : List Spelling := [.key (.indented 2) s.key, .opening .spaced]

/-- An entry, behind the line feed before it. -/
def entry (name : Name) : List Spelling :=
  [.key (.indented 4) name.text, .opening .spaced, .closing .tight, .mark .tight ","]

def entries (names : List Name) : List Spelling := names.flatMap entry

/-- A section that is not closed. -/
def opened (s : Section) (names : List Name) : List Spelling := header s ++ entries names

def closings : List Spelling := [.closing (.indented 2), .closing .newLine]

/-- The document, spelled. -/
def spellings (actions triggers : List Name) : List Spelling :=
  .opening .tight :: (opened .actions actions ++ (opened .triggers triggers ++ closings))

/-- Line feeds behind lines are line feeds before them. -/
theorem cons_toList_join (ls : List String) :
    '\n' :: (String.join (ls.map (· ++ "\n"))).toList =
      (ls.flatMap fun line => '\n' :: line.toList) ++ ['\n'] := by
  rw [String.toList_join]
  induction ls with
  | nil => rfl
  | cons line ls ih => simp [ih]

theorem textOf_header (s : Section) :
    textOf (header s) = '\n' :: ("  " ++ s.key ++ ": \x7b").toList := by
  simp [header, Spelling.chars, Spelling.key, Spelling.opening, Lead.chars, List.replicate]

theorem textOf_entries (names : List Name) :
    textOf (entries names) = (names.map entryLine).flatMap fun line => '\n' :: line.toList := by
  induction names with
  | nil => rfl
  | cons name names ih =>
    rw [entries, List.flatMap_cons, Spelling.textOf_append, ← entries, ih]
    simp [entry, entryLine, Spelling.chars, Spelling.key, Spelling.opening, Spelling.closing,
      Spelling.mark, Lead.chars, List.replicate]

/-- A source is the text of its spellings and a line feed. -/
theorem toList_source (actions triggers : List Name) :
    (source actions triggers).toList = textOf (spellings actions triggers) ++ ['\n'] := by
  have hrest : '\n' :: (String.join (((lines actions triggers).drop 1).map (· ++ "\n"))).toList =
      textOf ((spellings actions triggers).drop 1) ++ ['\n'] := by
    rw [cons_toList_join]
    simp [lines, spellings, opened, closings, textOf_header, textOf_entries, Section.key,
      Spelling.chars, Spelling.closing, Lead.chars, List.replicate]
  have hsource : (source actions triggers).toList =
      '{' :: '\n' :: (String.join (((lines actions triggers).drop 1).map (· ++ "\n"))).toList := by
    simp [source, lines]
  rw [hsource, hrest]
  rfl

/-! ## the scan -/

theorem anywhere_entry (name : Name) (after : List Char) : Anywhere (entry name) after := by
  rw [entry, ← List.singleton_append]
  refine .append (Datum.anywhere_key name _) ?_
  rw [← List.singleton_append]
  refine .append (Datum.anywhere_brace (.inl rfl) _) ?_
  rw [← List.singleton_append]
  exact .append (Datum.anywhere_brace (.inr rfl) _) (Datum.anywhere_comma after)

theorem anywhere_entries (names : List Name) (after : List Char) :
    Anywhere (entries names) after := by
  induction names with
  | nil => exact fun _ m => ⟨m, .nil⟩
  | cons name names ih =>
    rw [entries, List.flatMap_cons]
    exact .append (anywhere_entry name _) ih

theorem anywhere_opened (s : Section) (names : List Name) (after : List Char) :
    Anywhere (opened s names) after := by
  refine .append ?_ (anywhere_entries names after)
  rw [header, ← List.singleton_append]
  exact .append (Datum.anywhere_key (.ofSection s) _) (Datum.anywhere_brace (.inl rfl) _)

theorem anywhere_closings (after : List Char) : Anywhere closings after := by
  rw [closings, ← List.singleton_append]
  exact .append (Datum.anywhere_brace (.inr rfl) _) (Datum.anywhere_brace (.inr rfl) after)

/-- The spellings of a source are read from its beginning. -/
theorem exists_spelled (actions triggers : List Name) :
    ∃ n, Reader.Spelled [] (spellings actions triggers) ['\n'] {} n := by
  have hall : Anywhere (spellings actions triggers) ['\n'] := by
    rw [spellings, ← List.singleton_append]
    exact .append (Datum.anywhere_brace (.inl rfl) _) (.append (anywhere_opened _ _ _)
      (.append (anywhere_opened _ _ _) (anywhere_closings _)))
  exact hall [] {}

/-- A source is scanned into the tokens of its spellings, without a fault. -/
theorem scan_source (actions triggers : List Name) :
    Token.scan (source actions triggers) = .ok (tokens [] (spellings actions triggers)) ∧
      Token.scanLossy (source actions triggers) = (tokens [] (spellings actions triggers), []) := by
  obtain ⟨n, hspelled⟩ := exists_spelled actions triggers
  exact Token.scan_of_spelled_append (toList_source actions triggers) hspelled
    Reader.trace_behind_newline

/-! ## the parse -/

/-- Entries close every bracket that they open. -/
theorem balanced_entries (names : List Name) (b : List Char) :
    Balanced (tokens b (entries names)) := by
  induction names generalizing b with
  | nil => rfl
  | cons name names ih =>
    have hentry : Balanced (tokens b (entry name)) := rfl
    rw [entries, List.flatMap_cons, Spelling.tokens_append, Balanced, hentry.nest_append]
    exact ih _

/-- A section that is opened leaves a brace open. -/
theorem nest_opened (outer : List Bracket) (s : Section) (names : List Name) (b : List Char) :
    nest outer (tokens b (opened s names)) = some (.brace :: outer) := by
  rw [opened, Spelling.tokens_append, nest_append]
  exact (balanced_entries names _).nest_eq (.brace :: outer)

/-- One brace is left open. -/
theorem nest_tokens (actions triggers : List Name) :
    nest [] (tokens [] (spellings actions triggers)) = some [.brace] := by
  rw [spellings, Spelling.tokens_cons, nest_cons]
  change nest [.brace] _ = _
  rw [Spelling.tokens_append, nest_append, nest_opened, Option.bind_some, Spelling.tokens_append,
    nest_append, nest_opened]
  rfl

/-- A key, a brace or a comma. -/
def isBare (l : Spelling) : Bool :=
  [.label, .braceOpen, .braceClose].contains l.kind || l.kind == .punctuation && l.text == ","

theorem all_isBare (actions triggers : List Name) :
    (spellings actions triggers).all isBare = true := by
  have hentries : ∀ names, (entries names).all isBare = true := by
    intro names
    rw [entries, List.all_flatMap, List.all_eq_true]
    exact fun name _ => rfl
  simp only [spellings, opened, List.all_cons, List.all_append, hentries]
  rfl

/-- The document does not parse. -/
theorem exists_error (actions triggers : List Name) :
    ∃ failure, Parsed.ofSource (source actions triggers) = .error failure := by
  cases hparse : Parsed.ofSource (source actions triggers) with
  | error failure => exact ⟨failure, rfl⟩
  | ok parsed =>
    -- Nothing could have been passed over, so that all braces would be balanced.
    obtain ⟨ts, s, hscan, -, hread, hkept, -⟩ := Parsed.reading_ofSource hparse
    obtain rfl : ts = tokens [] (spellings actions triggers) :=
      Except.ok.inj (hscan.symm.trans (scan_source actions triggers).1)
    have hpassed : s.passed = [] := by
      refine hread.passed_eq_nil fun t ht => ?_
      obtain ⟨l, hl, b, rfl⟩ := Spelling.exists_of_mem_tokens (List.mem_of_mem_filter ht)
      simpa [isBare, Token.isPunct, Spelling.token] using
        List.all_eq_true.1 (all_isBare actions triggers) l hl
    have hnest := hread.nest_eq (by simp [hpassed]) []
    rw [Token.nest_significant, nest_tokens, hkept] at hnest
    cases hnest

/-! ## fragments -/

theorem column_token_indented {l : Spelling} {width : Nat} (h : l.lead = .indented width)
    (b : List Char) : (l.token b).column = width := by
  simp only [Spelling.token, h, Lead.chars, Text.columnBehind, List.reverse_append,
    List.reverse_cons, List.reverse_replicate, List.append_assoc]
  rw [List.takeWhile_append_of_pos (by simp)]
  simp

/-- The pass over the tokens takes no notice of an entry: inside of two braces a section is looked
for at the column of the first one only. -/
theorem lookAll_entry (text : String) (name : Name) {p : Fragments.Progress} (hdepth : 1 < p.depth)
    (hcolumn : p.column = some 2) (b : List Char) (rest : List Token) :
    lookAll text p (tokens b (entry name) ++ rest) = lookAll text p rest := by
  have hskips := Datum.skips_lookAll text
  let key := (Spelling.key (.indented 4) name.text).token b
  have hlook : ∀ ts, p.look text (key :: ts) = p := by
    intro ts
    have hkind : key.kind = .label := rfl
    have hkey : entryKey? (key :: ts) = some (name.text, ts) := rfl
    have haligned : (p.column == some key.column) = false := by
      rw [hcolumn, column_token_indented rfl]
      rfl
    simp only [Fragments.Progress.look, hkind, hkey]
    cases Section.ofKey? name.text with
    | none => rfl
    | some s => simp [haligned, hdepth]
  rw [entry, Spelling.tokens_cons, List.cons_append, lookAll, hlook, Spelling.tokens_cons,
    List.cons_append, hskips.opening p rfl, Spelling.tokens_cons, List.cons_append,
    hskips.closing p rfl]
  exact hskips.flat p rfl rfl

/-- Entries are passed over in the look for sections. -/
theorem lookAll_entries (text : String) (names : List Name) {p : Fragments.Progress}
    (hdepth : 1 < p.depth) (hcolumn : p.column = some 2) (b : List Char) (rest : List Token) :
    lookAll text p (tokens b (entries names) ++ rest) = lookAll text p rest := by
  induction names generalizing b with
  | nil => rfl
  | cons name names ih =>
    rw [entries, List.flatMap_cons, Spelling.tokens_append, List.append_assoc,
      lookAll_entry text name hdepth hcolumn]
    exact ih _

/-- A key is an entry of a section, unless it names a section and is not indented more. -/
theorem entriesFrom_key (text : String) (callable : Bool) {t : Token} {name : String}
    (ht : t.kind = .label) (hname : t.value = some name) (hline : t.gap.newline = true)
    (ts : List Token) :
    ∃ loc, entriesFrom text callable (some 2) {} (t :: ts) =
      if t.column ≤ 2 ∧ (Section.ofKey? name).isSome then []
      else ⟨name, loc⟩ :: entriesFrom text callable (some 2) {} ts := by
  refine ⟨⟨some t.line, some t.column,
    (Fragments.entryStop? text callable ts).map (· - t.offset)⟩, ?_⟩
  simp [entriesFrom, Fragments.Depth.take, entryKey?, ht, hname, hline]

/-- An entry is found by its name, even if that names a section: it is indented more. -/
theorem entriesFrom_entry (text : String) (callable : Bool) (name : Name) (b : List Char)
    (rest : List Token) :
    ∃ loc, entriesFrom text callable (some 2) {} (tokens b (entry name) ++ rest) =
      ⟨name.text, loc⟩ :: entriesFrom text callable (some 2) {} rest := by
  have hskips := Datum.skips_entriesFrom text callable (some 2)
  let key := (Spelling.key (.indented 4) name.text).token b
  have hcolumn : ¬ (key.column ≤ 2 ∧ (Section.ofKey? name.text).isSome) := by
    rw [column_token_indented rfl]
    omega
  rw [entry, Spelling.tokens_cons, List.cons_append]
  obtain ⟨loc, hkey⟩ := entriesFrom_key text callable (t := key) rfl rfl rfl (_ ++ rest)
  refine ⟨loc, ?_⟩
  rw [hkey, if_neg hcolumn, Spelling.tokens_cons, List.cons_append, hskips.opening {} rfl,
    Spelling.tokens_cons, List.cons_append, hskips.closing {} rfl]
  exact congrArg _ (hskips.flat {} rfl rfl)

/-- The entries of a section are found by their names, in order, up to what ends the section. -/
theorem map_name_entriesFrom (text : String) (callable : Bool) (names : List Name) (b : List Char)
    {rest : List Token} (hrest : entriesFrom text callable (some 2) {} rest = []) :
    (entriesFrom text callable (some 2) {} (tokens b (entries names) ++ rest)).map Fragment.name =
      names.map (·.text) := by
  induction names generalizing b with
  | nil => exact congrArg _ hrest
  | cons name names ih =>
    rw [entries, List.flatMap_cons, Spelling.tokens_append, List.append_assoc]
    obtain ⟨loc, hentry⟩ := entriesFrom_entry text callable name b
      (tokens (b ++ textOf (entry name)) (entries names) ++ rest)
    rw [← entries, hentry, List.map_cons, ih, List.map_cons]

/-- A section that begins a line at the column of the first one is added. -/
theorem exists_lookAll_header (text : String) (s : Section) {p : Fragments.Progress}
    (hp : p.depth = 1 ∧ p.column = none ∨ p.depth = 2 ∧ p.column = some 2) (b : List Char)
    (rest : List Token) :
    ∃ t u, (t.gap.newline = true ∧ t.column = 2) ∧ u.kind = .braceOpen ∧
      lookAll text p (tokens b (header s) ++ rest) =
        lookAll text ⟨p.depth + 1, some 2, Fragments.addSection text s s.key t (u :: rest) p.found⟩
          rest := by
  have hskips := Datum.skips_lookAll text
  let key := (Spelling.key (.indented 2) s.key).token b
  let brace := (Spelling.opening .spaced).token (b ++ (Spelling.key (.indented 2) s.key).chars)
  have hcolumn : key.column = 2 := column_token_indented rfl b
  have hlook : ∀ ts, p.look text (key :: ts) =
      ⟨p.depth, some 2, Fragments.addSection text s s.key key ts p.found⟩ := by
    intro ts
    have hkind : key.kind = .label := rfl
    have hline : key.gap.newline = true := rfl
    have hkey : entryKey? (key :: ts) = some (s.key, ts) := rfl
    simp only [Fragments.Progress.look, hkind, hkey, Section.ofKey?_key, hline, hcolumn]
    rcases hp with ⟨hdepth, hp⟩ | ⟨hdepth, hp⟩ <;> simp [hdepth, hp]
  refine ⟨key, brace, ⟨rfl, hcolumn⟩, rfl, ?_⟩
  rw [header, Spelling.tokens_cons, List.cons_append, lookAll, hlook]
  exact hskips.opening _ rfl _

/-- A section is added with the names of its entries, and the pass goes on behind them. -/
theorem exists_lookAll_opened (text : String) (s : Section) (names : List Name)
    {p : Fragments.Progress}
    (hp : p.depth = 1 ∧ p.column = none ∨ p.depth = 2 ∧ p.column = some 2)
    (b : List Char) {rest : List Token} (hrest : entriesFrom text false (some 2) {} rest = []) :
    ∃ t value, (t.gap.newline = true ∧ t.column = 2) ∧
      (Fragments.sectionEntries text false (some 2) value).map Fragment.name =
        names.map (·.text) ∧
      lookAll text p (tokens b (opened s names) ++ rest) =
        lookAll text ⟨p.depth + 1, some 2, Fragments.addSection text s s.key t value p.found⟩
          rest := by
  rw [opened, Spelling.tokens_append, List.append_assoc]
  generalize b ++ textOf (header s) = b'
  obtain ⟨t, u, ht, hu, hlook⟩ :=
    exists_lookAll_header text s hp b (tokens b' (entries names) ++ rest)
  refine ⟨t, u :: (tokens b' (entries names) ++ rest), ht, ?_, hlook.trans ?_⟩
  · rw [Fragments.sectionEntries, if_pos hu]
    exact map_name_entriesFrom text false names b' hrest
  · exact lookAll_entries text names (by simp only; omega) rfl b' rest

/-- The pass over the tokens of the document finds the names of both sections. -/
theorem found_lookAll_source (text : String) (actions triggers : List Name) :
    let found := (lookAll text {} (tokens [] (spellings actions triggers))).found
    found.actions.map Fragment.name = actions.map (·.text) ∧
      found.triggers.map Fragment.name = triggers.map (·.text) := by
  intro found
  simp only [found, spellings, Spelling.tokens_cons, Spelling.tokens_append]
  rw [(Datum.skips_lookAll text).opening {} rfl]
  generalize [] ++ (Spelling.opening .tight).chars = b₁
  generalize b₁ ++ textOf (opened .actions actions) = b₂
  generalize b₂ ++ textOf (opened .triggers triggers) = b₃
  -- The actions end at the line of the triggers, and these at the brace.
  have hsibling : entriesFrom text false (some 2) {}
      (tokens b₂ (opened .triggers triggers) ++ tokens b₃ closings) = [] := by
    let key := (Spelling.key (.indented 2) (Section.key .triggers)).token b₂
    have hcolumn : key.column = 2 := column_token_indented rfl b₂
    obtain ⟨loc, hkey⟩ := entriesFrom_key text false (t := key) rfl rfl rfl
      (tokens _ (.opening .spaced :: entries triggers) ++ tokens b₃ closings)
    exact hkey.trans (if_pos ⟨Nat.le_of_eq hcolumn, by decide⟩)
  have hbrace : entriesFrom text false (some 2) {} (tokens b₃ closings) = [] := rfl
  obtain ⟨t₁, value₁, ⟨hline₁, hcolumn₁⟩, hnames₁, hlook₁⟩ :=
    exists_lookAll_opened text .actions actions (p := { depth := 1 }) (.inl ⟨rfl, rfl⟩) b₁ hsibling
  obtain ⟨t₂, value₂, ⟨hline₂, hcolumn₂⟩, hnames₂, hlook₂⟩ :=
    exists_lookAll_opened text .triggers triggers
      (p := ⟨2, some 2, Fragments.addSection text .actions (Section.key .actions) t₁ value₁ {}⟩)
      (.inr ⟨rfl, rfl⟩) b₂ hbrace
  have hclosed : ∀ p : Fragments.Progress,
      (lookAll text p (tokens b₃ closings)).found = p.found := fun p => rfl
  rw [hlook₁, hlook₂, hclosed]
  simp [Fragments.addSection, Fragments.keepFirst, hline₁, hcolumn₁, hnames₁, hline₂, hcolumn₂,
    hnames₂]

/-! ## the audit -/

/-- **Unclosed sections.** The audit of a document whose actions are not closed tells their names
and those of the triggers, each in order; all that it reports is that the document does not
parse. -/
theorem names_ofSource (actions triggers : List Name) (settings : Settings) :
    let audit := Audit.ofSource (source actions triggers) settings
    audit.salvaged = true ∧ audit.issues.map Issue.code = ["syntax_error"] ∧
      audit.root.namesOf .action = actions.map (·.text) ∧
        audit.root.namesOf .trigger = triggers.map (·.text) := by
  intro audit
  obtain ⟨failure, hfailure⟩ := exists_error actions triggers
  have haudit : audit = Audit.ofFailure (source actions triggers) failure settings := by
    simp only [audit, Audit.ofSource, hfailure]
  have hcomments : ∀ l ∈ spellings actions triggers, l.kind ≠ .comment := by
    intro l hl hkind
    have hbare := List.all_eq_true.1 (all_isBare actions triggers) l hl
    simp [isBare, hkind] at hbare
  have hfragments : Fragments.ofSource (source actions triggers) =
      { (lookAll (source actions triggers) {} (tokens [] (spellings actions triggers))).found with
        faults := [] } := by
    simp only [Fragments.ofSource, (scan_source actions triggers).2,
      Spelling.filter_tokens hcomments]
  obtain ⟨hactions, htriggers⟩ :=
    Audit.namesOf_root_ofFailure (source actions triggers) failure settings
  obtain ⟨hfoundActions, hfoundTriggers⟩ :=
    found_lookAll_source (source actions triggers) actions triggers
  rw [hfragments] at hactions htriggers
  rw [haudit]
  exact ⟨rfl, rfl, hactions.trans hfoundActions, htriggers.trans hfoundTriggers⟩

end Unclosed

end ConnectorAudit
