import ConnectorAudit.Proofs.Derivations

/-!
# Bodies

The body of a callable, as a list of statements: calls, statements with a guard
behind them, and keyword bodies and blocks, which hold further statements.  The
extent of the callable, which is found by counting the words that open and close,
and the span of its node, which is found by parsing, are the same.

Whether a word opens a body depends on the tokens before it.  Between two statements
no more is left of them than lines that lie behind (`Reader.Memory.Settled`); that is
the invariant by which statements are read one after the other.

* `Statement.settles`: a statement is scanned as it is spelled, and leaves nothing open;
* `Statement.accepts`: it is parsed as one expression;
* `Statement.closingEnd?_spellings`: it closes all that it opens;
* `Statement.block_agrees_parsed`: hence the two extents.
-/

namespace ConnectorAudit

/-! ## statements -/

namespace Statement

/-- What stands before a body. -/
inductive Head where
  /-- `if x` -/
  | whenTrue
  /-- `unless x` -/
  | whenFalse
  /-- `while y do` -/
  | loopDo
  /-- `while y` -/
  | loop
  /-- `begin` -/
  | plain
  /-- `case x`, and `when 1` on the next line. -/
  | choice
  /-- `x.each do |i|` -/
  | each
  deriving DecidableEq, Repr

/-- The lines of a head. -/
def Head.text : Head → String
  | whenTrue => "if x\n"
  | whenFalse => "unless x\n"
  | loopDo => "while y do\n"
  | loop => "while y\n"
  | plain => "begin\n"
  | choice => "case x\nwhen 1\n"
  | each => "x.each do |i|\n"

open Spelling (word mark numeral quoted)

/-- A head, with the line end before it and without the one behind it. -/
def Head.spellings : Head → List Spelling
  | whenTrue => [word .newLine .blockStart "if", word .spaced .identifier "x"]
  | whenFalse => [word .newLine .blockStart "unless", word .spaced .identifier "x"]
  | loopDo =>
    [word .newLine .blockStart "while", word .spaced .identifier "y", word .spaced .identifier "do"]
  | loop => [word .newLine .blockStart "while", word .spaced .identifier "y"]
  | plain => [word .newLine .blockStart "begin"]
  | choice =>
    [word .newLine .blockStart "case", word .spaced .identifier "x",
      word .newLine .identifier "when", numeral .spaced "1"]
  | each =>
    [word .newLine .identifier "x", mark .tight ".", word .tight .identifier "each",
      word .spaced .blockStart "do", mark .spaced "|", word .tight .identifier "i", mark .tight "|"]

end Statement

inductive Statement where
  /-- `call('m')` -/
  | call
  /-- `z if w` -/
  | guarded
  /-- A body with statements of its own. -/
  | body (head : Statement.Head) (statements : List Statement)

namespace Statement

open Spelling (word mark numeral quoted)

mutual
def text : Statement → String
  | call => "call('m')\n"
  | guarded => "z if w\n"
  | body head statements => head.text ++ textAll statements ++ "end\n"
def textAll : List Statement → String
  | [] => ""
  | s :: ss => s.text ++ textAll ss
end

mutual
/-- How many bodies are open at once in a statement. -/
def depth : Statement → Nat
  | call | guarded => 0
  | body _ statements => depthAll statements + 1
/-- How many bodies are open at once in some statements. -/
def depthAll : List Statement → Nat
  | [] => 0
  | s :: ss => max s.depth (depthAll ss)
end

/-- The `end` of a body, on a line of its own. -/
def closing : Spelling := word .newLine .blockEnd "end"

mutual
/-- A statement, with the line end before it and without the one behind it. -/
def spellings : Statement → List Spelling
  | call =>
    [word .newLine .identifier "call", mark .tight "(", quoted .tight "m", mark .tight ")"]
  | guarded =>
    [word .newLine .identifier "z", word .spaced .identifier "if", word .spaced .identifier "w"]
  | body head statements => head.spellings ++ spellingsAll statements ++ [closing]
def spellingsAll : List Statement → List Spelling
  | [] => []
  | s :: ss => s.spellings ++ spellingsAll ss
end

open Spelling (textOf)

/-- The spellings are those of whole lines, with the last line end moved to the front. -/
def Spells (ls : List Spelling) (lines : String) : Prop :=
  textOf ls ++ ['\n'] = '\n' :: lines.toList

/-- Spellings one behind the other spell the one text behind the other. -/
theorem Spells.append {ls ms : List Spelling} {s t : String} (hs : Spells ls s) (ht : Spells ms t) :
    Spells (ls ++ ms) (s ++ t) := by
  unfold Spells at *
  rw [Spelling.textOf_append, List.append_assoc, ht, ← List.singleton_append,
    ← List.append_assoc, hs, String.toList_append, List.cons_append]

/-- The line feed in front of spellings stands in for the one behind them. -/
theorem Spells.textOf_append {ls : List Spelling} {s : String} (h : Spells ls s)
    (after : List Char) : textOf ls ++ '\n' :: after = '\n' :: (s.toList ++ after) := by
  unfold Spells at h
  rw [← List.singleton_append, ← List.append_assoc, h, List.cons_append]

/-- The spellings of a head are its text. -/
theorem Head.spells (head : Head) : Spells head.spellings head.text := by
  cases head <;> rfl

mutual
/-- The spellings of a statement are its text. -/
theorem spells (s : Statement) : Spells s.spellings s.text := by
  match s with
  | call => rfl
  | guarded => rfl
  | body head statements =>
    have hend : Spells [closing] "end\n" := rfl
    exact (head.spells.append (spellsAll statements)).append hend
theorem spellsAll (ss : List Statement) : Spells (spellingsAll ss) (textAll ss) := by
  match ss with
  | [] => rfl
  | s :: ss => exact (spells s).append (spellsAll ss)
end

end Statement

/-! ## the scan -/

/-- Words that can open or close a body. -/
def bodyWords : List String :=
  ["end", "do", "begin", "case", "def", "class", "module", "if", "unless", "while", "until", "for"]

namespace Reader

/-- The last token is no call operator, and no token before is on a later line. -/
structure Memory.Settled (m : Memory) (line : Nat) : Prop where
  previous : ∀ standing previousLine, m.previous = some (standing, previousLine) →
    standing ≠ .dot ∧ previousLine ≤ line
  loopLine : ∀ loop, m.loopLine = some loop → loop ≤ line

variable {before after : List Char} {m : Memory}

/-- A word that means nothing special is a name. -/
theorem wordKind_plain {word : String} (hword : word ∉ bodyWords) :
    (behind before after m).wordKind word = (.identifier, m.loopLine) := by
  simp only [bodyWords, List.mem_cons, List.not_mem_nil, or_false, not_or] at hword
  simp [wordKind, hword, behind]

/-- Behind a name on the same line, `if` and `unless` open nothing. -/
theorem wordKind_guard {word : String} (hword : word = "if" ∨ word = "unless")
    (hm : m.previous = some (.name, Text.lineBehind before)) :
    (behind before after m).wordKind word = (.identifier, m.loopLine) := by
  have hprevious : (behind before after m).previous = some (.name, Text.lineBehind before) := hm
  rcases hword with rfl | rfl <;>
    simp [wordKind, hprevious, statementPosition, line_behind] <;> rfl

/-- A loop keyword on the line takes the `do`. -/
theorem wordKind_do_of_loop {line : Nat} (hm : m.previous = some (.name, line))
    (hloop : m.loopLine = some (Text.lineBehind before)) :
    (behind before after m).wordKind "do" = (.identifier, none) := by
  have hprevious : (behind before after m).previous = some (.name, line) := hm
  have hline : (behind before after m).loopLine = some (Text.lineBehind before) := hloop
  simp [wordKind, hprevious, hline, line_behind]

/-- A `do` behind a name opens a block, unless a loop on this line waits for it. -/
theorem wordKind_do_of_no_loop {line : Nat} (hm : m.previous = some (.name, line))
    (hloop : ∀ loop, m.loopLine = some loop → loop < Text.lineBehind before) :
    (behind before after m).wordKind "do" = (.blockStart, m.loopLine) := by
  have hprevious : (behind before after m).previous = some (.name, line) := hm
  have hline : (behind before after m).loopLine ≠ some (Text.lineBehind before) := fun h =>
    Nat.lt_irrefl _ (hloop _ h)
  simp [wordKind, hprevious, hline, line_behind]
  rfl

/-- On a new line a statement can begin, and no call operator waits for a name. -/
theorem Memory.Settled.wordKind {line : Nat} (hm : m.Settled line)
    (hline : line < Text.lineBehind before) (word : String) :
    (behind before after m).wordKind word =
      ({ behind before after m with previous := none } : Reader).wordKind word := by
  cases hp : m.previous with
  | none => rw [behind, hp]
  | some p =>
    obtain ⟨standing, previousLine⟩ := p
    obtain ⟨hdot, hle⟩ := hm.previous _ _ hp
    have hprevious : (behind before after m).previous = some (standing, previousLine) := hp
    have hne : previousLine ≠ Text.lineBehind before := by omega
    have hposition : (behind before after m).statementPosition (Text.lineBehind before) = true := by
      simp [statementPosition, hprevious, hne]
    unfold Reader.wordKind
    simp only [line_behind, hposition, hprevious]
    cases standing with
    | dot => exact absurd rfl hdot
    | value | name | start => rfl

/-- At the beginning of a line these words open a block. -/
theorem Memory.Settled.wordKind_opener {line : Nat} (hm : m.Settled line)
    (hline : line < Text.lineBehind before) {word : String}
    (hword : word ∈ ["if", "unless", "begin", "case"]) :
    (behind before after m).wordKind word = (.blockStart, m.loopLine) := by
  rw [hm.wordKind hline]
  simp only [List.mem_cons, List.not_mem_nil, or_false] at hword
  rcases hword with rfl | rfl | rfl | rfl <;> rfl

/-- At the beginning of a line `while` opens a block and waits for a `do`. -/
theorem Memory.Settled.wordKind_while {line : Nat} (hm : m.Settled line)
    (hline : line < Text.lineBehind before) :
    (behind before after m).wordKind "while" = (.blockStart, some (Text.lineBehind before)) := by
  have hcursor : (behind before after m).cursor.line = Text.lineBehind before := line_behind
  rw [hm.wordKind hline, ← hcursor]
  rfl

/-- At the beginning of a line `end` closes a block. -/
theorem Memory.Settled.wordKind_end {line : Nat} (hm : m.Settled line)
    (hline : line < Text.lineBehind before) :
    (behind before after m).wordKind "end" = (.blockEnd, m.loopLine) := by
  rw [hm.wordKind hline]
  rfl

/-- A loop that waits was begun no later than here. -/
theorem Memory.Settled.loopLine_le (hm : m.Settled (Text.lineBehind before)) (cs : List Char)
    (loop : Nat) (h : m.loopLine = some loop) : loop ≤ Text.lineBehind (before ++ cs) := by
  have hle := hm.loopLine _ h
  rw [Text.lineBehind_append]
  omega

/-- A token that is no call operator leaves a settled memory, if its line is not later. -/
theorem Memory.settled_note {line : Nat} {t : Token} (standing : Standing)
    (ht : t.standing = some standing) (hdot : standing ≠ .dot) (hline : t.line ≤ line)
    (hloop : ∀ loop, m.loopLine = some loop → loop ≤ line) : (m.note t).Settled line := by
  refine ⟨?_, hloop⟩
  intro standing' previousLine h
  simp only [note, ht, Option.elim_some, Option.some.injEq, Prod.mk.injEq] at h
  obtain ⟨rfl, rfl⟩ := h
  exact ⟨hdot, hline⟩

end Reader

namespace Statement

open Reader (Memory Spelled)
open Spelling (textOf)

variable {before after : List Char} {m : Memory}

/-- A line feed leads to the next line. -/
theorem lineBehind_lt_newLine :
    Text.lineBehind before < Text.lineBehind (before ++ Lead.newLine.chars) := by
  simp [Text.lineBehind_append, Lead.chars]

/-- Places on one line, or one above the other. -/
theorem lineBehind_le {cs ds : List Char} (h : cs.count '\n' ≤ ds.count '\n') :
    Text.lineBehind (before ++ cs) ≤ Text.lineBehind (before ++ ds) := by
  rw [Text.lineBehind_append, Text.lineBehind_append]
  omega

/-- With a settled memory the spellings are read, and leave a settled one. -/
def Settles (ls : List Spelling) (after : List Char) : Prop :=
  ∀ before m, Memory.Settled m (Text.lineBehind before) →
    ∃ n, Spelled before ls after m n ∧ n.Settled (Text.lineBehind (before ++ textOf ls))

/-- Spellings that leave a settled memory do so one after the other. -/
theorem Settles.append {ls ms : List Spelling} (h : Settles ls (textOf ms ++ after))
    (h' : Settles ms after) : Settles (ls ++ ms) after := by
  intro before m hm
  obtain ⟨n, hls, hn⟩ := h before m hm
  obtain ⟨k, hms, hk⟩ := h' _ n hn
  refine ⟨k, hls.append hms, ?_⟩
  rwa [Spelling.textOf_append, ← List.append_assoc]

/-- Behind the head of a block the memory is settled. -/
theorem Head.settles (head : Head) (after : List Char) :
    Settles head.spellings ('\n' :: after) := by
  intro before m hm
  have hline : Text.lineBehind before < Text.lineBehind (before ++ Lead.newLine.chars) :=
    lineBehind_lt_newLine
  have hloop := hm.loopLine_le (textOf head.spellings)
  cases head with
  | whenTrue | whenFalse =>
    refine ⟨_, .word rfl rfl rfl rfl (by decide) (hm.wordKind_opener hline (by decide))
      (.word rfl rfl rfl rfl (by decide) (Reader.wordKind_plain (by decide)) .nil), ?_⟩
    refine Memory.settled_note .name rfl (by decide) ?_ hloop
    rw [Spelling.token, List.append_assoc]
    exact lineBehind_le (by decide)
  | loopDo =>
    refine ⟨_, .word rfl rfl rfl rfl (by decide) (hm.wordKind_while hline)
      (.word rfl rfl rfl rfl (by decide) (Reader.wordKind_plain (by decide))
        (.word rfl rfl rfl rfl (by decide) (Reader.wordKind_do_of_loop rfl ?_) .nil)), ?_⟩
    · simp only [List.append_assoc]
      exact congrArg some (Nat.le_antisymm (lineBehind_le (by decide)) (lineBehind_le (by decide)))
    · refine Memory.settled_note .start rfl (by decide) ?_ fun _ hnone => by cases hnone
      simp only [Spelling.token, List.append_assoc]
      exact lineBehind_le (by decide)
  | loop =>
    refine ⟨_, .word rfl rfl rfl rfl (by decide) (hm.wordKind_while hline)
      (.word rfl rfl rfl rfl (by decide) (Reader.wordKind_plain (by decide)) .nil), ?_⟩
    refine Memory.settled_note .name rfl (by decide) ?_ ?_
    · rw [Spelling.token, List.append_assoc]
      exact lineBehind_le (by decide)
    · rintro _ ⟨⟩
      exact lineBehind_le (by decide)
  | plain =>
    refine ⟨_, .word rfl rfl rfl rfl (by decide) (hm.wordKind_opener hline (by decide)) .nil, ?_⟩
    refine Memory.settled_note .start rfl (by decide) ?_ hloop
    exact lineBehind_le (by decide)
  | choice =>
    refine ⟨_, .word rfl rfl rfl rfl (by decide) (hm.wordKind_opener hline (by decide))
      (.word rfl rfl rfl rfl (by decide) (Reader.wordKind_plain (by decide))
        (.word rfl rfl rfl rfl (by decide) (Reader.wordKind_plain (by decide))
          (.numeral (by decide) rfl rfl .nil))), ?_⟩
    refine Memory.settled_note .value rfl (by decide) ?_ hloop
    simp only [Spelling.token, List.append_assoc]
    exact lineBehind_le (by decide)
  | each =>
    refine ⟨_, .word rfl rfl rfl rfl (by decide) (Reader.wordKind_plain (by decide))
      (.mark (c := '.') rfl rfl (by decide) rfl rfl
        (.word rfl rfl rfl rfl (by decide) (Reader.wordKind_plain (by decide))
          (.word rfl rfl rfl rfl (by decide) (Reader.wordKind_do_of_no_loop rfl ?_)
            (.mark (c := '|') rfl rfl (by decide) rfl rfl
              (.word rfl rfl rfl rfl (by decide) (Reader.wordKind_plain (by decide))
                (.mark (c := '|') rfl rfl (by decide) rfl rfl .nil)))))), ?_⟩
    · intro loop h
      have hle := hm.loopLine _ h
      simp only [List.append_assoc]
      exact Nat.lt_of_le_of_lt hle (Nat.lt_of_lt_of_le hline (lineBehind_le (by decide)))
    · refine Memory.settled_note .start rfl (by decide) ?_ hloop
      simp only [Spelling.token, List.append_assoc]
      exact lineBehind_le (by decide)

/-- Behind `end` the memory is settled. -/
theorem settles_closing (hafter : Reader.endsName after = true)
    (hcolon : labelColon after = false) : Settles [closing] after := by
  intro before m hm
  refine ⟨_, .word rfl rfl hafter hcolon (by decide)
    (hm.wordKind_end lineBehind_lt_newLine) .nil, ?_⟩
  exact Memory.settled_note .value rfl (by decide) (lineBehind_le (by decide)) (hm.loopLine_le _)

/-- Behind a call the memory is settled. -/
theorem settles_call (after : List Char) : Settles call.spellings ('\n' :: after) := by
  intro before m hm
  refine ⟨_, .word rfl rfl rfl rfl (by decide) (Reader.wordKind_plain (by decide))
    (.mark (c := '(') rfl rfl (by decide) rfl rfl
      (.quoted rfl rfl
        (.mark (c := ')') rfl rfl (by decide) rfl rfl .nil))), ?_⟩
  refine Memory.settled_note .value rfl (by decide) ?_ (hm.loopLine_le _)
  simp only [Spelling.token, List.append_assoc]
  exact lineBehind_le (by decide)

/-- Behind a guarded call the memory is settled. -/
theorem settles_guarded (after : List Char) : Settles guarded.spellings ('\n' :: after) := by
  intro before m hm
  refine ⟨_, .word rfl rfl rfl rfl (by decide) (Reader.wordKind_plain (by decide))
    (.word rfl rfl rfl rfl (by decide) (Reader.wordKind_guard (.inl rfl) ?_)
      (.word rfl rfl rfl rfl (by decide) (Reader.wordKind_plain (by decide)) .nil)), ?_⟩
  · have hlines : Text.lineBehind (before ++ Lead.newLine.chars) =
        Text.lineBehind (before ++ ((Spelling.word .newLine .identifier "z").chars ++
          Lead.spaced.chars)) :=
      Nat.le_antisymm (lineBehind_le (by decide)) (lineBehind_le (by decide))
    rw [List.append_assoc, ← hlines]
    rfl
  · refine Memory.settled_note .name rfl (by decide) ?_ (hm.loopLine_le _)
    simp only [Spelling.token, List.append_assoc]
    exact lineBehind_le (by decide)

mutual
/-- A statement is read as it is spelled. -/
theorem settles (s : Statement) (after : List Char) : Settles s.spellings ('\n' :: after) := by
  match s with
  | call => exact settles_call after
  | guarded => exact settles_guarded after
  | body head statements =>
    have hend : Spells [closing] "end\n" := rfl
    refine Settles.append (.append ?_ ?_) (settles_closing rfl rfl)
    · rw [hend.textOf_append, (spellsAll statements).textOf_append]
      exact head.settles _
    · rw [hend.textOf_append]
      exact settlesAll statements _
/-- Behind statements the memory is settled. -/
theorem settlesAll (ss : List Statement) (after : List Char) :
    Settles (spellingsAll ss) ('\n' :: after) := by
  match ss with
  | [] =>
    intro before m hm
    refine ⟨m, .nil, ?_⟩
    rwa [spellingsAll, Spelling.textOf_nil, List.append_nil]
  | s :: ss =>
    refine Settles.append ?_ (settlesAll ss after)
    rw [(spellsAll ss).textOf_append]
    exact settles s _
end

/-! ## the parse -/

open Spelling (tokens)
open Level (levelAt Accepts Runs)

/-- Nothing, or a token that begins a line and is no punctuation. -/
def startsLine : List Token → Bool
  | [] => true
  | t :: _ => t.gap.newline && t.kind != .punctuation

/-- What begins a line does not go on with an expression. -/
theorem endsExpression_of_startsLine {ts : List Token} (h : startsLine ts = true) (ctx : Context) :
    endsExpression ctx ts = true := by
  cases ts with
  | nil => rfl
  | cons t ts =>
    simp only [startsLine, Bool.and_eq_true, bne_iff_ne] at h
    exact endsExpression_of_newline h.1 h.2 ctx ts

/-- A statement begins a line. -/
theorem startsLine_spellings (s : Statement) (b : List Char) (rest : List Token) :
    startsLine (tokens b s.spellings ++ rest) = true := by
  cases s with
  | call => rfl
  | guarded => rfl
  | body head statements => cases head <;> rfl

/-- A statement begins with a token that neither closes nor separates anything. -/
theorem exists_tokens_eq (s : Statement) (b : List Char) :
    ∃ t ts, tokens b s.spellings = t :: ts ∧ t.isCloser = false ∧
      t.separatesStatements = false := by
  cases s with
  | call => exact ⟨_, _, rfl, rfl, rfl⟩
  | guarded => exact ⟨_, _, rfl, rfl, rfl⟩
  | body head statements => cases head <;> exact ⟨_, _, rfl, rfl, rfl⟩

/-- Statements, or what follows if there are none, begin a line. -/
theorem startsLine_spellingsAll (ss : List Statement) (b : List Char) {rest : List Token}
    (hrest : startsLine rest = true) : startsLine (tokens b (spellingsAll ss) ++ rest) = true := by
  cases ss with
  | nil => exact hrest
  | cons s ss =>
    rw [spellingsAll, Spelling.tokens_append, List.append_assoc]
    exact startsLine_spellings s b _

variable {n : Nat} {b : List Char} {rest : List Token} {ctx : Context}

/-- A name that nothing is joined to. -/
theorem accepts_name {lead : Lead} {text : String} (hword : text ∉ Level.reservedWords)
    (hrest : endsExpression ctx rest = true) :
    Accepts ((levelAt (n + 2)).expression ctx)
      (· = .leaf (.identifier text) ((Spelling.word lead .identifier text).token b).span)
      [(Spelling.word lead .identifier text).token b] rest :=
  Level.accepts_expression
    (Level.accepts_operand_name text rfl rfl hword (endsOperand_of_endsExpression hrest)) hrest

/-- A call is an expression. -/
theorem accepts_call (hrest : startsLine rest = true) :
    Accepts ((levelAt (n + 5)).expression .statement) (fun _ => True) (tokens b call.spellings)
      rest := by
  have hends := endsExpression_of_startsLine hrest .statement
  refine Level.accepts_expression ?_ hends
  refine Level.accepts_operand_call "call" rfl rfl (by decide) rfl ?_
    (endsOperand_of_endsExpression hends)
  refine Level.accepts_entries_one rfl ?_ ?_ rfl ?_
  · exact nofun
  · exact ⟨rfl, rfl⟩
  · exact (Level.accepts_expression (Level.accepts_operand_string rfl rfl rfl rfl) rfl).any

/-- A call with a guard behind it is an expression. -/
theorem accepts_guarded (hrest : startsLine rest = true) :
    Accepts ((levelAt (n + 2)).expression .statement) (fun _ => True) (tokens b guarded.spellings)
      rest := by
  have hends := endsExpression_of_startsLine hrest .statement
  refine Level.accepts_expression_joined ?_ rfl rfl ?_ ?_ hends
  · exact (Level.accepts_operand_name "z" rfl rfl (by decide) rfl).any
  · exact ⟨rfl, rfl⟩
  · exact (Level.accepts_operand_name "w" rfl rfl (by decide)
      (endsOperand_of_endsExpression hends)).any

/-- A name that is a statement. -/
theorem runs_name (lead : Lead) (text : String) (hword : text ∉ Level.reservedWords)
    (hseparator : text ∉ separatorWords) (hrest : endsExpression .statement rest = true) :
    Runs ((levelAt (n + 2)).expression .statement)
      [(Spelling.word lead .identifier text).token b] rest := by
  refine Runs.statement ⟨rfl, ?_⟩ (accepts_name hword hrest)
  simpa [Token.separatesStatements, Token.isSeparatorWord, Token.isPunct, Spelling.token,
    Spelling.word] using hseparator

theorem runs_numeral (lead : Lead) (digits : String)
    (hrest : endsExpression .statement rest = true) :
    Runs ((levelAt (n + 2)).expression .statement) [(Spelling.numeral lead digits).token b] rest :=
  Runs.statement ⟨rfl, rfl⟩ (Level.accepts_expression
    (Level.accepts_operand_numeral rfl rfl (endsOperand_of_endsExpression hrest)) hrest)

/-- A name between bars is a parameter. -/
theorem barredName (name : String) (hne : name ≠ "") :
    Level.BarredName (tokens b [.mark .spaced "|", .word .tight .identifier name, .mark .tight "|"])
      name :=
  .mk rfl rfl hne rfl

variable {u : Token} {ts : List Token}

/-- A body behind its keyword, with what the head puts in front of it, is three levels up. -/
theorem accepts_keyword {t : Token} {front : List Token} (text : String) (ht : t.kind = .blockStart)
    (htext : t.text = text) (hdo : text ≠ "do" ∧ text ≠ "def") (hu : u.kind = .blockEnd)
    (hfront : Runs ((levelAt n).expression .statement) front (ts ++ u :: rest))
    (hruns : Runs ((levelAt n).expression .statement) ts (u :: rest))
    (hrest : startsLine rest = true) :
    Accepts ((levelAt (n + 3)).expression .statement) (fun _ => True)
      (t :: (front ++ (ts ++ [u]))) rest := by
  subst htext
  have hends := endsExpression_of_startsLine hrest .statement
  have hmatches : Closer.matches .keyword u = true := by simp [Closer.matches, hu]
  rw [← List.append_assoc]
  exact Level.accepts_expression
    (Level.accepts_operand_body ht hdo hu ((hfront.append hruns).accepts hmatches)
      (endsOperand_of_endsExpression hends)) hends

/-- A head, a body that runs, and its `end`. -/
theorem Head.accepts (head : Head) (hu : u.kind = .blockEnd)
    (hruns : Runs ((levelAt (n + 2)).expression .statement) ts (u :: rest))
    (hts : startsLine (ts ++ u :: rest) = true) (hrest : startsLine rest = true) :
    Accepts ((levelAt (n + 5)).expression .statement) (fun _ => True)
      (tokens b head.spellings ++ (ts ++ [u])) rest := by
  have hends := endsExpression_of_startsLine hts .statement
  cases head with
  | whenTrue =>
    rw [Head.spellings, Spelling.tokens_cons, List.cons_append]
    exact accepts_keyword "if" rfl rfl (by decide) hu
      (runs_name _ "x" (by decide) (by decide) hends) hruns hrest
  | whenFalse =>
    rw [Head.spellings, Spelling.tokens_cons, List.cons_append]
    exact accepts_keyword "unless" rfl rfl (by decide) hu
      (runs_name _ "x" (by decide) (by decide) hends) hruns hrest
  | loop =>
    rw [Head.spellings, Spelling.tokens_cons, List.cons_append]
    exact accepts_keyword "while" rfl rfl (by decide) hu
      (runs_name _ "y" (by decide) (by decide) hends) hruns hrest
  | loopDo =>
    rw [Head.spellings, Spelling.tokens_cons, List.cons_append]
    refine accepts_keyword "while" rfl rfl (by decide) hu ?_ hruns hrest
    exact Runs.append (runs_name _ "y" (by decide) (by decide) rfl) (Runs.separator rfl rfl)
  | plain =>
    rw [Head.spellings, Spelling.tokens_cons, List.cons_append]
    exact accepts_keyword "begin" rfl rfl (by decide) hu .nil hruns hrest
  | choice =>
    rw [Head.spellings, Spelling.tokens_cons, List.cons_append]
    refine accepts_keyword "case" rfl rfl (by decide) hu ?_ hruns hrest
    exact Runs.append (runs_name _ "x" (by decide) (by decide) rfl)
      (Runs.append (Runs.separator rfl rfl) (runs_numeral _ "1" hends))
  | each =>
    have hlast := endsExpression_of_startsLine hrest .statement
    have hmatches : Closer.matches .keyword u = true := by simp [Closer.matches, hu]
    rw [Head.spellings]
    iterate 4 rw [Spelling.tokens_cons, List.cons_append]
    refine Level.accepts_expression ?_ hlast
    refine Level.accepts_operand_each "x" rfl rfl rfl (by decide) rfl rfl rfl
      (barredName "i" (by decide)).bars hu ?_ (endsOperand_of_endsExpression hlast)
    exact hruns.accepts hmatches

mutual
/-- A statement is taken for one. -/
theorem accepts (s : Statement) {n : Nat} (hn : 3 * s.depth + 5 ≤ n) (b : List Char)
    {rest : List Token} (hrest : startsLine rest = true) :
    Accepts ((levelAt n).expression .statement) (fun _ => True) (tokens b s.spellings) rest := by
  match s with
  | call =>
    obtain ⟨k, rfl⟩ := Nat.exists_eq_add_of_le' hn
    exact accepts_call hrest
  | guarded =>
    obtain ⟨k, rfl⟩ := Nat.exists_eq_add_of_le' hn
    exact accepts_guarded hrest
  | body head statements =>
    rw [depth] at hn
    obtain ⟨k, rfl⟩ : ∃ k, n = k + 5 := Nat.exists_eq_add_of_le' (by omega)
    rw [spellings, Spelling.tokens_append, Spelling.tokens_append, List.append_assoc]
    refine head.accepts rfl (runsAll statements (by omega) _ rfl) ?_ hrest
    exact startsLine_spellingsAll statements _ rfl
theorem runsAll (ss : List Statement) {n : Nat} (hn : 3 * depthAll ss + 5 ≤ n) (b : List Char)
    {rest : List Token} (hrest : startsLine rest = true) :
    Runs ((levelAt n).expression .statement) (tokens b (spellingsAll ss)) rest := by
  match ss with
  | [] => exact .nil
  | s :: ss =>
    rw [depthAll] at hn
    rw [spellingsAll, Spelling.tokens_append]
    have hs : Accepts ((levelAt n).expression .statement) _ (tokens b s.spellings) _ :=
      accepts s (by omega) b (startsLine_spellingsAll ss (b ++ textOf s.spellings) hrest)
    refine Runs.append ?_ (runsAll ss (by omega) _ hrest)
    obtain ⟨t, ts, hts, ht⟩ := s.exists_tokens_eq b
    rw [hts] at hs ⊢
    exact .statement ht hs
end

/-! ## the extent -/

/-- The `end` that closes the bodies open, of which there are `depth` already. -/
def closingEnd? (depth : Nat) (ts : List Token) : Option Token :=
  Extent.closing? (·.kind == .blockStart) (·.kind == .blockEnd) depth ts

/-- A head opens one more block. -/
theorem closingEnd?_head (head : Head) (depth : Nat) (b : List Char) (rest : List Token) :
    closingEnd? depth (tokens b head.spellings ++ rest) = closingEnd? (depth + 1) rest := by
  cases head <;> rfl

/-- An `end` closes the block that was opened last. -/
theorem closingEnd?_closing (depth : Nat) (b : List Char) (rest : List Token) :
    closingEnd? (depth + 2) (closing.token b :: rest) = closingEnd? (depth + 1) rest := rfl

mutual
/-- A statement closes what it opens. -/
theorem closingEnd?_spellings (s : Statement) (depth : Nat) (b : List Char) (rest : List Token) :
    closingEnd? (depth + 1) (tokens b s.spellings ++ rest) = closingEnd? (depth + 1) rest := by
  match s with
  | call => rfl
  | guarded => rfl
  | body head statements =>
    rw [spellings, Spelling.tokens_append, Spelling.tokens_append, List.append_assoc,
      List.append_assoc, closingEnd?_head, closingEnd?_spellingsAll statements (depth + 1)]
    exact closingEnd?_closing depth _ rest
/-- Statements close all the blocks that they open. -/
theorem closingEnd?_spellingsAll (ss : List Statement) (depth : Nat) (b : List Char)
    (rest : List Token) :
    closingEnd? (depth + 1) (tokens b (spellingsAll ss) ++ rest) =
      closingEnd? (depth + 1) rest := by
  match ss with
  | [] => rfl
  | s :: ss =>
    rw [spellingsAll, Spelling.tokens_append, List.append_assoc, closingEnd?_spellings s,
      closingEnd?_spellingsAll ss]
end

mutual
/-- No part of a statement is a comment. -/
theorem kind_ne_comment (s : Statement) : ∀ l ∈ s.spellings, l.kind ≠ .comment := by
  match s with
  | call => decide
  | guarded => decide
  | body head statements =>
    intro l hl
    rw [spellings, List.mem_append, List.mem_append] at hl
    rcases hl with (hl | hl) | hl
    · revert l
      cases head <;> decide
    · exact kind_ne_commentAll statements l hl
    · rw [List.mem_singleton.1 hl]
      decide
theorem kind_ne_commentAll (ss : List Statement) : ∀ l ∈ spellingsAll ss, l.kind ≠ .comment := by
  match ss with
  | [] => simp [spellingsAll]
  | s :: ss =>
    intro l hl
    rcases List.mem_append.1 hl with hl | hl
    · exact kind_ne_comment s l hl
    · exact kind_ne_commentAll ss l hl
end

/-! ## callables -/

/-- A lambda with some statements for its body. -/
def callableText (ss : List Statement) : String := "lambda do |x|\n" ++ textAll ss ++ "end"

/-- The head of the lambda. -/
def callableHead : List Spelling :=
  [.word .tight .identifier "lambda", .word .spaced .blockStart "do", .mark .spaced "|",
    .word .tight .identifier "x", .mark .tight "|"]

/-- The lambda up to its `end`. -/
def callableFront (ss : List Statement) : List Spelling := callableHead ++ spellingsAll ss

/-- The text of a callable is what its spellings are. -/
theorem toList_callableText (ss : List Statement) :
    (callableText ss).toList = textOf (callableFront ss ++ [closing]) := by
  have hclosing : textOf [closing] = '\n' :: "end".toList := rfl
  have hhead : textOf callableHead ++ ['\n'] = "lambda do |x|\n".toList := rfl
  rw [callableFront, Spelling.textOf_append, Spelling.textOf_append, List.append_assoc, hclosing,
    (spellsAll ss).textOf_append]
  delta callableText
  rw [String.toList_append, String.toList_append, ← hhead]
  simp

/-- The head of a callable is spelled from the beginning of a text. -/
theorem spelled_callableHead (after : List Char) :
    ∃ m, Spelled [] callableHead ('\n' :: after) {} m ∧
      Memory.Settled m (Text.lineBehind (textOf callableHead)) := by
  refine ⟨_, .word rfl rfl rfl rfl (by decide) (Reader.wordKind_plain (by decide))
    (.word rfl rfl rfl rfl (by decide) (Reader.wordKind_do_of_no_loop rfl nofun)
      (.mark (c := '|') rfl rfl (by decide) rfl rfl
        (.word rfl rfl rfl rfl (by decide) (Reader.wordKind_plain (by decide))
          (.mark (c := '|') rfl rfl (by decide) rfl rfl .nil)))), ?_⟩
  exact Memory.settled_note .start rfl (by decide) (by decide) nofun

/-- A callable is spelled from the beginning of a text. -/
theorem spelled_callable (ss : List Statement) {after : List Char}
    (hafter : Reader.endsName after = true) (hcolon : labelColon after = false) :
    ∃ n, Spelled [] (callableFront ss ++ [closing]) after {} n := by
  have hclosing : textOf [closing] ++ after = '\n' :: ("end".toList ++ after) := rfl
  obtain ⟨m, hhead, hm⟩ := spelled_callableHead ((textAll ss).toList ++ ("end".toList ++ after))
  have hsettles : Settles (spellingsAll ss ++ [closing]) after := by
    refine Settles.append ?_ (settles_closing hafter hcolon)
    rw [hclosing]
    exact settlesAll ss _
  obtain ⟨n, hbody, -⟩ := hsettles _ m hm
  rw [← (spellsAll ss).textOf_append, ← hclosing, ← List.append_assoc, ← Spelling.textOf_append]
    at hhead
  refine ⟨n, ?_⟩
  rw [callableFront, List.append_assoc]
  exact hhead.append hbody

theorem kind_ne_comment_callable (ss : List Statement) :
    ∀ l ∈ callableFront ss ++ [closing], l.kind ≠ .comment := by
  intro l hl
  simp only [callableFront, List.mem_append, List.mem_singleton] at hl
  rcases hl with (hl | hl) | rfl
  · revert l
    decide
  · exact kind_ne_commentAll ss l hl
  · decide

def callableEnd (ss : List Statement) : Token := closing.token (textOf (callableFront ss))

/-- The callable ends where its text does. -/
theorem stop_callableEnd (ss : List Statement) :
    (callableEnd ss).stop = (callableText ss).utf8ByteSize := by
  rw [utf8ByteSize_eq, toList_callableText, Token.stop, callableEnd, Spelling.token,
    Spelling.textOf_append, byteSize_append, byteSize_append, Nat.add_assoc]
  rfl

/-- The tokens of a callable are those of its head, of its statements, and its `end`. -/
theorem tokens_callable (ss : List Statement) :
    tokens [] (callableFront ss ++ [closing]) =
      tokens [] callableHead ++
        (tokens (textOf callableHead) (spellingsAll ss) ++ [callableEnd ss]) := by
  rw [Spelling.tokens_append, callableFront, Spelling.tokens_append, List.append_assoc]
  rfl

/-- The block that begins a text with a callable in front reaches to the end of the callable. -/
theorem block_callable (ss : List Statement) {source : String} {after : List Char}
    (hsource : source.toList = (callableText ss).toList ++ after)
    (hafter : Reader.endsName after = true) (hcolon : labelColon after = false) :
    Extent.block source 0 = .ok ⟨0, (callableText ss).utf8ByteSize, 1, 0⟩ := by
  obtain ⟨n, hspelled⟩ := spelled_callable ss hafter hcolon
  rw [toList_callableText] at hsource
  obtain ⟨more, hmore⟩ := Token.exists_scanLossy_eq hsource hspelled
  have hat : Cursor.at? source 0 = some (.ofSource source) := Cursor.at?_place (Nat.zero_le _)
  have htokens : (Token.scanLossyFrom (.ofSource source)).1.filter (·.kind != .comment) =
      tokens [] callableHead ++ (tokens (textOf callableHead) (spellingsAll ss) ++
        callableEnd ss :: more.filter (·.kind != .comment)) := by
    rw [Token.scanLossy] at hmore
    rw [hmore, List.filter_append, Spelling.filter_tokens (kind_ne_comment_callable ss),
      tokens_callable]
    simp
  have hend : closingEnd? 1 (tokens (textOf callableHead) (spellingsAll ss) ++
      callableEnd ss :: more.filter (·.kind != .comment)) = some (callableEnd ss) := by
    rw [closingEnd?_spellingsAll ss 0]
    rfl
  -- Behind `lambda` the opener is its `do`, and its parameters neither open nor close.
  obtain ⟨opener, rest, hopener, hkind, hrest⟩ : ∃ opener rest, Extent.afterHead
      ((Token.scanLossyFrom (.ofSource source)).1.filter (·.kind != .comment)) = opener :: rest ∧
        opener.kind = .blockStart ∧ closingEnd? 1 rest = some (callableEnd ss) := by
    rw [htokens]
    exact ⟨_, _, rfl, rfl, hend⟩
  rw [closingEnd?] at hrest
  simp only [Extent.block, hat, hopener, hkind, hrest, ← stop_callableEnd ss]
  rfl

/-- The parse finds the callable, and nothing else. -/
theorem parsed_callable (ss : List Statement) (hss : depthAll ss ≤ 60) :
    ∃ parsed body, Parsed.ofSource (callableText ss) = .ok parsed ∧
      parsed.tree.kind = .program ∧ parsed.tree.children =
        [⟨.callable ["x"], ⟨0, (callableText ss).utf8ByteSize, 1, 0⟩, body⟩] := by
  obtain ⟨n, hspelled⟩ : ∃ n, Spelled [] (callableFront ss ++ [closing]) [] {} n :=
    spelled_callable ss rfl rfl
  have hruns : Runs ((levelAt 253).expression .statement)
      (tokens (textOf callableHead) (spellingsAll ss)) [callableEnd ss] :=
    runsAll ss (by omega) _ rfl
  have haccepts : Accepts ((levelAt nestingLimit).expression .statement)
      (fun tree => ∃ body,
        tree = ⟨.callable ["x"], ⟨0, (callableText ss).utf8ByteSize, 1, 0⟩, body⟩ ∧ True)
      (tokens [] (callableFront ss ++ [closing])) [] := by
    rw [tokens_callable, ← stop_callableEnd, callableHead]
    iterate 2 rw [Spelling.tokens_cons, List.cons_append]
    refine Level.accepts_expression ?_ rfl
    refine Level.accepts_operand_lambda rfl rfl rfl (barredName "x" (by decide)).bars rfl ?_ rfl rfl
    exact hruns.accepts rfl
  obtain ⟨_, ⟨body, rfl, -⟩, hparsed⟩ :=
    Parsed.ofSource_of_accepts (toList_callableText ss) hspelled (kind_ne_comment_callable ss)
      ⟨_, _, rfl, rfl, rfl⟩ haccepts
  exact ⟨_, body, hparsed, rfl, rfl⟩

/-- Counting what opens and closes, and parsing, find the same extent of a callable. -/
theorem block_agrees_parsed (ss : List Statement) (hss : depthAll ss ≤ 60) (rest : String)
    (hrest : rest = "" ∨ ∃ tail, rest = "," ++ tail ∨ rest = "\n" ++ tail) :
    ∃ span parsed body, span.offset = 0 ∧ span.length = (callableText ss).utf8ByteSize ∧
      Extent.block (callableText ss ++ rest) 0 = .ok span ∧
        Parsed.ofSource (callableText ss) = .ok parsed ∧ parsed.tree.kind = .program ∧
          parsed.tree.children = [⟨.callable ["x"], span, body⟩] := by
  have hafter : Reader.endsName rest.toList = true ∧ labelColon rest.toList = false := by
    rcases hrest with rfl | ⟨tail, rfl | rfl⟩
    · exact ⟨rfl, rfl⟩
    · rw [String.toList_append]
      exact ⟨rfl, rfl⟩
    · rw [String.toList_append]
      exact ⟨rfl, rfl⟩
  obtain ⟨parsed, body, hparsed, hkind, hchildren⟩ := parsed_callable ss hss
  exact ⟨_, parsed, body, rfl, rfl,
    block_callable ss (String.toList_append ..) hafter.1 hafter.2, hparsed, hkind, hchildren⟩

/-- Loops with and without their `do`, around a block that has one. -/
def loopsAround : List Statement :=
  [body .loop [body .each [guarded, body .loopDo [call]], call], body .choice [body .whenFalse []]]

/-- Three loops and conditions inside of each other, with a comma behind the callable. -/
theorem block_agrees_parsed_loopsAround :
    depthAll loopsAround = 3 ∧ ∃ span parsed children, span.offset = 0 ∧
      span.length = (callableText loopsAround).utf8ByteSize ∧
        Extent.block (callableText loopsAround ++ ",\nend") 0 = .ok span ∧
          Parsed.ofSource (callableText loopsAround) = .ok parsed ∧ parsed.tree.kind = .program ∧
            parsed.tree.children = [⟨.callable ["x"], span, children⟩] :=
  ⟨rfl, block_agrees_parsed loopsAround (by decide) ",\nend" (.inr ⟨"\nend", .inl rfl⟩)⟩

end Statement

end ConnectorAudit
