import ConnectorAudit.Proofs.Loops

/-!
# Spellings

The other way round: from tokens to text.  A *spelling* is a token without its
place, with the blank that stands before it; a list of spellings has a text, and
behind any other text its tokens.
-/

namespace ConnectorAudit

/-! ## spellings -/

/-- What stands before a token. -/
inductive Lead where
  /-- Nothing. -/
  | tight
  /-- One space. -/
  | spaced
  /-- The end of a line. -/
  | newLine
  /-- The end of a line and some spaces. -/
  | indented (width : Nat)
  deriving DecidableEq, Repr

namespace Lead

/-- The text of what stands before a token. -/
def chars : Lead → List Char
  | tight => []
  | spaced => [' ']
  | newLine => ['\n']
  | indented width => '\n' :: List.replicate width ' '

/-- What the token keeps of it. -/
def gap : Lead → Gap
  | tight => {}
  | spaced => { space := true }
  | newLine | indented _ => { space := true, newline := true }

end Lead

/-- A token without its place. -/
structure Spelling where
  lead : Lead
  kind : Token.Kind
  text : String
  value : Option String := none
  deriving DecidableEq, Repr

namespace Spelling

def chars (l : Spelling) : List Char := l.lead.chars ++ l.text.toList

/-- The token that a spelling stands for behind the text `before`. -/
def token (before : List Char) (l : Spelling) : Token where
  kind := l.kind
  text := l.text
  offset := byteSize (before ++ l.lead.chars)
  line := Text.lineBehind (before ++ l.lead.chars)
  column := Text.columnBehind (before ++ l.lead.chars)
  value := l.value
  gap := l.lead.gap

def opening (lead : Lead) : Spelling := ⟨lead, .braceOpen, "\x7b", none⟩

def closing (lead : Lead) : Spelling := ⟨lead, .braceClose, "\x7d", none⟩

/-- A piece of punctuation. -/
def mark (lead : Lead) (text : String) : Spelling := ⟨lead, .punctuation, text, none⟩

/-- A name or a keyword. -/
def word (lead : Lead) (kind : Token.Kind) (text : String) : Spelling := ⟨lead, kind, text, none⟩

def key (lead : Lead) (name : String) : Spelling := ⟨lead, .label, name ++ ":", some name⟩

def numeral (lead : Lead) (digits : String) : Spelling := ⟨lead, .numeral, digits, none⟩

/-- A string in single quotes. -/
def quoted (lead : Lead) (letters : String) : Spelling :=
  ⟨lead, .string, "'" ++ letters ++ "'", some letters⟩

/-- The text of a list of spellings. -/
def textOf (ls : List Spelling) : List Char := ls.flatMap chars

/-- The tokens that a list of spellings stands for behind the text `before`. -/
def tokens (before : List Char) : List Spelling → List Token
  | [] => []
  | l :: ls => l.token before :: tokens (before ++ l.chars) ls

variable {before : List Char}

@[simp]
theorem textOf_nil : textOf [] = [] := rfl

@[simp]
theorem textOf_cons (l : Spelling) (ls : List Spelling) : textOf (l :: ls) = l.chars ++ textOf ls :=
  List.flatMap_cons

@[simp]
theorem textOf_append (ls ms : List Spelling) : textOf (ls ++ ms) = textOf ls ++ textOf ms :=
  List.flatMap_append

@[simp]
theorem tokens_nil : tokens before [] = [] := rfl

@[simp]
theorem tokens_cons (l : Spelling) (ls : List Spelling) :
    tokens before (l :: ls) = l.token before :: tokens (before ++ l.chars) ls := rfl

/-- The tokens of spellings come one list after the other. -/
theorem tokens_append (ls ms : List Spelling) :
    tokens before (ls ++ ms) = tokens before ls ++ tokens (before ++ textOf ls) ms := by
  induction ls generalizing before with
  | nil => simp
  | cons l ls ih => simp [ih, List.append_assoc]

/-- Every token is spelled. -/
theorem exists_of_mem_tokens {ls : List Spelling} {t : Token} (h : t ∈ tokens before ls) :
    ∃ l ∈ ls, ∃ b, t = l.token b := by
  induction ls generalizing before with
  | nil => cases h
  | cons l ls ih =>
    rcases List.mem_cons.1 h with rfl | h
    · exact ⟨l, List.mem_cons_self, before, rfl⟩
    · obtain ⟨l', hl', hb⟩ := ih h
      exact ⟨l', List.mem_cons_of_mem _ hl', hb⟩

/-- Where no comment is spelled, none is left out. -/
theorem filter_tokens {ls : List Spelling} (h : ∀ l ∈ ls, l.kind ≠ .comment) :
    (tokens before ls).filter (·.kind != .comment) = tokens before ls := by
  refine List.filter_eq_self.2 fun t ht => ?_
  obtain ⟨l, hl, b, rfl⟩ := exists_of_mem_tokens ht
  simpa [token] using h l hl

end Spelling

/-! ## bodies of literals -/

namespace Quoting

/-- The character stands for itself in a body: it begins neither an escape nor code, and it is no
delimiter. -/
def isPlain (q : Quoting) (c : Char) : Bool :=
  c != '\\' && c != q.closer && q.opener != some c && !(q.interpolates && c == '#')

/-- What the characters of a body without code denote: each stands for itself or has a backslash
before it. -/
inductive Denotes (q : Quoting) : List Char → List Char → Prop
  | nil : Denotes q [] []
  | plain {c : Char} {cs ds : List Char} (hc : q.isPlain c = true) (h : Denotes q cs ds) :
      Denotes q (c :: cs) (c :: ds)
  | escaped {e d : Char} {cs ds : List Char}
      (he : ∀ body, Quoted.pushEscaped q body e = body.push d) (h : Denotes q cs ds) :
      Denotes q ('\\' :: e :: cs) (d :: ds)

/-- Plain characters denote themselves. -/
theorem Denotes.of_isPlain {q : Quoting} {cs : List Char} (h : ∀ c ∈ cs, q.isPlain c = true) :
    q.Denotes cs cs := by
  induction cs with
  | nil => exact .nil
  | cons c cs ih =>
    obtain ⟨hc, hcs⟩ := List.forall_mem_cons.1 h
    exact .plain hc (ih hcs)

end Quoting

/-! ## readers behind a text -/

namespace Reader

/-- What the tokens before a place leave behind there. -/
structure Memory where
  /-- What the last token lets follow, and its line. -/
  previous : Option (Standing × Nat) := none
  /-- The line of a loop keyword that may still take a `do`. -/
  loopLine : Option Nat := none
  deriving DecidableEq, Repr

/-- What a token adds to it; a comment adds nothing. -/
def Memory.note (m : Memory) (t : Token) : Memory :=
  { m with previous := t.standing.elim m.previous fun standing => some (standing, t.line) }

/-- The reader between the texts `before` and `after`, with no heredoc announced. -/
def behind (before after : List Char) (m : Memory) : Reader :=
  { cursor := .place (before ++ after) before.length
    previous := m.previous
    loopLine := m.loopLine }

variable {before after : List Char} {m : Memory}

@[simp]
theorem rest_behind : (behind before after m).rest = after := by
  simp [rest, behind]

@[simp]
theorem left_behind : (behind before after m).left = after.length := by
  simp [left, behind]

theorem offset_behind : (behind before after m).cursor.offset = byteSize before := by
  simp [behind, byteAt]

theorem line_behind :
    (behind before after m).cursor.line = Text.lineBehind before := by
  simp [behind, Cursor.place]

theorem column_behind :
    (behind before after m).cursor.column = Text.columnBehind before := by
  simp [behind, Cursor.place]

/-- Moving on over some of the text. -/
theorem advance_behind (cs : List Char) :
    (behind before (cs ++ after) m).advance cs.length =
      behind (before ++ cs) after m := by
  simp [behind, advance, Cursor.advance_place]

/-- Behind a text the next character is read. -/
theorem bump_behind (c : Char) :
    (behind before (c :: after) m).bump =
      some (c, behind (before ++ [c]) after m) := by
  have hnext : (Cursor.place (before ++ c :: after) before.length).next? =
      some (c, .place (before ++ c :: after) (before.length + 1)) :=
    Cursor.next?_place (by simp)
  simp only [bump, behind, hnext, settle]
  simp

theorem bump_behind_nil : (behind before [] m).bump = none := by
  have hnext : (Cursor.place (before ++ []) before.length).next? = none :=
    Cursor.next?_place_eq_none (by simp)
  simp only [bump, behind, hnext]

/-- The token of a stretch of the text. -/
theorem between_behind (cs : List Char) (kind : Token.Kind) (gap : Gap) (value : Option String)
    (nested : List Token) :
    Token.between kind gap (behind before (cs ++ after) m).cursor
        (behind (before ++ cs) after m).cursor value nested =
      ⟨kind, String.ofList cs, byteSize before, Text.lineBehind before, Text.columnBehind before,
        value, nested, gap⟩ := by
  have htext : (behind before (cs ++ after) m).cursor.textTo
      (behind (before ++ cs) after m).cursor = String.ofList cs := by
    have hrest : (behind before (cs ++ after) m).cursor.rest = cs ++ after :=
      rest_behind
    rw [← advance_behind, advance, Cursor.textTo_advance, hrest, List.take_left]
  rw [Token.between, htext, offset_behind, line_behind, column_behind]

/-- Behind a text the next characters are taken as a token. -/
theorem take_behind (cs : List Char) (kind : Token.Kind) (gap : Gap) (value : Option String) :
    (behind before (cs ++ after) m).take kind gap cs.length value =
      (⟨kind, String.ofList cs, byteSize before, Text.lineBehind before, Text.columnBehind before,
        value, [], gap⟩, behind (before ++ cs) after m) := by
  rw [take, advance_behind, between_behind]

/-! ## between tokens -/

/-- A text that a token begins: neither a blank, nor an escaped line end, nor the data marker. -/
def startsToken : List Char → Bool
  | [] => false
  | c :: cs =>
    !([' ', '\t', '\r', '\x0c', '\n', '\\'].contains c) &&
      !"__END__".toList.isPrefixOf (c :: cs)

theorem contains_eq_false_of_all {p : Char → Bool} {cs : List Char} (hcs : cs.all (!p ·) = true)
    {c : Char} (hc : p c = true) : cs.contains c = false := by
  rw [← Bool.not_eq_true, List.contains_iff_mem]
  intro hmem
  simpa [hc] using List.all_eq_true.1 hcs c hmem

theorem startsToken_cons {c : Char}
    (hc : [' ', '\t', '\r', '\x0c', '\n', '\\', '_'].contains c = false) (cs : List Char) :
    startsToken (c :: cs) = true := by
  simp only [List.contains_eq_mem, decide_eq_false_iff_not, List.mem_cons, List.not_mem_nil,
    or_false, not_or] at hc
  have hmarker : "__END__".toList.isPrefixOf (c :: cs) = false := by
    simp [List.isPrefixOf, Ne.symm hc.2.2.2.2.2.2]
  simp only [startsToken, hmarker, Bool.not_false, Bool.and_true]
  simp [hc]

/-- No blank is passed in front of a token. -/
theorem skipTrivia_behind {c : Char} (hstart : startsToken (c :: after) = true) (gap : Gap) :
    (behind before (c :: after) m).skipTrivia gap =
      (gap, behind before (c :: after) m) := by
  simp only [startsToken, Bool.and_eq_true, Bool.not_eq_true', List.contains_eq_mem,
    decide_eq_false_iff_not, List.mem_cons, List.not_mem_nil, or_false, not_or] at hstart
  obtain ⟨⟨hspace, htab, hreturn, hfeed, hline, hslash⟩, hmarker⟩ := hstart
  have hdata : atDataMarker (behind before (c :: after) m).cursor = false := by
    have hrest : (behind before (c :: after) m).cursor.rest = c :: after :=
      rest_behind
    rw [atDataMarker, Cursor.startsWith, hrest, hmarker, Bool.and_false, Bool.false_and]
  rw [skipTrivia_eq, bump_behind]
  simp [hspace, htab, hreturn, hfeed, hline, hslash, hdata]

/-- Spaces behind a blank add nothing to what is kept. -/
theorem skipTrivia_replicate {c : Char} (hstart : startsToken (c :: after) = true) (width : Nat)
    {gap : Gap} (hgap : gap.space = true) :
    (behind before (List.replicate width ' ' ++ c :: after) m).skipTrivia gap =
      (gap, behind (before ++ List.replicate width ' ') (c :: after) m) := by
  induction width generalizing before with
  | zero => simpa using skipTrivia_behind hstart gap
  | succ width ih =>
    have hspace : { gap with space := true } = gap := by rw [← hgap]
    rw [List.replicate_succ, List.cons_append, skipTrivia_eq, bump_behind]
    simp only [true_or, if_true, hspace]
    rw [ih, List.append_assoc, List.singleton_append]

/-- What stands before a token is passed and kept. -/
theorem skipTrivia_lead (lead : Lead) (hstart : startsToken after = true) :
    (behind before (lead.chars ++ after) m).skipTrivia =
      (lead.gap, behind (before ++ lead.chars) after m) := by
  cases after with
  | nil => cases hstart
  | cons c after =>
    cases lead with
    | tight => simpa [Lead.chars, Lead.gap] using skipTrivia_behind hstart {}
    | spaced =>
      rw [skipTrivia_eq]
      simp only [Lead.chars, List.singleton_append, bump_behind]
      exact skipTrivia_behind hstart _
    | newLine =>
      rw [skipTrivia_eq]
      simp only [Lead.chars, List.singleton_append, bump_behind]
      exact skipTrivia_behind hstart _
    | indented width =>
      rw [skipTrivia_eq]
      simp only [Lead.chars, List.cons_append, bump_behind]
      refine (skipTrivia_replicate hstart width rfl).trans ?_
      rw [List.append_assoc, List.singleton_append]
      rfl

/-- A token that is no question mark is kept in memory. -/
theorem note_behind {t : Token} (ht : t.isPunct "?" = false) :
    (behind before after m).note t = behind before after (m.note t) := by
  unfold note Memory.note
  cases t.standing with
  | none => rfl
  | some standing =>
    simp only [ht]
    rfl

/-- A step reads the token that follows, if one begins there. -/
theorem step_behind {l : Spelling} {n : Memory}
    (hstart : startsToken (l.text.toList ++ after) = true)
    (hl : (l.token before).isPunct "?" = false)
    (htoken : tokenAt interpolationLimit l.lead.gap
      (behind (before ++ l.lead.chars) (l.text.toList ++ after) m) =
        .ok (l.token before, behind (before ++ l.chars) after n)) :
    (behind before (l.chars ++ after) m).step =
      .token (l.token before) (behind (before ++ l.chars) after (n.note (l.token before))) := by
  have hskip : (behind before (l.chars ++ after) m).skipTrivia =
      (l.lead.gap, behind (before ++ l.lead.chars) (l.text.toList ++ after) m) := by
    rw [Spelling.chars, List.append_assoc]
    exact skipTrivia_lead l.lead hstart
  have hne : (l.text.toList ++ after).isEmpty = false := by
    cases hchars : l.text.toList ++ after with
    | nil =>
      rw [hchars] at hstart
      cases hstart
    | cons => rfl
  have hended : ∀ b a m, (behind b a m).ended = false := fun _ _ _ => rfl
  unfold step
  rw [hskip]
  simp only [hended, rest_behind, hne, htoken, Bool.or_false, Bool.false_eq_true, if_false]
  rw [note_behind hl]

/-! ## lexemes

What each kind of lexeme is read as, whatever stands around it. -/

theorem exists_tokenAt_eq (levels : Nat) : ∃ segment, tokenAt levels = tokenWith segment := by
  cases levels with
  | zero => exact ⟨_, rfl⟩
  | succ levels => exact ⟨_, rfl⟩

theorem tokenAt_brace_behind {c : Char} {kind : Token.Kind}
    (hc : c = '{' ∧ kind = .braceOpen ∨ c = '}' ∧ kind = .braceClose) (levels : Nat) (gap : Gap) :
    tokenAt levels gap (behind before (c :: after) m) =
      .ok ((behind before (c :: after) m).take kind gap 1) := by
  obtain ⟨segment, hsegment⟩ := exists_tokenAt_eq levels
  rw [hsegment, tokenWith, rest_behind]
  rcases hc with ⟨rfl, rfl⟩ | ⟨rfl, rfl⟩ <;> simp

/-- Characters that are read as punctuation or as nothing known. -/
def isPlainPunctuation (c : Char) : Bool :=
  !(['#', '=', '\'', '"', '\x60', '{', '}', ':', '/', '%', '<', '@', '$'].contains c) &&
    !c.isDigit && !isNameStart c

/-- A plain mark is read as one. -/
theorem tokenAt_punctuation {c : Char} (hc : isPlainPunctuation c = true) (levels : Nat)
    (gap : Gap) :
    tokenAt levels gap (behind before (c :: after) m) =
      .ok ((behind before (c :: after) m).punctuation gap) := by
  obtain ⟨segment, hsegment⟩ := exists_tokenAt_eq levels
  simp only [isPlainPunctuation, Bool.and_eq_true, Bool.not_eq_true', List.contains_eq_mem,
    decide_eq_false_iff_not, List.mem_cons, List.not_mem_nil, or_false, not_or] at hc
  rw [hsegment, tokenWith, rest_behind]
  simp [hc]

/-- An equals sign with a blank behind it begins no block comment. -/
theorem tokenAt_equals (levels : Nat) (gap : Gap) :
    tokenAt levels gap (behind before ('=' :: ' ' :: after) m) =
      .ok ((behind before ('=' :: ' ' :: after) m).punctuation gap) := by
  obtain ⟨segment, hsegment⟩ := exists_tokenAt_eq levels
  have hrest : (behind before ('=' :: ' ' :: after) m).cursor.rest = '=' :: ' ' :: after :=
    rest_behind
  have hcomment : opensBlockComment (behind before ('=' :: ' ' :: after) m).cursor = false := by
    rw [opensBlockComment, Cursor.startsWith, hrest]
    simp [List.isPrefixOf]
  rw [hsegment, tokenWith, rest_behind]
  simp [hcomment, isNameStart]

theorem isAlpha_iff {c : Char} : c.isAlpha = true ↔
    65 ≤ c.toNat ∧ c.toNat ≤ 90 ∨ 97 ≤ c.toNat ∧ c.toNat ≤ 122 := by
  delta Char.isAlpha Char.isUpper Char.isLower
  simp [UInt32.le_iff_toNat_le]

theorem isDigit_iff {c : Char} : c.isDigit = true ↔ 48 ≤ c.toNat ∧ c.toNat ≤ 57 := by
  delta Char.isDigit
  simp [UInt32.le_iff_toNat_le]

theorem isDigit_of_isNameStart {c : Char} (hc : isNameStart c = true) : c.isDigit = false := by
  by_cases hbar : c = '_'
  · rw [hbar]
    rfl
  · simp only [isNameStart, Bool.or_eq_true, isAlpha_iff, beq_iff_eq, hbar, or_false,
      decide_eq_true_eq] at hc
    rw [Bool.eq_false_iff, Ne, isDigit_iff]
    omega

/-- What begins a name is read as a word. -/
theorem tokenAt_word {c : Char} (hc : isNameStart c = true) (levels : Nat) (gap : Gap) :
    tokenAt levels gap (behind before (c :: after) m) =
      .ok ((behind before (c :: after) m).word gap) := by
  obtain ⟨segment, hsegment⟩ := exists_tokenAt_eq levels
  have hne : ∀ d, isNameStart d = false → c ≠ d := by
    rintro d hd rfl
    rw [hc] at hd
    cases hd
  have hdigit := isDigit_of_isNameStart hc
  rw [hsegment, tokenWith, rest_behind]
  simp only [hne '#' (by decide), hne '=' (by decide), hne '\'' (by decide), hne '"' (by decide),
    hne '\x60' (by decide), hne '{' (by decide), hne '}' (by decide), hne ':' (by decide),
    hne '/' (by decide), hne '%' (by decide), hne '<' (by decide), hne '@' (by decide),
    hne '$' (by decide), hdigit, hc, false_and, or_false, if_false, if_true, Bool.false_eq_true]

/-- What begins with a digit is read as a number. -/
theorem tokenAt_numeral {c : Char} (hc : c.isDigit = true) (levels : Nat) (gap : Gap) :
    tokenAt levels gap (behind before (c :: after) m) =
      .ok ((behind before (c :: after) m).numeral gap) := by
  obtain ⟨segment, hsegment⟩ := exists_tokenAt_eq levels
  have hne : ∀ d : Char, d.isDigit = false → c ≠ d := by
    rintro d hd rfl
    rw [hc] at hd
    cases hd
  rw [hsegment, tokenWith, rest_behind]
  simp only [hne '#' (by decide), hne '=' (by decide), hne '\'' (by decide), hne '"' (by decide),
    hne '\x60' (by decide), hne '{' (by decide), hne '}' (by decide), hne ':' (by decide),
    hne '/' (by decide), hne '%' (by decide), hne '<' (by decide), hne '@' (by decide),
    hne '$' (by decide), hc, false_and, or_false, if_false, if_true]

/-! ### words -/

/-- A word that begins a name and has only characters of names. -/
def isWord : List Char → Bool
  | [] => false
  | c :: cs => isNameStart c && cs.all isNameChar

theorem isNameChar_of_isNameStart {c : Char} (hc : isNameStart c = true) : isNameChar c = true := by
  simp only [isNameStart, Bool.or_eq_true] at hc
  simp only [isNameChar, Char.isAlphanum, Bool.or_eq_true]
  tauto

theorem tokenAt_of_isWord {cs : List Char} (hcs : isWord cs = true) (levels : Nat) (gap : Gap) :
    tokenAt levels gap (behind before (cs ++ after) m) =
        .ok ((behind before (cs ++ after) m).word gap) ∧ ∀ c ∈ cs, isNameChar c = true := by
  cases cs with
  | nil => cases hcs
  | cons c cs =>
    simp only [isWord, Bool.and_eq_true, List.all_eq_true] at hcs
    exact ⟨tokenAt_word hcs.1 .., List.forall_mem_cons.2 ⟨isNameChar_of_isNameStart hcs.1, hcs.2⟩⟩

/-- A text that does not go on with the name before it. -/
def endsName : List Char → Bool
  | [] => true
  | c :: _ => !isNameChar c && c != '?' && c != '!'

theorem runLength_append {p : Char → Bool} {cs after : List Char} (hcs : ∀ c ∈ cs, p c = true)
    (hafter : ∀ c ∈ after.head?, p c = false) : runLength p (cs ++ after) = cs.length := by
  rw [runLength, List.takeWhile_append_of_pos hcs]
  cases after with
  | nil => simp
  | cons c after => simp [hafter c rfl]

/-- A word goes on as far as its characters do. -/
theorem wordLength_append {cs after : List Char} (hcs : ∀ c ∈ cs, isNameChar c = true)
    (hafter : endsName after = true) : wordLength (cs ++ after) = cs.length := by
  have hrun : runLength isNameChar (cs ++ after) = cs.length := by
    refine runLength_append hcs fun c hc => ?_
    cases after with
    | nil => cases hc
    | cons d after =>
      obtain rfl := Option.some.inj hc
      simp only [endsName, Bool.and_eq_true, Bool.not_eq_true'] at hafter
      exact hafter.1.1
  rw [wordLength]
  simp only [hrun, List.drop_left]
  cases after with
  | nil => rfl
  | cons d after =>
    simp only [endsName, Bool.and_eq_true, bne_iff_ne] at hafter
    obtain ⟨⟨-, hquestion⟩, hbang⟩ := hafter
    split <;> simp_all

/-- A word with no colon behind it is a name or a keyword. -/
theorem word_behind {text : String} (htext : ∀ c ∈ text.toList, isNameChar c = true)
    (hafter : endsName after = true) (hcolon : labelColon after = false) (gap : Gap)
    {kind : Token.Kind} {loop : Option Nat}
    (hkind : (behind before (text.toList ++ after) m).wordKind text = (kind, loop)) :
    (behind before (text.toList ++ after) m).word gap =
      (⟨kind, text, byteSize before, Text.lineBehind before, Text.columnBehind before, none, [],
        gap⟩, behind (before ++ text.toList) after { m with loopLine := loop }) := by
  rw [word]
  simp only [rest_behind, wordLength_append htext hafter, List.drop_left, List.take_left, hcolon,
    Bool.false_and, Bool.false_eq_true, if_false, String.ofList_toList, hkind, take_behind]
  rfl

/-- A word with a colon behind it is a label. -/
theorem label_behind {cs : List Char} (hcs : ∀ c ∈ cs, isNameChar c = true)
    (hcolon : labelColon (':' :: after) = true) (gap : Gap) :
    (behind before (cs ++ ':' :: after) m).word gap =
      (⟨.label, String.ofList (cs ++ [':']), byteSize before, Text.lineBehind before,
        Text.columnBehind before, some (String.ofList cs), [], gap⟩,
        behind (before ++ (cs ++ [':'])) after m) := by
  have hlength : wordLength (cs ++ ':' :: after) = cs.length := wordLength_append hcs rfl
  have hquestion : (behind before (cs ++ ':' :: after) m).afterQuestion = false := rfl
  have htake : (behind before ((cs ++ [':']) ++ after) m).take .label gap
      (cs ++ [':']).length (some (String.ofList cs)) = _ := take_behind ..
  rw [List.append_assoc, List.singleton_append, List.length_append, List.length_singleton] at htake
  rw [word]
  simp only [rest_behind, hlength, List.drop_left, List.take_left, hcolon, hquestion,
    Bool.not_false, Bool.and_self, if_true]
  exact htake

/-! ### numerals -/

theorem isNameChar_of_isDigit {c : Char} (hc : c.isDigit = true) : isNameChar c = true := by
  simp [isNameChar, Char.isAlphanum, hc]

/-- Neither more digits nor a fraction nor an exponent follows. -/
def endsNumeral : List Char → Bool
  | [] => true
  | c :: _ => !isNameChar c && c != '.'

/-- What ends a numeral is no part of a name. -/
theorem isNameChar_of_endsNumeral (hafter : endsNumeral after = true) :
    ∀ c ∈ after.head?, isNameChar c = false := by
  intro c hc
  cases after with
  | nil => cases hc
  | cons d after =>
    obtain rfl := Option.some.inj hc
    simp only [endsNumeral, Bool.and_eq_true, Bool.not_eq_true'] at hafter
    exact hafter.1

theorem runLength_digits {cs : List Char} (hcs : ∀ c ∈ cs, c.isDigit = true)
    (hafter : ∀ c ∈ after.head?, isNameChar c = false) :
    runLength isDigitOrBar (cs ++ after) = cs.length := by
  refine runLength_append (fun c hc => by simp [isDigitOrBar, hcs c hc]) fun c hc => ?_
  have hc := hafter c hc
  simp only [isNameChar, Char.isAlphanum, Bool.or_eq_false_iff] at hc
  simp [isDigitOrBar, hc]

theorem exponentLength_eq_zero (hafter : ∀ c ∈ after.head?, isNameChar c = false) :
    exponentLength after = 0 := by
  cases after with
  | nil => rfl
  | cons d after =>
    have hmark : ¬(d = 'e' ∨ d = 'E') := by
      rintro (rfl | rfl) <;> cases hafter _ rfl
    unfold exponentLength
    exact if_neg hmark

/-- A number goes on as far as its digits do. -/
theorem decimalLength_append {cs after : List Char} (hcs : ∀ c ∈ cs, c.isDigit = true)
    (hafter : endsNumeral after = true) : decimalLength (cs ++ after) = cs.length := by
  have hends := isNameChar_of_endsNumeral hafter
  have hfraction : fractionLength after = 0 := by
    unfold fractionLength
    split
    · simp [endsNumeral] at hafter
    · rfl
  rw [decimalLength]
  simp only [runLength_digits hcs hends, List.drop_left, hfraction, Nat.add_zero,
    exponentLength_eq_zero hends]

/-- Digits on both sides of a point. -/
theorem decimalLength_fraction {cs ds after : List Char} (hcs : ∀ c ∈ cs, c.isDigit = true)
    (hds : ∀ d ∈ ds, d.isDigit = true) (hne : ds ≠ []) (hafter : endsNumeral after = true) :
    decimalLength ((cs ++ '.' :: ds) ++ after) = (cs ++ '.' :: ds).length := by
  have hends := isNameChar_of_endsNumeral hafter
  have hwhole : runLength isDigitOrBar (cs ++ '.' :: (ds ++ after)) = cs.length :=
    runLength_digits hcs (by simp; decide)
  have hfraction : fractionLength ('.' :: (ds ++ after)) = 1 + ds.length := by
    rw [← runLength_digits hds hends]
    cases ds with
    | nil => exact absurd rfl hne
    | cons d ds => exact if_pos (hds d List.mem_cons_self)
  have hrest : (cs ++ '.' :: (ds ++ after)).drop (cs.length + (1 + ds.length)) = after := by
    rw [Nat.add_comm 1]
    simp
  rw [List.append_assoc, List.cons_append, decimalLength]
  simp only [hwhole, List.drop_left, hfraction, hrest, exponentLength_eq_zero hends]
  simp
  omega

/-- Where no letter marks a base, a numeral is decimal. -/
theorem numeralLength_eq_decimalLength {cs : List Char}
    (h : ∀ b ∈ cs[1]?, b.isAlpha = false) : numeralLength cs = decimalLength cs := by
  unfold numeralLength
  split
  · next b rest =>
    have hbase : ¬(b = 'x' ∨ b = 'X' ∨ b = 'b' ∨ b = 'B' ∨ b = 'o' ∨ b = 'O') := by
      rintro (rfl | rfl | rfl | rfl | rfl | rfl) <;> cases h _ rfl
    exact if_neg hbase
  · rfl

theorem isAlpha_of_isDigit {c : Char} (hc : c.isDigit = true) : c.isAlpha = false := by
  rw [isDigit_iff] at hc
  rw [Bool.eq_false_iff, Ne, isAlpha_iff]
  omega

/-- Behind the digits of a numeral that ends there is no letter. -/
theorem isAlpha_second {cs : List Char} (hcs : ∀ c ∈ cs, c.isDigit = true)
    (hne : cs ≠ []) (hafter : ∀ c ∈ after.head?, isNameChar c = false) :
    ∀ b ∈ (cs ++ after)[1]?, b.isAlpha = false := by
  intro b hb
  match cs, hne with
  | [c], _ =>
    have hb := hafter b (by simpa [List.head?_eq_getElem?] using hb)
    simp only [isNameChar, Char.isAlphanum, Bool.or_eq_false_iff] at hb
    exact hb.1.1.1
  | c :: d :: cs, _ =>
    obtain rfl : d = b := by simpa using hb
    exact isAlpha_of_isDigit (hcs d (by simp))

/-- Digits with nothing behind them that goes on are a numeral. -/
theorem numeralLength_append {cs after : List Char} (hcs : ∀ c ∈ cs, c.isDigit = true)
    (hne : cs ≠ []) (hafter : endsNumeral after = true) :
    numeralLength (cs ++ after) = cs.length := by
  rw [numeralLength_eq_decimalLength (isAlpha_second hcs hne (isNameChar_of_endsNumeral hafter)),
    decimalLength_append hcs hafter]

/-- So are digits on both sides of a point. -/
theorem numeralLength_fraction {cs ds after : List Char} (hcs : ∀ c ∈ cs, c.isDigit = true)
    (hne : cs ≠ []) (hds : ∀ d ∈ ds, d.isDigit = true) (hne' : ds ≠ [])
    (hafter : endsNumeral after = true) :
    numeralLength ((cs ++ '.' :: ds) ++ after) = (cs ++ '.' :: ds).length := by
  have hsecond : ∀ b ∈ ((cs ++ '.' :: ds) ++ after)[1]?, b.isAlpha = false := by
    rw [List.append_assoc]
    exact isAlpha_second hcs hne (by simp; decide)
  rw [numeralLength_eq_decimalLength hsecond, decimalLength_fraction hcs hds hne' hafter]

theorem numeral_behind {cs : List Char} (hlength : numeralLength (cs ++ after) = cs.length)
    (gap : Gap) :
    (behind before (cs ++ after) m).numeral gap =
      (⟨.numeral, String.ofList cs, byteSize before, Text.lineBehind before,
        Text.columnBehind before, none, [], gap⟩, behind (before ++ cs) after m) := by
  rw [numeral, rest_behind, hlength, take_behind]

/-! ### punctuation -/

/-- The first mark that stands in front is read. -/
theorem punctuation_behind {text : String}
    (hfirst : firstOf ConnectorAudit.punctuation (text.toList ++ after) = some text) (gap : Gap) :
    (behind before (text.toList ++ after) m).punctuation gap =
      (⟨.punctuation, text, byteSize before, Text.lineBehind before, Text.columnBehind before, none,
        [], gap⟩, behind (before ++ text.toList) after m) := by
  rw [punctuation, rest_behind, hfirst]
  simp only
  rw [← String.length_toList, take_behind, String.ofList_toList]

/-! ### strings in quotes -/

/-- A body without code, with the delimiter behind it, is read as what it denotes. -/
theorem body_behind {q : Quoting}
    (hcloser : q.closer ≠ '\\' ∧ q.closer ≠ '#' ∧ q.opener ≠ some q.closer)
    (segment : SegmentReader) {cs ds : List Char} (h : q.Denotes cs ds) (body : Quoted) :
    q.body segment 0 body (behind before (cs ++ q.closer :: after) m) =
      .ok ({ body with cooked := body.cooked ++ String.ofList ds },
        behind (before ++ cs ++ [q.closer]) after m) := by
  induction h generalizing before body with
  | nil =>
    rw [Quoting.body_eq, List.nil_append, bump_behind]
    simp [hcloser]
  | @plain c cs ds hc _ ih =>
    obtain ⟨⟨⟨hslash, hne⟩, hopener⟩, hcode⟩ :
        ((c ≠ '\\' ∧ c ≠ q.closer) ∧ q.opener ≠ some c) ∧ (q.interpolates && c == '#') = false := by
      simpa only [Quoting.isPlain, Bool.and_eq_true, bne_iff_ne, Bool.not_eq_true'] using hc
    rw [Quoting.body_eq, List.cons_append, bump_behind]
    simp only [hslash, hne, hopener, hcode, Bool.false_and, Bool.false_eq_true, if_false]
    rw [ih]
    simp only [Quoted.push, String.ofList_cons, String.push_eq_append, String.append_assoc,
      List.append_assoc, List.cons_append, List.nil_append]
  | @escaped e d cs ds he _ ih =>
    rw [Quoting.body_eq, List.cons_append, List.cons_append, bump_behind]
    simp only [if_true, bump_behind]
    rw [he, ih]
    simp only [Quoted.push, String.ofList_cons, String.push_eq_append, String.append_assoc,
      List.append_assoc, List.cons_append, List.nil_append]

/-- How the body behind a quote is read. -/
def quotingOf (quote : Char) (start : Cursor) : Quoting :=
  { what := .string, start, closer := quote, interpolates := quote != '\'' }

/-- A string in quotes, with no colon behind it, stands for what its body denotes. -/
theorem tokenAt_quoted {quote : Char} (hquote : quote = '\'' ∨ quote = '"') {cs ds : List Char}
    (h : ∀ start, (quotingOf quote start).Denotes cs ds)
    (hcolon : labelColon after = false) (levels : Nat) (gap : Gap) :
    tokenAt levels gap (behind before (quote :: (cs ++ [quote]) ++ after) m) =
      .ok (⟨.string, String.ofList (quote :: (cs ++ [quote])), byteSize before,
        Text.lineBehind before, Text.columnBehind before, some (String.ofList ds), [], gap⟩,
        behind (before ++ quote :: (cs ++ [quote])) after m) := by
  obtain ⟨segment, hsegment⟩ := exists_tokenAt_eq levels
  have hadvance : (behind before (quote :: (cs ++ [quote]) ++ after) m).advance 1 =
      behind (before ++ [quote]) (cs ++ quote :: after) m := by
    have hone : (behind before ([quote] ++ (cs ++ quote :: after)) m).advance 1 = _ :=
      advance_behind [quote]
    simpa using hone
  have hquotation : tokenWith segment gap (behind before (quote :: (cs ++ [quote]) ++ after) m) =
      (behind before (quote :: (cs ++ [quote]) ++ after) m).quotation segment gap quote := by
    rw [tokenWith, rest_behind]
    rcases hquote with rfl | rfl <;> rfl
  have hcommand : (quote == '\x60') = false := by
    rcases hquote with rfl | rfl <;> rfl
  have hcloser : quote ≠ '\\' ∧ quote ≠ '#' ∧ (none : Option Char) ≠ some quote := by
    rcases hquote with rfl | rfl <;> decide
  have hbody : ∀ start, (quotingOf quote start).body segment 0 {}
      (behind (before ++ [quote]) (cs ++ quote :: after) m) = _ :=
    fun start => body_behind hcloser segment (h start) {}
  rw [hsegment, hquotation, quotation, hadvance]
  simp only [hcommand, Bool.false_eq_true, if_false]
  simp only [quotingOf] at hbody
  rw [hbody]
  have hbehind : before ++ [quote] ++ cs ++ [quote] = before ++ quote :: (cs ++ [quote]) := by simp
  rw [hbehind]
  simp only [bind, Except.bind, rest_behind, hcolon, Bool.and_false, Bool.false_eq_true, if_false]
  rw [between_behind]
  simp [Quoted.value, pure, Except.pure]

/-- A character that stands for itself between single quotes. -/
def isVerbatim (c : Char) : Bool := c != '\'' && c != '\\'

theorem denotes_of_isVerbatim {cs : List Char} (hcs : ∀ c ∈ cs, isVerbatim c = true)
    (start : Cursor) : (quotingOf '\'' start).Denotes cs cs := by
  refine .of_isPlain fun c hc => ?_
  have hverbatim : c ≠ '\'' ∧ c ≠ '\\' := by simpa [isVerbatim] using hcs c hc
  simp [Quoting.isPlain, quotingOf, hverbatim]

/-! ## texts of spellings -/

open Spelling (textOf tokens)

/-- Between the texts `before` and `after`, a scan with the memory `m` reads the spellings
`ls`, and goes on with the memory `n`. -/
def Spelled (before : List Char) (ls : List Spelling) (after : List Char) (m n : Memory) : Prop :=
  (behind before (textOf ls ++ after) m).trace =
    (tokens before ls).map (·, none) ++ (behind (before ++ textOf ls) after n).trace

namespace Spelled

variable {l : Spelling} {ls ls' : List Spelling} {n k : Memory}

theorem nil : Spelled before [] after m m := by simp [Spelled]

/-- Spellings are read one list behind the other. -/
theorem append (h : Spelled before ls (textOf ls' ++ after) m n)
    (h' : Spelled (before ++ textOf ls) ls' after n k) : Spelled before (ls ++ ls') after m k := by
  unfold Spelled at *
  rw [Spelling.textOf_append, List.append_assoc, h, h', Spelling.tokens_append]
  simp

theorem cons (hl : l.text ≠ "")
    (hstep : (behind before (l.chars ++ (textOf ls ++ after)) m).step =
      .token (l.token before) (behind (before ++ l.chars) (textOf ls ++ after) n))
    (h : Spelled (before ++ l.chars) ls after n k) : Spelled before (l :: ls) after m k := by
  have hpos : 0 < l.text.toList.length := by
    rw [List.length_pos_iff, ne_eq, String.toList_eq_nil_iff]
    exact hl
  have hleft : (behind (before ++ l.chars) (textOf ls ++ after) n).left <
      (behind before (l.chars ++ (textOf ls ++ after)) m).left := by
    simp only [left_behind, List.length_append, Spelling.chars]
    omega
  unfold Spelled at *
  rw [Spelling.textOf_cons, List.append_assoc, trace, hstep]
  simp only [hleft, if_true]
  rw [h]
  simp

theorem of_tokenAt (hl : l.text ≠ "")
    (hstart : startsToken (l.text.toList ++ (textOf ls ++ after)) = true)
    (hmark : (l.token before).isPunct "?" = false)
    (htoken : tokenAt interpolationLimit l.lead.gap
      (behind (before ++ l.lead.chars) (l.text.toList ++ (textOf ls ++ after)) m) =
        .ok (l.token before, behind (before ++ l.chars) (textOf ls ++ after) n))
    (h : Spelled (before ++ l.chars) ls after (n.note (l.token before)) k) :
    Spelled before (l :: ls) after m k :=
  cons hl (step_behind hstart hmark htoken) h

variable {lead : Lead}

/-- A brace is read as one. -/
theorem brace (hl : l = .opening lead ∨ l = .closing lead)
    (h : Spelled (before ++ l.chars) ls after (m.note (l.token before)) k) :
    Spelled before (l :: ls) after m k := by
  obtain ⟨c, kind, hc, rfl⟩ : ∃ c kind,
      (c = '{' ∧ kind = .braceOpen ∨ c = '}' ∧ kind = .braceClose) ∧
        l = ⟨lead, kind, String.singleton c, none⟩ := by
    rcases hl with rfl | rfl
    · exact ⟨_, _, .inl ⟨rfl, rfl⟩, rfl⟩
    · exact ⟨_, _, .inr ⟨rfl, rfl⟩, rfl⟩
  have htake : (behind (before ++ lead.chars) ([c] ++ (textOf ls ++ after)) m).take kind
      lead.gap 1 = _ := take_behind [c] ..
  refine of_tokenAt (by simp) ?_ ?_ ?_ h
  · rw [String.toList_singleton]
    rcases hc with ⟨rfl, -⟩ | ⟨rfl, -⟩ <;> exact startsToken_cons (by decide) _
  · rcases hc with ⟨-, rfl⟩ | ⟨-, rfl⟩ <;> rfl
  · simp only [String.toList_singleton, List.singleton_append]
    rw [tokenAt_brace_behind hc, ← List.singleton_append, htake]
    simp [Spelling.token, Spelling.chars]

/-- What is read as punctuation, and as no longer piece of it. -/
theorem mark_of_tokenAt {text : String} (hne : text ≠ "") (hquestion : text ≠ "?")
    (hstart : startsToken (text.toList ++ (textOf ls ++ after)) = true)
    (htoken : ∀ b gap, tokenAt interpolationLimit gap
      (behind b (text.toList ++ (textOf ls ++ after)) m) =
        .ok ((behind b (text.toList ++ (textOf ls ++ after)) m).punctuation gap))
    (hfirst : firstOf ConnectorAudit.punctuation (text.toList ++ (textOf ls ++ after)) = some text)
    (h : Spelled (before ++ (Spelling.mark lead text).chars) ls after
      (m.note ((Spelling.mark lead text).token before)) k) :
    Spelled before (.mark lead text :: ls) after m k := by
  have hmark : ((Spelling.mark lead text).token before).isPunct "?" = false := by
    simp [Spelling.token, Spelling.mark, Token.isPunct, hquestion]
  refine of_tokenAt hne hstart hmark ((htoken _ _).trans ?_) h
  rw [Spelling.mark, punctuation_behind hfirst]
  simp [Spelling.token, Spelling.chars]

/-- A piece of punctuation that no longer one begins with. -/
theorem mark {text : String} {c : Char} (hc : isPlainPunctuation c = true) {cs : List Char}
    (htext : text.toList = c :: cs) (hquestion : text ≠ "?")
    (hstart : startsToken (c :: (cs ++ (textOf ls ++ after))) = true)
    (hfirst : firstOf ConnectorAudit.punctuation (text.toList ++ (textOf ls ++ after)) = some text)
    (h : Spelled (before ++ (Spelling.mark lead text).chars) ls after
      (m.note ((Spelling.mark lead text).token before)) k) :
    Spelled before (.mark lead text :: ls) after m k := by
  have hne : text ≠ "" := by
    rintro rfl
    cases htext
  refine mark_of_tokenAt hne hquestion ?_ (fun b gap => ?_) hfirst h
  · rw [htext]
    exact hstart
  · rw [htext]
    exact tokenAt_punctuation hc ..

/-- An equals sign with a blank behind it. -/
theorem equals {rest : List Char} (hrest : textOf ls ++ after = ' ' :: rest)
    (h : Spelled (before ++ (Spelling.mark lead "=").chars) ls after
      (m.note ((Spelling.mark lead "=").token before)) k) :
    Spelled before (.mark lead "=" :: ls) after m k := by
  refine mark_of_tokenAt (by decide) (by decide) ?_ (fun b gap => ?_) ?_ h
  · exact startsToken_cons (by decide) _
  · rw [hrest]
    exact tokenAt_equals ..
  · rw [hrest]
    rfl

/-- A word with no colon behind it. -/
theorem word {text : String} {kind : Token.Kind} (htext : isWord text.toList = true)
    (hstart : startsToken (text.toList ++ (textOf ls ++ after)) = true)
    (hafter : endsName (textOf ls ++ after) = true)
    (hcolon : labelColon (textOf ls ++ after) = false)
    (hpunct : kind ≠ .punctuation) {loop : Option Nat}
    (hkind : (behind (before ++ lead.chars) (text.toList ++ (textOf ls ++ after)) m).wordKind text =
      (kind, loop))
    (h : Spelled (before ++ (Spelling.word lead kind text).chars) ls after
      ({ m with loopLine := loop : Memory }.note ((Spelling.word lead kind text).token before)) k) :
    Spelled before (.word lead kind text :: ls) after m k := by
  have hne : text ≠ "" := by
    rintro rfl
    cases htext
  obtain ⟨htoken, hchars⟩ := tokenAt_of_isWord htext interpolationLimit lead.gap
  refine of_tokenAt hne hstart ?_ ?_ h
  · simp [Spelling.token, Spelling.word, Token.isPunct, hpunct]
  · have hword := word_behind hchars hafter hcolon lead.gap hkind
    refine htoken.trans ((congrArg _ hword).trans ?_)
    simp [Spelling.token, Spelling.word, Spelling.chars]

/-- A word with a colon behind it. -/
theorem key {name : String} (hname : isWord name.toList = true)
    (hstart : startsToken (name.toList ++ ':' :: (textOf ls ++ after)) = true)
    (hcolon : labelColon (':' :: (textOf ls ++ after)) = true)
    (h : Spelled (before ++ (Spelling.key lead name).chars) ls after
      (m.note ((Spelling.key lead name).token before)) k) :
    Spelled before (.key lead name :: ls) after m k := by
  have htext : (name ++ ":").toList ++ (textOf ls ++ after) =
      name.toList ++ ':' :: (textOf ls ++ after) := by simp
  obtain ⟨htoken, hchars⟩ := tokenAt_of_isWord hname interpolationLimit lead.gap
  refine of_tokenAt (by simp [Spelling.key]) ?_ rfl ?_ h
  · rw [Spelling.key, htext]
    exact hstart
  · rw [Spelling.key, htext]
    refine htoken.trans ?_
    rw [label_behind hchars hcolon]
    simp [Spelling.token, Spelling.chars]

/-- A text that begins with a digit and is all of the numeral that is read there. -/
theorem numeral_of_length {text : String} {c : Char} {cs : List Char}
    (htext : text.toList = c :: cs) (hc : c.isDigit = true)
    (hlength : numeralLength (text.toList ++ (textOf ls ++ after)) = text.toList.length)
    (h : Spelled (before ++ (Spelling.numeral lead text).chars) ls after
      (m.note ((Spelling.numeral lead text).token before)) k) :
    Spelled before (.numeral lead text :: ls) after m k := by
  have hne : text ≠ "" := by
    rintro rfl
    cases htext
  have htoken : tokenAt interpolationLimit lead.gap
      (behind (before ++ lead.chars) (c :: (cs ++ (textOf ls ++ after))) m) = _ :=
    tokenAt_numeral hc ..
  rw [← List.cons_append, ← htext, numeral_behind hlength] at htoken
  refine of_tokenAt hne ?_ rfl (htoken.trans ?_) h
  · rw [Spelling.numeral, htext]
    exact startsToken_cons (contains_eq_false_of_all (by decide) hc) _
  · simp [Spelling.token, Spelling.numeral, Spelling.chars]

/-- Digits with nothing behind them that goes on. -/
theorem numeral {digits : String} (hne : digits ≠ "")
    (hdigits : digits.toList.all Char.isDigit = true)
    (hafter : endsNumeral (textOf ls ++ after) = true)
    (h : Spelled (before ++ (Spelling.numeral lead digits).chars) ls after
      (m.note ((Spelling.numeral lead digits).token before)) k) :
    Spelled before (.numeral lead digits :: ls) after m k := by
  have hsome : digits.toList ≠ [] := by rwa [ne_eq, String.toList_eq_nil_iff]
  obtain ⟨c, cs, hcs⟩ : ∃ c cs, digits.toList = c :: cs := List.exists_cons_of_ne_nil hsome
  rw [List.all_eq_true] at hdigits
  exact numeral_of_length hcs (hdigits c (by simp [hcs]))
    (numeralLength_append hdigits hsome hafter) h

/-- A string in single quotes with no colon behind it. -/
theorem quoted {letters : String} (hletters : letters.toList.all isVerbatim = true)
    (hcolon : labelColon (textOf ls ++ after) = false)
    (h : Spelled (before ++ (Spelling.quoted lead letters).chars) ls after
      (m.note ((Spelling.quoted lead letters).token before)) k) :
    Spelled before (.quoted lead letters :: ls) after m k := by
  have htext : ("'" ++ letters ++ "'").toList = '\'' :: (letters.toList ++ ['\'']) := by simp
  refine of_tokenAt (by simp [Spelling.quoted]) ?_ rfl ?_ h
  · rw [Spelling.quoted, htext]
    exact startsToken_cons (by decide) _
  · rw [Spelling.quoted, htext]
    refine (tokenAt_quoted (.inl rfl) (denotes_of_isVerbatim (List.all_eq_true.1 hletters))
      hcolon ..).trans ?_
    simp [Spelling.token, Spelling.chars, String.append_assoc]

end Spelled

/-! ## whole texts -/

theorem ofCursor_ofSource (source : String) :
    ofCursor (.ofSource source) = behind [] source.toList {} := rfl

theorem skipTrivia_behind_nil (gap : Gap) :
    (behind before [] m).skipTrivia gap = (gap, behind before [] m) := by
  rw [skipTrivia_eq, bump_behind_nil]

/-- Where blanks lead to the end, there is no token. -/
theorem trace_eq_nil {gap : Gap} {before' : List Char}
    (h : (behind before after m).skipTrivia = (gap, behind before' [] m)) :
    (behind before after m).trace = [] := by
  have hstep : (behind before after m).step = .done := by
    unfold step
    rw [h]
    simp
  rw [trace, hstep]

/-- At the end there is nothing to read. -/
theorem trace_behind_nil : (behind before [] m).trace = [] :=
  trace_eq_nil (skipTrivia_behind_nil {})

theorem trace_behind_newline : (behind before ['\n'] m).trace = [] := by
  have hskip : (behind before ['\n'] m).skipTrivia =
      ({ space := true, newline := true }, behind (before ++ ['\n']) [] m) := by
    rw [skipTrivia_eq, bump_behind]
    simp [skipTrivia_behind_nil]
  exact trace_eq_nil hskip

end Reader

namespace Token

open Spelling (textOf tokens)

variable {source : String} {ls : List Spelling} {rest : List Char} {n : Reader.Memory}

/-- A scan reads what is spelled at the front, and then the rest. -/
theorem trace_of_spelled (hsource : source.toList = textOf ls ++ rest)
    (h : Reader.Spelled [] ls rest {} n) :
    trace source = (tokens [] ls).map (·, none) ++ (Reader.behind (textOf ls) rest n).trace := by
  rw [trace, Reader.ofCursor_ofSource, hsource, h, List.nil_append]

/-- Spellings in front of a text are read into their tokens, whatever follows. -/
theorem exists_scanLossy_eq (hsource : source.toList = textOf ls ++ rest)
    (h : Reader.Spelled [] ls rest {} n) : ∃ more, (scanLossy source).1 = tokens [] ls ++ more := by
  refine ⟨(Reader.behind (textOf ls) rest n).trace.map Prod.fst, ?_⟩
  rw [scanLossy_eq, trace_of_spelled hsource h]
  simp [Function.comp_def]

/-- A text of spellings, with nothing to read behind it, holds just their tokens. -/
theorem scan_of_spelled_append (hsource : source.toList = textOf ls ++ rest)
    (h : Reader.Spelled [] ls rest {} n) (hrest : (Reader.behind (textOf ls) rest n).trace = []) :
    scan source = .ok (tokens [] ls) ∧ scanLossy source = (tokens [] ls, []) := by
  have htrace : trace source = (tokens [] ls).map (·, none) := by
    rw [trace_of_spelled hsource h, hrest, List.append_nil]
  have htokens : ((tokens [] ls).map fun t => (t, (none : Option Fault))).map Prod.fst =
      tokens [] ls := by
    simp [Function.comp_def]
  have hfaults : ((tokens [] ls).map fun t => (t, (none : Option Fault))).filterMap Prod.snd =
      [] := by
    simp
  constructor
  · rw [scan_eq, htrace, hfaults, htokens]
    rfl
  · rw [scanLossy_eq, htrace, hfaults, htokens]

/-- A text of spellings, and nothing else, holds just their tokens. -/
theorem scan_of_spelled (hsource : source.toList = textOf ls) (h : Reader.Spelled [] ls [] {} n) :
    scan source = .ok (tokens [] ls) ∧ scanLossy source = (tokens [] ls, []) :=
  scan_of_spelled_append (by rw [hsource, List.append_nil]) h Reader.trace_behind_nil

end Token

end ConnectorAudit
