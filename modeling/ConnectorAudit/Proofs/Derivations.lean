import ConnectorAudit.Proofs.Spellings
import ConnectorAudit.Tree.Parse

/-!
# Derivations

From a derivation back to the parse: tokens that the grammar derives in the plain
way are read so, whatever follows them, as long as it does not go on with them.
`Accepts` says that of a rule.  There is a lemma for each way to put tokens
together that is used here, and each goes up as many levels as the way needs.

* `accepts_operand_hash`, `accepts_operand_body`, `accepts_operand_each`: what has a body;
* `accepts_expression`: an operand that nothing is joined to;
* `accepts_entry_label`: an entry of a hash;
* `Parsed.ofSource_of_accepts`: a source with one statement.
-/

namespace ConnectorAudit

/-! ## places -/

namespace Progress

/-- The place before the tokens `ts`. -/
def before (ts : List Token) (last : Span) (notes : List String) : Progress :=
  { feed := .ofList ts, last, notes }

variable {t : Token} {ts : List Token} {last : Span} {notes : List String}

@[simp]
theorem next?_before_cons :
    (before (t :: ts) last notes).next? = some (t, before ts t.span notes) := by
  simp [next?, before]

@[simp]
theorem peek?_before : (before ts last notes).peek? = ts.head? := rfl

@[simp]
theorem peekSecond?_before : (before ts last notes).peekSecond? = ts.tail.head? := rfl

@[simp]
theorem left_before : (before ts last notes).left = ts.length := rfl

@[simp]
theorem skip_before_cons : (before (t :: ts) last notes).skip = before ts t.span notes := by
  simp [skip]

/-- A closer that is expected is passed. -/
theorem expect_before {c : Closer} (h : c.matches t = true) :
    (before (t :: ts) last notes).expect c = .ok (before ts t.span notes) := by
  simp [expect, h]

end Progress

open Progress (before)

/-! ## what goes on -/

namespace Token

/-- A token that clings to the operand before it. -/
def clings (t : Token) : Bool :=
  t.isPunct "." || t.isPunct "&." || (t.isPunct "::" && t.isGlued) ||
    (t.isPunct "[" && t.isGlued) ||
    (!t.gap.newline && (t.kind == .braceOpen || (t.kind == .blockStart && t.text == "do")))

/-- A `do` that opens a block for what stands before it. -/
def opensDo (t : Token) : Bool := t.kind == .blockStart && t.text == "do" && !t.gap.newline

end Token

/-- Tokens that begin the arguments of the name before them. -/
def beginArguments : List Token → Bool
  | [] => false
  | t :: ts => t.opensArguments || t.startsArgument ts.head?

/-- Tokens that do not go on with the operand before them. -/
def endsOperand (ts : List Token) : Bool :=
  !beginArguments ts && ts.head?.all fun t => !t.clings && (t.kind != .string || t.gap.newline)

/-- Tokens that do not go on with the expression before them. -/
def endsExpression (ctx : Context) (ts : List Token) : Bool :=
  endsOperand ts && ts.head?.all fun t => t.gap.newline || !t.isBinary ctx

/-- What ends an expression ends an operand. -/
theorem endsOperand_of_endsExpression {ctx : Context} {ts : List Token}
    (h : endsExpression ctx ts = true) : endsOperand ts = true := by
  simp only [endsExpression, Bool.and_eq_true] at h
  exact h.1

/-- On a new line nothing but a mark goes on with an operand. -/
theorem endsOperand_of_newline {t : Token} (hline : t.gap.newline = true)
    (hkind : t.kind ≠ .punctuation) (ts : List Token) : endsOperand (t :: ts) = true := by
  simp [endsOperand, beginArguments, Token.clings, Token.opensArguments, Token.startsArgument,
    Token.isPunct, hline, hkind]

/-- On a new line nothing but a mark goes on with an expression. -/
theorem endsExpression_of_newline {t : Token} (hline : t.gap.newline = true)
    (hkind : t.kind ≠ .punctuation) (ctx : Context) (ts : List Token) :
    endsExpression ctx (t :: ts) = true := by
  simp [endsExpression, endsOperand_of_newline hline hkind, hline]

namespace Level

variable {α : Type} {below : Level} {ctx : Context} {inCommand : Bool} {tree : Tree}
  {t u : Token} {ts rest : List Token} {last : Span} {notes : List String}

/-- The rule reads something good off the tokens `ts` if `rest` follows, and notes nothing. -/
def Accepts (rule : Rule α) (good : α → Prop) (ts rest : List Token) : Prop :=
  ∀ last notes, ∃ a last',
    rule (before (ts ++ rest) last notes) = .ok (a, before rest last' notes) ∧ good a

/-- A weaker description of the result is met as well. -/
theorem Accepts.mono {rule : Rule α} {good good' : α → Prop} (h : Accepts rule good ts rest)
    (hgood : ∀ a, good a → good' a) : Accepts rule good' ts rest := by
  intro last notes
  obtain ⟨a, last', hok, ha⟩ := h last notes
  exact ⟨a, last', hok, hgood a ha⟩

theorem Accepts.any {rule : Rule α} {good : α → Prop} (h : Accepts rule good ts rest) :
    Accepts rule (fun _ => True) ts rest :=
  h.mono fun _ _ => trivial

/-! ## operands -/

/-- What clings to a tree is read piece by piece. -/
theorem clinging_of_cling? {p q : Progress} {tree' : Tree}
    (h : cling? below inCommand tree p = .ok (some (tree', q))) (hleft : q.left < p.left) :
    clinging below inCommand tree p = clinging below inCommand tree' q := by
  rw [clinging, clingLoop, h]
  simp only [hleft, if_true]
  rfl

/-- Nothing clings where the operand ends. -/
theorem clinging_before (hrest : endsOperand rest = true) :
    clinging below inCommand tree (before rest last notes) =
      .ok (tree, before rest last notes) := by
  have hcling : cling? below inCommand tree (before rest last notes) = .ok none := by
    cases rest with
    | nil => rfl
    | cons t rest =>
      simp only [endsOperand, Token.clings, List.head?_cons, Option.all_some, Bool.and_eq_true,
        Bool.not_eq_true', Bool.or_eq_false_iff] at hrest
      obtain ⟨-, ⟨⟨⟨⟨hdot, hsafe⟩, hpath⟩, hindex⟩, hblock⟩, -⟩ := hrest
      have hopens : (!t.gap.newline &&
          (t.kind == .braceOpen || (t.kind == .blockStart && t.text == "do" && !inCommand)) &&
            acceptsBlock tree) = false := by
        grind
      simp only [cling?, Progress.next?_before_cons, hdot, hsafe, hpath, hindex, hopens,
        Bool.or_self, Bool.false_eq_true, if_false]
  rw [clinging, clingLoop, hcling]

/-- There are no arguments where none begin. -/
theorem arguments?_before (hrest : beginArguments rest = false) :
    arguments? below (before rest last notes) = .ok (none, before rest last notes) := by
  cases rest with
  | nil => rfl
  | cons t rest =>
    simp only [beginArguments, Bool.or_eq_false_iff] at hrest
    simp [arguments?, Progress.argumentFollows, hrest]
    rfl

/-- What ends an operand begins no arguments. -/
theorem beginArguments_of_endsOperand (hrest : endsOperand rest = true) :
    beginArguments rest = false := by
  simp only [endsOperand, Bool.and_eq_true, Bool.not_eq_true'] at hrest
  exact hrest.1

/-- Digits that end an operand are a number. -/
theorem accepts_operand_numeral (hkind : t.kind = .numeral) (hnested : t.nested = [])
    (hrest : endsOperand rest = true) :
    Accepts (operandAbove below ctx) (· = .leaf (.literal (.number t.text)) t.span) [t] rest := by
  intro last notes
  refine ⟨_, t.span, ?_, rfl⟩
  have hcloser : t.isCloser = false := by simp [Token.isCloser, Token.isPunct, hkind]
  have hliteral : literal below t (before rest t.span notes) =
      .ok (.leaf (.literal (.number t.text)) t.span, before rest t.span notes) := by
    simp [literal, interpolated, literalOf, hnested, hkind, bind, Except.bind]
    rfl
  simp only [operandAbove, List.singleton_append, Progress.next?_before_cons, hcloser, hkind,
    hliteral, Bool.false_eq_true, if_false, bind, Except.bind]
  exact clinging_before hrest

/-- A string that ends an operand is its value. -/
theorem accepts_operand_string {value : String} (hkind : t.kind = .string) (hnested : t.nested = [])
    (hvalue : t.value = some value) (hrest : endsOperand rest = true) :
    Accepts (operandAbove below ctx) (· = .leaf (.literal (.string value)) t.span) [t] rest := by
  intro last notes
  refine ⟨_, t.span, ?_, rfl⟩
  have hcloser : t.isCloser = false := by simp [Token.isCloser, Token.isPunct, hkind]
  have hloop : stringLoop below (.string value) t.span [] (before rest t.span notes) =
      .ok (.leaf (.literal (.string value)) t.span, before rest t.span notes) := by
    cases rest with
    | nil =>
      rw [stringLoop]
      rfl
    | cons u rest =>
      have hu : ¬(u.kind = .string ∧ ¬u.gap.newline) := by
        simp only [endsOperand, List.head?_cons, Option.all_some, Bool.and_eq_true, Bool.or_eq_true,
          bne_iff_ne] at hrest
        grind
      rw [stringLoop]
      split
      · rfl
      · next heq =>
        rw [Progress.next?_before_cons, Option.some.injEq, Prod.mk.injEq] at heq
        obtain ⟨rfl, rfl⟩ := heq
        rw [if_neg hu]
        rfl
  have hliteral : literal below t (before rest t.span notes) =
      .ok (.leaf (.literal (.string value)) t.span, before rest t.span notes) := by
    simp [literal, interpolated, literalOf, hnested, hkind, hvalue, bind, Except.bind]
    exact hloop
  simp only [operandAbove, List.singleton_append, Progress.next?_before_cons, hcloser, hkind,
    hliteral, Bool.false_eq_true, if_false, bind, Except.bind]
  exact clinging_before hrest

/-- Words that stand for a value or a jump, and are no names. -/
def reservedWords : List String := ["nil", "true", "false", "return", "next", "break", "not"]

/-- A name without arguments is an identifier. -/
theorem named_before (hrest : beginArguments rest = false) :
    named below t (before rest last notes) =
      .ok (.leaf (.identifier t.text) t.span, before rest last notes) := by
  simp [named, arguments?_before hrest, bind, Except.bind]
  rfl

/-- A word that is not reserved is read as a name. -/
theorem word_of_not_mem (hword : t.text ∉ reservedWords) (p : Progress) :
    word below ctx t p = (do
      let (tree, p) ← named below t p
      clinging below ctx.inCommand tree p) := by
  unfold word
  split <;> simp_all [reservedWords]

/-- An operand that begins with such a word is a name with what clings to it. -/
theorem operandAbove_word (hkind : t.kind = .identifier) (hword : t.text ∉ reservedWords) :
    operandAbove below ctx (before (t :: ts) last notes) = (do
      let (tree, p) ← named below t (before ts t.span notes)
      clinging below ctx.inCommand tree p) := by
  have hcloser : t.isCloser = false := by simp [Token.isCloser, Token.isPunct, hkind]
  simp only [operandAbove, Progress.next?_before_cons, hcloser, hkind, Bool.false_eq_true, if_false]
  exact word_of_not_mem hword _

/-- A name that ends an operand is an identifier. -/
theorem accepts_operand_name (name : String) (hkind : t.kind = .identifier) (htext : t.text = name)
    (hword : name ∉ reservedWords) (hrest : endsOperand rest = true) :
    Accepts (operandAbove below ctx) (· = .leaf (.identifier name) t.span) [t] rest := by
  subst htext
  intro last notes
  refine ⟨_, t.span, ?_, rfl⟩
  rw [List.singleton_append, operandAbove_word hkind hword,
    named_before (beginArguments_of_endsOperand hrest)]
  exact clinging_before hrest

/-- A call with its arguments in parentheses. -/
theorem accepts_operand_call (name : String) (hkind : t.kind = .identifier)
    (htext : t.text = name) (hword : name ∉ reservedWords) (hu : u.opensArguments = true)
    (hargs : Accepts (below.entries (some .paren)) (fun _ => True) ts rest)
    (hrest : endsOperand rest = true) :
    Accepts (operandAbove below ctx) (fun _ => True) (t :: u :: ts) rest := by
  subst htext
  intro last notes
  obtain ⟨entries, last', hentries, -⟩ := hargs u.span notes
  have harguments : arguments? below (before (u :: (ts ++ rest)) t.span notes) =
      .ok (some (collectArguments [] entries), before rest last' notes) := by
    simp [arguments?, hu, hentries, bind, Except.bind]
    rfl
  refine ⟨.ofCall t.text none (collectArguments [] entries) none (t.span.through last'), last', ?_,
    trivial⟩
  rw [List.cons_append, List.cons_append, operandAbove_word hkind hword, named, harguments]
  exact clinging_before hrest

/-- Pairs give rise to no hint. -/
theorem noteKeyless_of_pairs {entries : List Entry} (h : ∀ e ∈ entries, ∃ tree, e = .pair tree)
    (p : Progress) : noteKeyless entries p = p := by
  induction entries with
  | nil => rfl
  | cons e entries ih =>
    obtain ⟨⟨tree, rfl⟩, hentries⟩ := List.forall_mem_cons.1 h
    exact ih hentries

/-- A hash of pairs. -/
theorem accepts_operand_hash {good : List Tree → Prop} (hkind : t.kind = .braceOpen)
    (hbar : (ts ++ rest).head?.all fun u => !u.isPunct "|" && !u.isPunct "||")
    (hentries : Accepts (below.entries (some .brace))
      (fun entries => ∃ trees, entries = trees.map .pair ∧ good trees) ts rest)
    (hrest : endsOperand rest = true) :
    Accepts (operandAbove below ctx) (fun tree => tree.kind = .hash ∧ good tree.children) (t :: ts)
      rest := by
  intro last notes
  obtain ⟨entries, last', hok, trees, rfl, hgood⟩ := hentries t.span notes
  have hcloser : t.isCloser = false := by simp [Token.isCloser, Token.isPunct, hkind]
  have hnote : noteKeyless (trees.map .pair) (before rest last' notes) =
      before rest last' notes := by
    refine noteKeyless_of_pairs (fun e he => ?_) _
    obtain ⟨tree, -, rfl⟩ := List.mem_map.1 he
    exact ⟨tree, rfl⟩
  have htrees : (trees.map Entry.pair).map Entry.tree = trees := by
    simp [Function.comp_def, Entry.tree]
  have hbraced : braced below t (before (ts ++ rest) t.span notes) =
      .ok (⟨.hash, t.span.through last', trees⟩, before rest last' notes) := by
    have hpeek : ((ts ++ rest).head?.any fun u => u.isPunct "|" || u.isPunct "||") = false := by
      cases h : (ts ++ rest).head? with
      | none => rfl
      | some u =>
        rw [h] at hbar
        simpa using hbar
    simp only [braced, Progress.peek?_before, hpeek, Bool.false_eq_true, if_false, hok, bind,
      Except.bind, hnote, htrees]
    rfl
  refine ⟨⟨.hash, t.span.through last', trees⟩, last', ?_, rfl, hgood⟩
  simp only [operandAbove, List.cons_append, Progress.next?_before_cons, hcloser, hkind, hbraced,
    Bool.false_eq_true, if_false, bind, Except.bind]
  exact clinging_before hrest

/-- A body between its keyword and its `end`. -/
theorem accepts_operand_body (hkind : t.kind = .blockStart)
    (htext : t.text ≠ "do" ∧ t.text ≠ "def") (hu : u.kind = .blockEnd)
    (hbody : Accepts (below.statements .keyword) (fun _ => True) ts (u :: rest))
    (hrest : endsOperand rest = true) :
    Accepts (operandAbove below ctx) (fun _ => True) (t :: (ts ++ [u])) rest := by
  intro last notes
  obtain ⟨body, last', hok, -⟩ := hbody t.span notes
  have hcloser : t.isCloser = false := by simp [Token.isCloser, Token.isPunct, hkind]
  have hmatches : Closer.matches .keyword u = true := by simp [Closer.matches, hu]
  have hkeyword : keywordBody below ctx.inCommand t (before (ts ++ u :: rest) t.span notes) =
      .ok (⟨.group, t.span.through u.span, body⟩, before rest u.span notes) := by
    simp only [keywordBody, htext, if_false, Bool.false_eq_true, hok, bind, Except.bind,
      Progress.expect_before hmatches]
    rfl
  refine ⟨⟨.group, t.span.through u.span, body⟩, u.span, ?_, trivial⟩
  rw [List.cons_append, List.append_assoc, List.singleton_append]
  simp only [operandAbove, Progress.next?_before_cons, hcloser, hkind, hkeyword, Bool.false_eq_true,
    if_false, bind, Except.bind]
  exact clinging_before hrest

/-! ## blocks -/

/-- One token of a list of parameters, and then the rest of the list. -/
theorem parameters_before_cons (terminator : String) (ps : Parameters) :
    parameters terminator ps (before (t :: ts) last notes) =
      if ps.nesting = 0 ∧ t.isPunct terminator then .ok (ps.finish.done, before ts t.span notes)
      else if ps.nesting = 0 ∧ t.isCloser then (before (t :: ts) last notes).failAt t .parameterEnd
      else parameters terminator (ps.take t) (before ts t.span notes) := by
  rw [parameters]
  split
  · next heq => cases heq
  · next heq =>
    rw [Progress.next?_before_cons, Option.some.injEq, Prod.mk.injEq] at heq
    obtain ⟨rfl, rfl⟩ := heq
    rfl

/-- A bar begins the parameters of a block. -/
theorem blockParameters_before_bar (ht : t.isPunct "|" = true) :
    blockParameters (before (t :: ts) last notes) = parameters "|" {} (before ts t.span notes) := by
  have htext : t.kind = .punctuation ∧ t.text = "|" := by simpa [Token.isPunct] using ht
  have hbars : t.isPunct "||" = false := by simp [Token.isPunct, htext]
  simp only [blockParameters, Progress.next?_before_cons, hbars, ht, Bool.false_eq_true, if_false,
    if_true]

/-- The tokens are the head of a block: its parameters between bars. -/
def Bars (bars : List Token) (params : List String) : Prop :=
  ∀ ts last notes, ∃ last', blockParameters (before (bars ++ ts) last notes) =
    .ok (params, before ts last' notes)

/-- The head of a block with one parameter: its name between bars. -/
inductive BarredName : List Token → String → Prop
  | mk {t u v : Token} (ht : t.isPunct "|" = true) (hu : u.kind = .identifier) (hne : u.text ≠ "")
    (hv : v.isPunct "|" = true) : BarredName [t, u, v] u.text

/-- A name between bars is a list of one parameter. -/
theorem BarredName.bars {bars : List Token} {name : String} (h : BarredName bars name) :
    Bars bars [name] := by
  intro ts last notes
  cases h with
  | @mk t u v ht hu hne hv =>
    have hname : u.isPunct "|" = false ∧ u.isCloser = false := by
      simp [Token.isCloser, Token.isPunct, hu]
    have htake : Parameters.take {} u = { current := u.text } := by
      simp [Parameters.take, Parameters.add, hu]
    refine ⟨v.span, ?_⟩
    simp only [List.cons_append, List.nil_append, blockParameters_before_bar ht,
      parameters_before_cons, hname, htake, hv, Bool.false_eq_true, and_false, and_self, if_false,
      if_true]
    simp [Parameters.finish, hne]

/-- A `do` begins no arguments. -/
theorem beginArguments_of_opensDo (ht : t.opensDo = true) (ts : List Token) :
    beginArguments (t :: ts) = false := by
  simp only [Token.opensDo, Bool.and_eq_true, beq_iff_eq] at ht
  simp [beginArguments, Token.opensArguments, Token.startsArgument, Token.isPunct, ht]

/-- A block between `do` and `end` clings to what accepts one. -/
theorem clinging_do {good : List Tree → Prop} (tree : Tree) (last : Span) (notes : List String)
    {bars : List Token} {params : List String}
    (ht : t.opensDo = true)
    (htree : acceptsBlock tree = true) (hbars : Bars bars params) (hu : u.kind = .blockEnd)
    (hbody : Accepts (below.statements .keyword) good ts (u :: rest))
    (hrest : endsOperand rest = true) :
    ∃ body, good body ∧
      clinging below false tree (before (t :: (bars ++ (ts ++ u :: rest))) last notes) =
        .ok (withBlock tree params body (t.span.through u.span) (tree.span.through u.span),
          before rest u.span notes) := by
  obtain ⟨hkind, htext, hline⟩ : t.kind = .blockStart ∧ t.text = "do" ∧ t.gap.newline = false := by
    simpa [Token.opensDo, and_assoc] using ht
  have hpunct : ∀ text, t.isPunct text = false := by simp [Token.isPunct, hkind]
  obtain ⟨last', hparams⟩ := hbars (ts ++ u :: rest) t.span notes
  obtain ⟨body, last'', hok, hgood⟩ := hbody last' notes
  have hmatches : Closer.matches .keyword u = true := by simp [Closer.matches, hu]
  have hattach : attachBlock below tree t (before (bars ++ (ts ++ u :: rest)) t.span notes) =
      .ok (withBlock tree params body (t.span.through u.span) (tree.span.through u.span),
        before rest u.span notes) := by
    simp only [attachBlock, hkind, reduceCtorEq, if_false, blockRest, hparams, hok, bind,
      Except.bind, Progress.expect_before hmatches]
    rfl
  have hcling : cling? below false tree (before (t :: (bars ++ (ts ++ u :: rest))) last notes) =
      .ok (some (withBlock tree params body (t.span.through u.span) (tree.span.through u.span),
        before rest u.span notes)) := by
    simp only [cling?, Progress.next?_before_cons, hpunct, hkind, htext, hline, htree, hattach]
    rfl
  refine ⟨body, hgood, ?_⟩
  rw [clinging_of_cling? hcling (by simp; omega)]
  exact clinging_before hrest

/-- A lambda with its body between `do` and `end`. -/
theorem accepts_operand_lambda {good : List Tree → Prop} {bars : List Token}
    {params : List String} {d : Token} (hctx : ctx.inCommand = false)
    (ht : t.isName "lambda" = true) (hd : d.opensDo = true)
    (hbars : Bars bars params) (hu : u.kind = .blockEnd)
    (hbody : Accepts (below.statements .keyword) good ts (u :: rest))
    (hrest : endsOperand rest = true) {span : Span} (hspan : t.span.through u.span = span) :
    Accepts (operandAbove below ctx)
      (fun tree => ∃ body, tree = ⟨.callable params, span, body⟩ ∧ good body)
      (t :: d :: (bars ++ (ts ++ [u]))) rest := by
  subst hspan
  intro last notes
  obtain ⟨htkind, httext⟩ : t.kind = .identifier ∧ t.text = "lambda" := by
    simpa [Token.isName] using ht
  have hword : t.text ∉ reservedWords := by simp [httext, reservedWords]
  have hbegin := beginArguments_of_opensDo hd
  obtain ⟨body, hgood, hcling⟩ := clinging_do (.leaf (.identifier t.text) t.span) t.span notes hd
    rfl hbars hu hbody hrest
  refine ⟨⟨.callable params, t.span.through u.span, body⟩, u.span, ?_, body, rfl, hgood⟩
  simp only [List.cons_append, List.append_assoc, List.nil_append]
  rw [operandAbove_word htkind hword, named_before (hbegin _)]
  simp only [bind, Except.bind, hctx]
  rw [hcling]
  simp [withBlock, makesCallable, Tree.leaf, httext]

/-- A call on a name, with a block between `do` and `end`. -/
theorem accepts_operand_each (receiver : String) {bars : List Token} {params : List String}
    {dot m d : Token} (hctx : ctx.inCommand = false) (ht : t.kind = .identifier)
    (htext : t.text = receiver) (hword : receiver ∉ reservedWords) (hdot : dot.isPunct "." = true)
    (hm : m.kind = .identifier) (hd : d.opensDo = true) (hbars : Bars bars params)
    (hu : u.kind = .blockEnd)
    (hbody : Accepts (below.statements .keyword) (fun _ => True) ts (u :: rest))
    (hrest : endsOperand rest = true) :
    Accepts (operandAbove below ctx) (fun _ => True) (t :: dot :: m :: d :: (bars ++ (ts ++ [u])))
      rest := by
  subst htext
  intro last notes
  have hbegin := beginArguments_of_opensDo hd
  have hbegin' : ∀ vs, beginArguments (dot :: vs) = false := by
    obtain ⟨hdot, hpoint⟩ : dot.kind = .punctuation ∧ dot.text = "." := by
      simpa [Token.isPunct] using hdot
    simp [beginArguments, Token.opensArguments, Token.startsArgument, Token.isPunct, hdot, hpoint]
  have hpunct : ∀ text, m.isPunct text = false := by simp [Token.isPunct, hm]
  let receiver : Tree := .leaf (.identifier t.text) t.span
  let call : Tree := .ofCall m.text (some receiver) [] none (receiver.span.through m.span)
  obtain ⟨body, -, hblock⟩ :=
    clinging_do call m.span notes hd rfl hbars hu hbody hrest
  have hcling : cling? below false receiver
      (before (dot :: m :: d :: (bars ++ (ts ++ u :: rest))) t.span notes) =
        .ok (some (call, before (d :: (bars ++ (ts ++ u :: rest))) m.span notes)) := by
    simp only [cling?, Progress.next?_before_cons, hdot, Bool.true_or, if_true, methodCall,
      methodName, hpunct, Bool.false_and, Bool.false_eq_true, if_false, hm, bind, Except.bind,
      arguments?_before (hbegin _)]
    rfl
  refine ⟨withBlock call params body (d.span.through u.span) (call.span.through u.span), u.span, ?_,
    trivial⟩
  simp only [List.cons_append, List.append_assoc, List.nil_append]
  rw [operandAbove_word ht hword, named_before (hbegin' _)]
  simp only [bind, Except.bind, hctx]
  rw [clinging_of_cling? hcling (by simp), hblock]

/-! ## expressions -/

/-- Operands end where the expression does. -/
theorem operandLoop_before (operand : Rule Tree) (done : List Tree)
    (hrest : endsExpression ctx rest = true) :
    operandLoop operand ctx done (before rest last notes) =
      .ok (done.reverse, before rest last notes) := by
  rw [operandLoop]
  cases rest with
  | nil => rfl
  | cons t rest =>
    simp only [endsExpression, List.head?_cons, Option.all_some, Bool.and_eq_true] at hrest
    simp [hrest.2]

/-- An operand that nothing is joined to. -/
theorem accepts_expression {good : Tree → Prop} (h : Accepts (below.operand ctx) good ts rest)
    (hrest : endsExpression ctx rest = true) :
    Accepts (expressionAbove below ctx) good ts rest := by
  intro last notes
  obtain ⟨tree, last', hok, hgood⟩ := h last notes
  refine ⟨tree, last', ?_, hgood⟩
  simp only [expressionAbove, hok, bind, Except.bind, operandLoop_before _ _ hrest]
  rfl

/-- Two operands with an operator between them. -/
theorem accepts_expression_joined {us : List Token} {v : Token}
    (h : Accepts (below.operand ctx) (fun _ => True) [t] (u :: v :: us ++ rest))
    (hline : u.gap.newline = false) (hu : u.isBinary ctx = true)
    (hv : v.isCloser = false ∧ v.isPunct ";" = false)
    (h' : Accepts (below.operand ctx) (fun _ => True) (v :: us) rest)
    (hrest : endsExpression ctx rest = true) :
    Accepts (expressionAbove below ctx) (fun _ => True) (t :: u :: v :: us) rest := by
  intro last notes
  obtain ⟨first, last₁, hfirst, -⟩ := h last notes
  obtain ⟨second, last₂, hsecond, -⟩ := h' u.span notes
  have hloop : operandLoop (below.operand ctx) ctx [] (before (u :: v :: us ++ rest) last₁ notes) =
      .ok ([second], before rest last₂ notes) := by
    rw [operandLoop]
    simp only [List.cons_append] at hsecond
    simp [hline, hu, hv, hsecond, operandLoop_before _ _ hrest]
  refine ⟨⟨.group, first.span.through last₂, [first, second]⟩, last₂, ?_, trivial⟩
  rw [List.singleton_append] at hfirst
  rw [List.cons_append]
  simp only [expressionAbove, hfirst, hloop, bind, Except.bind]
  rfl

/-! ## entries -/

/-- A label and its value. -/
theorem accepts_entry_label {good : Tree → Prop} {name : String} (hkind : t.kind = .label)
    (hvalue : t.value = some name) (hu : u.isPunct "," = false ∧ u.isCloser = false)
    (h : Accepts (below.expression (.argument inCommand)) good (u :: ts) rest) :
    Accepts (entryAbove below inCommand)
      (fun e => ∃ value, good value ∧
        e = .pair (.ofPair (.leaf (.literal (.symbol name)) t.span) value))
      (t :: u :: ts) rest := by
  intro last notes
  obtain ⟨value, last', hok, hgood⟩ := h t.span notes
  refine ⟨_, last', ?_, value, hgood, rfl⟩
  simp only [List.cons_append] at hok ⊢
  simp only [entryAbove, Progress.next?_before_cons, hkind, if_true, hvalue, Option.getD_some,
    Progress.peek?_before, List.head?_cons, Option.all_some, hu, Bool.or_self, Bool.false_eq_true,
    if_false, hok, bind, Except.bind]
  rfl

/-- A value without a key. -/
theorem accepts_entry_positional (ht : t.kind ≠ .label)
    (hrest : rest.head?.any (·.isPunct "=>") = false)
    (h : Accepts (below.expression (.argument inCommand)) (fun _ => True) (t :: ts) rest) :
    Accepts (entryAbove below inCommand) (fun _ => True) (t :: ts) rest := by
  intro last notes
  obtain ⟨value, last', hok, -⟩ := h last notes
  refine ⟨.positional value, last', ?_, trivial⟩
  simp only [List.cons_append] at hok ⊢
  simp only [entryAbove, Progress.next?_before_cons, ht, if_false, hok, bind, Except.bind,
    Progress.peek?_before, hrest, Bool.false_eq_true]
  rfl

/-- What closes nothing is not the closer that is waited for. -/
theorem matches_of_not_isCloser {c : Closer} (ht : t.isCloser = false) : c.matches t = false := by
  simp only [Token.isCloser, Bool.or_eq_false_iff] at ht
  cases c <;> simp [Closer.matches, ht]

section loops

variable {entry : Rule Entry} {expression : Rule Tree} {c : Closer}

/-- Entries end at their closer. -/
theorem entryLoop_close {done : List Entry} (ht : c.matches t = true) :
    entryLoop entry (some c) done (before (t :: rest) last notes) =
      .ok (done.reverse, before rest t.span notes) := by
  rw [entryLoop]
  simp [entriesEnd?, ht]

/-- An entry is taken along, and the loop goes on behind the comma or before the closer. -/
theorem entryLoop_cons {good : Entry → Prop} {next : List Token} (done : List Entry)
    (last : Span) (notes : List String) (hu : u.isCloser = false)
    (h : Accepts entry good (u :: ts) rest)
    (hnext : (∃ t, rest = t :: next ∧ t.isPunct "," = true) ∨
      (∃ t vs, rest = t :: vs ∧ t.isPunct "," = false ∧ c.matches t = true) ∧ next = rest) :
    ∃ e last', good e ∧ entryLoop entry (some c) done (before (u :: ts ++ rest) last notes) =
      entryLoop entry (some c) (e :: done) (before next last' notes) := by
  obtain ⟨e, last₁, hok, hgood⟩ := h last notes
  obtain ⟨last', hafter, hlength⟩ : ∃ last',
      afterEntry (some c) (before rest last₁ notes) = .ok (true, before next last' notes) ∧
        next.length ≤ rest.length := by
    rcases hnext with ⟨t, rfl, ht⟩ | ⟨⟨t, vs, rfl, ht, hc⟩, rfl⟩
    · exact ⟨t.span, by simp [afterEntry, ht], by simp⟩
    · exact ⟨last₁, by simp [afterEntry, ht, hc], Nat.le_refl _⟩
  refine ⟨e, last', hgood, ?_⟩
  have hend : entriesEnd? (some c) (before (u :: ts ++ rest) last notes) = .ok none := by
    simp [entriesEnd?, matches_of_not_isCloser hu, hu]
  have hless : (before next last' notes).left < (before (u :: ts ++ rest) last notes).left := by
    simp
    omega
  rw [entryLoop, hend]
  simp only [hok, hafter, hless, decide_true, Bool.and_self, if_true]

/-- One token between its brackets. -/
theorem accepts_entries_one {v : Token} (ht : t.isCloser = false) (hlabel : t.kind ≠ .label)
    (hv : v.isPunct "," = false ∧ v.isPunct "=>" = false) (hc : c.matches v = true)
    (h : Accepts (below.expression (.argument false)) (fun _ => True) [t] (v :: rest)) :
    Accepts (entryLoop (entryAbove below false) (some c) []) (fun _ => True) [t, v] rest := by
  intro last notes
  have hentry := accepts_entry_positional hlabel (by simp [hv]) h
  obtain ⟨e, last', -, hloop⟩ :=
    entryLoop_cons [] last notes ht hentry (.inr ⟨⟨v, rest, rfl, hv.1, hc⟩, rfl⟩)
  refine ⟨[e], v.span, ?_, trivial⟩
  exact hloop.trans (entryLoop_close hc)

/-! ## statements -/

/-- Statements up to the end of the source end there. -/
theorem statementLoop_nil {done : List Tree} :
    statementLoop expression .eof done (before [] last notes) =
      .ok (done.reverse, before [] last notes) := by
  rw [statementLoop]
  rfl

/-- One statement in front of known tokens, and then the rest of the statements. -/
theorem statementLoop_before_cons {done : List Tree} :
    statementLoop expression c done (before (t :: ts) last notes) =
      if c.matches t then .ok (done.reverse, before (t :: ts) last notes)
      else if t.isCloser then (before (t :: ts) last notes).failAt t (.closer c)
      else if t.separatesStatements then statementLoop expression c done (before ts t.span notes)
      else
        match expression (before (t :: ts) last notes) with
        | .error failure => .error failure
        | .ok (tree, q) =>
          if q.left < ts.length + 1 then statementLoop expression c (tree :: done) q
          else .ok ((tree :: done).reverse, q) := by
  rw [statementLoop]
  split
  · next heq => cases heq
  · next heq =>
    rw [Progress.next?_before_cons, Option.some.injEq, Prod.mk.injEq] at heq
    obtain ⟨rfl, rfl⟩ := heq
    rfl

/-- Statements end in front of their closer. -/
theorem statementLoop_close {done : List Tree} (ht : c.matches t = true) :
    statementLoop expression c done (before (t :: rest) last notes) =
      .ok (done.reverse, before (t :: rest) last notes) := by
  rw [statementLoop_before_cons, if_pos ht]

/-- The loop takes along the tokens `ts`, if `rest` follows, as statements. -/
def Runs (expression : Rule Tree) (ts rest : List Token) : Prop :=
  ∀ c done last notes, ∃ trees last',
    statementLoop expression c done (before (ts ++ rest) last notes) =
      statementLoop expression c (trees ++ done) (before rest last' notes)

theorem Runs.nil : Runs expression [] rest := fun _ _ last _ => ⟨[], last, rfl⟩

/-- Runs of statements are read one behind the other. -/
theorem Runs.append {us : List Token} (h : Runs expression ts (us ++ rest))
    (h' : Runs expression us rest) : Runs expression (ts ++ us) rest := by
  intro c done last notes
  obtain ⟨trees, last₁, hts⟩ := h c done last notes
  obtain ⟨trees', last₂, hus⟩ := h' c (trees ++ done) last₁ notes
  refine ⟨trees' ++ trees, last₂, ?_⟩
  rw [List.append_assoc, hts, hus, List.append_assoc]

/-- A word between statements is passed over. -/
theorem Runs.separator (hcloser : t.isCloser = false) (ht : t.separatesStatements = true) :
    Runs expression [t] rest := by
  intro c done last notes
  refine ⟨[], t.span, ?_⟩
  rw [List.singleton_append, statementLoop_before_cons]
  simp [matches_of_not_isCloser hcloser, hcloser, ht]

/-- A statement is taken along. -/
theorem Runs.statement {good : Tree → Prop}
    (ht : t.isCloser = false ∧ t.separatesStatements = false)
    (h : Accepts expression good (t :: ts) rest) : Runs expression (t :: ts) rest := by
  intro c done last notes
  obtain ⟨tree, last', hok, hgood⟩ := h last notes
  refine ⟨[tree], last', ?_⟩
  rw [List.cons_append] at hok ⊢
  have hless : (before rest last' notes).left < (ts ++ rest).length + 1 := by
    rw [Progress.left_before, List.length_append]
    omega
  rw [statementLoop_before_cons, hok]
  simp only [matches_of_not_isCloser ht.1, ht, Bool.false_eq_true, if_false, if_pos hless,
    List.singleton_append]

/-- Statements up to their closer. -/
theorem Runs.accepts (h : Runs expression ts (t :: rest)) (ht : c.matches t = true) :
    Accepts (statementLoop expression c []) (fun _ => True) ts (t :: rest) := by
  intro last notes
  obtain ⟨trees, last', hts⟩ := h c [] last notes
  exact ⟨_, last', hts.trans (statementLoop_close ht), trivial⟩

end loops

end Level

/-! ## sources -/

/-- Tokens of one statement. -/
theorem Parsed.ofTokens_of_accepts {good : Tree → Prop} {t : Token} {ts : List Token}
    (hcomments : (t :: ts).filter (·.kind != .comment) = t :: ts)
    (ht : t.isCloser = false ∧ t.separatesStatements = false)
    (h : Level.Accepts ((Level.levelAt nestingLimit).expression .statement) good (t :: ts) []) :
    ∃ tree, good tree ∧ Parsed.ofTokens (t :: ts) = .ok ⟨.ofStatements [tree], []⟩ := by
  obtain ⟨tree, last', hok, hgood⟩ := h {} []
  rw [List.append_nil] at hok
  have hstatements : (Level.levelAt (nestingLimit + 1)).statements .eof (.ofTokens (t :: ts) {}) =
      .ok ([tree], before [] last' []) := by
    have hloop : Level.statementLoop ((Level.levelAt nestingLimit).expression .statement) .eof []
        (before (t :: ts) {} []) = .ok ([tree], before [] last' []) := by
      rw [Level.statementLoop_before_cons, hok]
      simp [Closer.matches, ht, Level.statementLoop_nil]
    rw [Progress.ofTokens, hcomments]
    exact hloop
  refine ⟨tree, hgood, ?_⟩
  rw [Parsed.ofTokens, hstatements]
  rfl

/-- A source with one statement, spelled without comments. -/
theorem Parsed.ofSource_of_accepts {good : Tree → Prop} {source : String} {ls : List Spelling}
    {n : Reader.Memory} (hsource : source.toList = Spelling.textOf ls)
    (hspelled : Reader.Spelled [] ls [] {} n) (hcomments : ∀ l ∈ ls, l.kind ≠ .comment)
    (hfirst : ∃ t ts, Spelling.tokens [] ls = t :: ts ∧ t.isCloser = false ∧
      t.separatesStatements = false)
    (h : Level.Accepts ((Level.levelAt nestingLimit).expression .statement) good
      (Spelling.tokens [] ls) []) :
    ∃ tree, good tree ∧ Parsed.ofSource source = .ok ⟨.ofStatements [tree], []⟩ := by
  obtain ⟨t, ts, htokens, ht⟩ := hfirst
  have hscan := (Token.scan_of_spelled hsource hspelled).1
  have hfilter : (Spelling.tokens [] ls).filter (·.kind != .comment) = _ :=
    Spelling.filter_tokens hcomments
  rw [htokens] at hscan hfilter h
  obtain ⟨tree, htree, hparsed⟩ := ofTokens_of_accepts hfilter ht h
  refine ⟨tree, htree, ?_⟩
  rw [Parsed.ofSource, hscan]
  exact hparsed

end ConnectorAudit
