import ConnectorAudit.Proofs.Forms
import ConnectorAudit.Proofs.Nesting
import ConnectorAudit.Tree.Parse

/-!
# Readings

A parse takes most tokens for what they are, but not all.  Behind a call operator
punctuation is the name of a method, unless it opens arguments; the parameters of a
block or a lambda and the signature of a definition are passed over; and a block that
makes a callable of `lambda` or `proc` leaves out the arguments before it.  `Reading`
says what can be made of tokens that way, and which of the commands among them are
left.

* `Reading.nest_eq`: brackets are balanced if they are among the tokens kept and in each
  stretch passed over;
* `Reading.commands_sublist`: the commands left are commands of the source, each once and in order;
* `Reading.commands_perm`: they are all of them, but for those in the stretches left out.
-/

namespace ConnectorAudit

namespace Token

/-- The tokens that a parse sees: all but comments. -/
def significant (ts : List Token) : List Token := ts.filter (·.kind != .comment)

/-- The token, if it is a command. -/
def command? (t : Token) : List Token := if t.kind = .command then [t] else []

/-- The commands among tokens and below them, in the order of the source. -/
def commands (ts : List Token) : List Token := (preorderAll ts).filter (·.kind == .command)

def isCallOperator (t : Token) : Bool := t.isPunct "." || t.isPunct "&." || t.isPunct "::"

/-- A token that can stand for the name of a method: words, and all punctuation but an opening
parenthesis, which begins the arguments of a call without a name. -/
def canName (t : Token) : Bool :=
  (t.kind == .identifier || t.kind == .blockStart || t.kind == .blockEnd ||
    t.kind == .punctuation) && !t.isPunct "("

/-- A token that opens a block. -/
def opensBlock (t : Token) : Bool :=
  t.kind == .braceOpen || t.kind == .blockStart && t.text == "do"

/-- Three tokens that stand around parameters: bars behind the opener of a block, or parentheses
behind an arrow. -/
def encloseParameters (opener first last : Token) : Bool :=
  opener.opensBlock && first.isPunct "|" && last.isPunct "|" ||
    opener.isPunct "->" && first.isPunct "(" && last.isPunct ")"

end Token

/-- The tokens are passed over as parameters, and `last` ends them. -/
def PassedAsParameters (ts : List Token) (last : Token) : Prop :=
  ∃ p q names, parameters last.text {} p = .ok (names, q) ∧
    p.feed.items = ts ++ last :: q.feed.items

/-- The tokens are passed over as the signature of the definition that begins with `word`. -/
def PassedAsSignature (word : Token) (ts : List Token) : Prop :=
  ∃ p q endless, signature word.line 0 p = (endless, q) ∧ p.feed.items = ts ++ q.feed.items

/-- The tokens are read as the arguments of a call, in front of `rest`. -/
def ReadAsArguments (ts rest : List Token) : Prop :=
  ∃ n p q trees, Level.arguments? (Level.levelAt n) p = .ok (some trees, q) ∧
    p.feed.items = ts ++ q.feed.items ∧ rest <+: q.feed.items

/-- What a parse makes of tokens. -/
structure Summary where
  /-- The tokens taken for what they are. -/
  kept : List Token := []
  /-- The stretches passed over. -/
  passed : List (List Token) := []
  /-- The commands that are left, those below literals included. -/
  commands : List Token := []
  /-- The stretches left out, those below literals included. -/
  lost : List (List Token) := []

instance : Append Summary :=
  ⟨fun s t =>
    ⟨s.kept ++ t.kept, s.passed ++ t.passed, s.commands ++ t.commands, s.lost ++ t.lost⟩⟩

namespace Summary

@[simp]
theorem kept_append (s t : Summary) : (s ++ t).kept = s.kept ++ t.kept := rfl

@[simp]
theorem passed_append (s t : Summary) : (s ++ t).passed = s.passed ++ t.passed := rfl

@[simp]
theorem commands_append (s t : Summary) : (s ++ t).commands = s.commands ++ t.commands := rfl

@[simp]
theorem lost_append (s t : Summary) : (s ++ t).lost = s.lost ++ t.lost := rfl

end Summary

/-- What can be made of tokens. -/
inductive Reading : List Token → Summary → Prop
  | nil : Reading [] {}
  | append {xs ys : List Token} {s t : Summary} (hxs : Reading xs s) (hys : Reading ys t) :
      Reading (xs ++ ys) (s ++ t)
  /-- A token for what it is; the code inside of a literal is read on its own. -/
  | token {t : Token} {inner : Summary} (hinner : Reading (Token.significant t.nested) inner) :
      Reading [t] { kept := [t], commands := t.command? ++ inner.commands, lost := inner.lost }
  /-- The name of a method. -/
  | name {op t : Token} (hop : op.isCallOperator = true) (ht : t.canName = true) :
      Reading [op, t] { kept := [op], passed := [[t]], lost := [[t]] }
  /-- The parameters of a block or of a lambda. -/
  | parameters {opener first last : Token} {ts : List Token}
      (henclose : opener.encloseParameters first last = true)
      (hts : PassedAsParameters ts last) :
      Reading (opener :: first :: (ts ++ [last]))
        { kept := [opener, first, last], passed := [ts], lost := [ts] }
  /-- The signature of a definition. -/
  | signature {word : Token} {ts : List Token} (hword : word.kind = .blockStart)
      (hdef : word.text = "def") (hts : PassedAsSignature word ts) :
      Reading (word :: ts) { kept := [word], passed := [ts], lost := [ts] }
  /-- The arguments before the block of a callable, which are read and left out. -/
  | head {word opener : Token} {args block : List Token} {s t : Summary}
      (hword : word.isName "lambda" = true ∨ word.isName "proc" = true)
      (hargs : ReadAsArguments args (opener :: block)) (hopener : opener.opensBlock = true)
      (hs : Reading args s) (ht : Reading (opener :: block) t) :
      Reading (word :: (args ++ opener :: block))
        { kept := word :: (s.kept ++ t.kept), passed := s.passed ++ t.passed
          commands := t.commands, lost := args :: t.lost }

namespace Token

@[simp]
theorem commands_nil : commands [] = [] := rfl

/-- The commands of lists come one list after the other. -/
theorem commands_append (xs ys : List Token) :
    commands (xs ++ ys) = commands xs ++ commands ys := by
  rw [commands, preorderAll_append, List.filter_append]
  rfl

/-- A token has its own command, and those that are nested in it. -/
theorem commands_cons (t : Token) (ts : List Token) :
    commands (t :: ts) = t.command? ++ commands t.nested ++ commands ts := by
  by_cases h : t.kind = .command <;> simp [commands, preorderAll, preorder_eq, command?, h]

/-- Tokens of other kinds interpolate nothing. -/
theorem bare_of_kind {t : Token} (h : t.kind ∉ [.string, .symbol, .command, .regex, .words]) :
    t.mayInterpolate = false := by
  simp only [List.mem_cons, List.not_mem_nil, or_false, not_or] at h
  simp [mayInterpolate, h]

theorem kind_of_isName {t : Token} {text : String} (h : t.isName text = true) :
    t.kind = .identifier := by
  simp only [isName, Bool.and_eq_true, beq_iff_eq] at h
  exact h.1

theorem bare_of_isPunct {t : Token} {text : String} (h : t.isPunct text = true) :
    t.mayInterpolate = false := by
  have hkind : t.kind = .punctuation ∧ t.text = text := by simpa [isPunct] using h
  exact bare_of_kind (by simp [hkind])

theorem bare_of_opensBlock {t : Token} (h : t.opensBlock = true) : t.mayInterpolate = false := by
  have hkind : t.kind = .braceOpen ∨ t.kind = .blockStart ∧ t.text = "do" := by
    simpa [opensBlock] using h
  rcases hkind with hkind | ⟨hkind, -⟩ <;> exact bare_of_kind (by simp [hkind])

/-- A token that interpolates nothing is no command. -/
theorem command?_of_bare {t : Token} (h : t.mayInterpolate = false) : t.command? = [] := by
  have hkind : t.kind ≠ .command := by
    intro hkind
    simp [mayInterpolate, hkind] at h
  simp [command?, hkind]

/-- A token with nothing below it holds no command. -/
theorem commands_cons_bare {t : Token} (ht : t.Formed) (hbare : t.mayInterpolate = false)
    (ts : List Token) : commands (t :: ts) = commands ts := by
  rw [commands_cons, command?_of_bare hbare, ht.nested_eq_nil hbare]
  rfl

/-- Comments hold no commands. -/
theorem commands_significant {ts : List Token} (hts : ∀ t ∈ ts, t.Formed) :
    commands (significant ts) = commands ts := by
  induction ts with
  | nil => rfl
  | cons t ts ih =>
    obtain ⟨ht, hts⟩ := List.forall_mem_cons.1 hts
    by_cases hkind : t.kind = .comment
    · rw [commands_cons_bare ht (bare_of_kind (by simp [hkind])), ← ih hts, significant,
        List.filter_cons_of_neg (by simp [hkind])]
      rfl
    · rw [significant, List.filter_cons_of_pos (by simp [hkind]), commands_cons, commands_cons t,
        ← ih hts]
      rfl

/-- Leaving out tokens adds no command. -/
theorem commands_filter_sublist (p : Token → Bool) (ts : List Token) :
    (commands (ts.filter p)).Sublist (commands ts) := by
  induction ts with
  | nil => exact .refl _
  | cons t ts ih =>
    rw [commands_cons]
    by_cases h : p t = true
    · rw [List.filter_cons_of_pos h, commands_cons]
      exact ih.append_left _
    · rw [List.filter_cons_of_neg h]
      exact ih.trans (List.sublist_append_right _ _)

/-- Comments open and close nothing. -/
theorem nest_significant (outer : List Bracket) (ts : List Token) :
    nest outer (significant ts) = nest outer ts := by
  refine nest_filter (fun t ht => ?_) outer ts
  have hkind : t.kind = .comment := by simpa using ht
  exact isPlain_of_kind (by simp [hkind]) (by simp [hkind]) (by simp [hkind])

end Token

namespace Reading

/-- A token with nothing below it. -/
theorem bare {t : Token} (ht : t.Formed) (hbare : t.mayInterpolate = false) :
    Reading [t] { kept := [t] } := by
  have hinner : Reading (Token.significant t.nested) {} := by
    rw [ht.nested_eq_nil hbare]
    exact .nil
  simpa [Token.command?_of_bare hbare] using Reading.token hinner

/-- Balanced stretches that are passed over change nothing about the brackets. -/
theorem nest_eq {xs : List Token} {s : Summary} (h : Reading xs s)
    (hpassed : ∀ ts ∈ s.passed, Balanced ts) (outer : List Bracket) :
    nest outer xs = nest outer s.kept := by
  induction h generalizing outer with
  | nil => rfl
  | append _ _ ihx ihy =>
    rw [Summary.passed_append] at hpassed
    rw [Summary.kept_append, nest_append, nest_append,
      ihx fun ts hts => hpassed ts (List.mem_append_left _ hts)]
    exact congrArg _ (funext (ihy fun ts hts => hpassed ts (List.mem_append_right _ hts)))
  | token => rfl
  | @name op t =>
    have ht : Balanced [t] := hpassed [t] (by simp)
    rw [nest_cons, nest_cons]
    exact congrArg _ (funext fun after => ht.nest_eq after)
  | @parameters opener first last ts =>
    have hts : Balanced ts := hpassed ts (by simp)
    have hinner : ∀ outer, nest outer (ts ++ [last]) = nest outer [last] :=
      fun outer => hts.nest_append outer [last]
    simp only [nest_cons, hinner]
  | @signature word ts =>
    have hts : Balanced ts := hpassed ts (by simp)
    rw [nest_cons, nest_cons]
    exact congrArg _ (funext fun after => hts.nest_eq after)
  | head _ _ _ _ _ ihs iht =>
    have hs := ihs fun ts hts => hpassed ts (List.mem_append_left _ hts)
    have ht := iht fun ts hts => hpassed ts (List.mem_append_right _ hts)
    simp only [nest_cons, nest_append, hs, ht]

/-- Nothing is passed over without a word, an operator or parentheses. -/
theorem passed_eq_nil {xs : List Token} {s : Summary} (h : Reading xs s)
    (hxs : ∀ t ∈ xs, t.kind ∈ [.label, .braceOpen, .braceClose] ∨ t.isPunct "," = true) :
    s.passed = [] := by
  induction h with
  | nil => rfl
  | append _ _ ihx ihy =>
    rw [Summary.passed_append, ihx fun t ht => hxs t (List.mem_append_left _ ht),
      ihy fun t ht => hxs t (List.mem_append_right _ ht)]
    rfl
  | token => rfl
  | @name op t hop _ =>
    have hkind := hxs op (by simp)
    simp only [Token.isCallOperator, Token.isPunct, Bool.or_eq_true, Bool.and_eq_true,
      beq_iff_eq] at hop hkind
    rcases hop with (⟨hpunct, htext⟩ | ⟨hpunct, htext⟩) | ⟨hpunct, htext⟩ <;>
      simp [hpunct, htext] at hkind
  | @parameters opener first last ts henclose _ =>
    have hkind := hxs first (by simp)
    simp only [Token.encloseParameters, Token.isPunct, Bool.or_eq_true, Bool.and_eq_true,
      beq_iff_eq] at henclose hkind
    rcases henclose with ⟨⟨-, hpunct, htext⟩, -⟩ | ⟨⟨-, hpunct, htext⟩, -⟩ <;>
      simp [hpunct, htext] at hkind
  | @signature word ts hword _ _ =>
    have hkind := hxs word (by simp)
    simp [Token.isPunct, hword] at hkind
  | @head word opener args block s t hword _ _ _ _ _ _ =>
    have hkind := hxs word (by simp)
    have hname : word.kind = .identifier := hword.elim Token.kind_of_isName Token.kind_of_isName
    simp [Token.isPunct, hname] at hkind

/-- The commands that are left are commands of the tokens, each once and in order. -/
theorem commands_sublist {xs : List Token} {s : Summary} (h : Reading xs s) :
    s.commands.Sublist (Token.commands xs) := by
  induction h with
  | nil => exact .refl _
  | append _ _ ihx ihy =>
    rw [Summary.commands_append, Token.commands_append]
    exact ihx.append ihy
  | @token t _ _ ih =>
    rw [Token.commands_cons, Token.commands_nil, List.append_nil]
    exact (ih.trans (Token.commands_filter_sublist _ _)).append_left _
  | name => exact List.nil_sublist _
  | parameters => exact List.nil_sublist _
  | signature => exact List.nil_sublist _
  | head _ _ _ _ _ _ iht =>
    rw [Token.commands_cons, Token.commands_append]
    exact (iht.trans (List.sublist_append_right _ _)).trans (List.sublist_append_right _ _)

/-- The commands that are left are all, but for those in stretches left out. -/
theorem commands_perm {xs : List Token} {s : Summary} (h : Reading xs s)
    (hxs : ∀ t ∈ xs, t.Formed) :
    (s.commands ++ s.lost.flatMap Token.commands).Perm (Token.commands xs) := by
  induction h with
  | nil => exact .refl _
  | @append xs ys s t _ _ ihx ihy =>
    have hx := ihx fun t ht => hxs t (List.mem_append_left _ ht)
    have hy := ihy fun t ht => hxs t (List.mem_append_right _ ht)
    rw [Summary.commands_append, Summary.lost_append, List.flatMap_append, Token.commands_append,
      List.append_assoc]
    refine (List.perm_append_comm_assoc _ _ _).append_left _ |>.trans ?_
    rw [← List.append_assoc]
    exact hx.append hy
  | @token t inner _ ih =>
    have ht : t.Formed := hxs t (by simp)
    have hinner := ih fun u hu => ht.of_mem_nested (List.mem_of_mem_filter hu)
    rw [Token.commands_significant fun u hu => ht.of_mem_nested hu] at hinner
    rw [Token.commands_cons, Token.commands_nil, List.append_nil, List.append_assoc]
    exact hinner.append_left _
  | @name op t hop _ =>
    have hbare : op.mayInterpolate = false := by
      simp only [Token.isCallOperator, Bool.or_eq_true] at hop
      rcases hop with (hop | hop) | hop <;> exact Token.bare_of_isPunct hop
    rw [Token.commands_cons_bare (hxs op (by simp)) hbare]
    simp
  | @parameters opener first last ts henclose _ =>
    have hbare : opener.mayInterpolate = false ∧ first.mayInterpolate = false ∧
        last.mayInterpolate = false := by
      simp only [Token.encloseParameters, Bool.or_eq_true, Bool.and_eq_true] at henclose
      rcases henclose with ⟨⟨ho, hf⟩, hl⟩ | ⟨⟨ho, hf⟩, hl⟩
      · exact ⟨Token.bare_of_opensBlock ho, Token.bare_of_isPunct hf, Token.bare_of_isPunct hl⟩
      · exact ⟨Token.bare_of_isPunct ho, Token.bare_of_isPunct hf, Token.bare_of_isPunct hl⟩
    rw [Token.commands_cons_bare (hxs opener (by simp)) hbare.1,
      Token.commands_cons_bare (hxs first (by simp)) hbare.2.1, Token.commands_append,
      Token.commands_cons_bare (hxs last (by simp)) hbare.2.2]
    simp
  | @signature word ts hword _ _ =>
    rw [Token.commands_cons_bare (hxs word (by simp)) (Token.bare_of_kind (by simp [hword]))]
    simp
  | @head word opener args block s t hword _ _ _ _ _ iht =>
    have ht := iht fun u hu => hxs u (by simp [List.mem_cons.1 hu])
    have hkind : word.kind = .identifier := hword.elim Token.kind_of_isName Token.kind_of_isName
    rw [Token.commands_cons_bare (hxs word (by simp)) (Token.bare_of_kind (by simp [hkind])),
      Token.commands_append, List.flatMap_cons]
    exact (List.perm_append_comm_assoc _ _ _).trans (ht.append_left _)

end Reading

end ConnectorAudit
