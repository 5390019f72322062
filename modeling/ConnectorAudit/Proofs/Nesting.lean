import ConnectorAudit.Tree.Grammar
import Mathlib.Data.List.Basic

/-!
# Nested brackets

Parentheses, square brackets and braces among tokens, read with a stack of those
that are open: a closer must match the innermost of them.

* `nest_frame`: what is open outside of a stretch does not matter to it;
* `Balanced.nest_append`: a balanced stretch can be left out anywhere.
-/

namespace ConnectorAudit

inductive Bracket where
  | paren
  | square
  | brace
  deriving DecidableEq, Repr

namespace Token

/-- The bracket that a token opens. -/
def opens? (t : Token) : Option Bracket :=
  if t.kind = .braceOpen then some .brace
  else if t.isPunct "(" then some .paren
  else if t.isPunct "[" then some .square
  else none

/-- The bracket that a token closes. -/
def closes? (t : Token) : Option Bracket :=
  if t.kind = .braceClose then some .brace
  else if t.isPunct ")" then some .paren
  else if t.isPunct "]" then some .square
  else none

def isPlain (t : Token) : Bool := t.opens?.isNone && t.closes?.isNone

/-- A token that is neither brace nor punctuation is no bracket. -/
theorem isPlain_of_kind {t : Token} (hopen : t.kind ≠ .braceOpen) (hclose : t.kind ≠ .braceClose)
    (hpunct : t.kind ≠ .punctuation) : t.isPlain = true := by
  simp [isPlain, opens?, closes?, isPunct, hopen, hclose, hpunct]

/-- Punctuation is told by its text. -/
theorem isPlain_of_punct {t : Token} (hkind : t.kind = .punctuation)
    (htext : t.text ∉ ["(", ")", "[", "]"]) : t.isPlain = true := by
  simp only [List.mem_cons, List.not_mem_nil, or_false, not_or] at htext
  simp [isPlain, opens?, closes?, isPunct, hkind, htext]

end Token

/-- The brackets open behind a token, the innermost first; none if it closes another one. -/
def Bracket.step (outer : List Bracket) (t : Token) : Option (List Bracket) :=
  match t.opens?, t.closes? with
  | some b, _ => some (b :: outer)
  | none, some b => if outer.head? = some b then some outer.tail else none
  | none, none => some outer

/-- The brackets open behind some tokens. -/
def nest (outer : List Bracket) (ts : List Token) : Option (List Bracket) :=
  ts.foldlM Bracket.step outer

/-- Every closer matches the innermost bracket open, and none is left open. -/
def Balanced (ts : List Token) : Prop := nest [] ts = some []

instance (ts : List Token) : Decidable (Balanced ts) := inferInstanceAs (Decidable (_ = _))

theorem nest_cons (outer : List Bracket) (t : Token) (ts : List Token) :
    nest outer (t :: ts) = (Bracket.step outer t).bind (nest · ts) := by
  rw [nest, List.foldlM_cons]
  rfl

/-- Tokens nest one list after the other. -/
theorem nest_append (outer : List Bracket) (xs ys : List Token) :
    nest outer (xs ++ ys) = (nest outer xs).bind (nest · ys) := by
  rw [nest, List.foldlM_append]
  rfl

/-- A token that opens and closes nothing leaves the brackets as they are. -/
theorem Bracket.step_of_plain {t : Token} (ht : t.isPlain = true) (outer : List Bracket) :
    step outer t = some outer := by
  simp only [Token.isPlain, Bool.and_eq_true, Option.isNone_iff_eq_none] at ht
  simp [step, ht]

/-- A token looks at no bracket but those that it opens or closes. -/
theorem Bracket.step_frame {before after : List Bracket} {t : Token}
    (h : step before t = some after) (outer : List Bracket) :
    step (before ++ outer) t = some (after ++ outer) := by
  unfold step at h ⊢
  split at h
  · obtain rfl := Option.some.inj h
    rfl
  · next b _ _ =>
    split at h
    · next hhead =>
      obtain ⟨rest, rfl⟩ := List.head?_eq_some_iff.1 hhead
      obtain rfl := Option.some.inj h
      simp
    · cases h
  · obtain rfl := Option.some.inj h
    rfl

/-- What is open around a stretch does not matter to it. -/
theorem nest_frame {before after : List Bracket} {ts : List Token}
    (h : nest before ts = some after) (outer : List Bracket) :
    nest (before ++ outer) ts = some (after ++ outer) := by
  induction ts generalizing before with
  | nil =>
    obtain rfl := Option.some.inj h
    rfl
  | cons t ts ih =>
    rw [nest_cons] at h ⊢
    obtain ⟨between, ht, hts⟩ := Option.bind_eq_some_iff.1 h
    rw [Bracket.step_frame ht outer]
    exact ih hts

/-- Balanced tokens leave any brackets as they are. -/
theorem Balanced.nest_eq {ts : List Token} (h : Balanced ts) (outer : List Bracket) :
    nest outer ts = some outer :=
  nest_frame h outer

/-- A balanced stretch leaves what follows it as it was. -/
theorem Balanced.nest_append {xs : List Token} (h : Balanced xs) (outer : List Bracket)
    (ys : List Token) : nest outer (xs ++ ys) = nest outer ys := by
  rw [ConnectorAudit.nest_append, h.nest_eq]
  rfl

theorem nest_singleton (outer : List Bracket) (t : Token) :
    nest outer [t] = Bracket.step outer t := by
  rw [nest_cons]
  exact Option.bind_fun_some _

/-- Two tokens in a row nest one behind the other. -/
theorem nest_pair {before between after : List Bracket} {t u : Token}
    (ht : Bracket.step before t = some between) (hu : Bracket.step between u = some after) :
    nest before [t, u] = some after := by
  rw [nest_cons, ht]
  exact (nest_singleton between u).trans hu

/-- Tokens that are no brackets can be left out. -/
theorem nest_filter {p : Token → Bool} (hp : ∀ t, p t = false → t.isPlain = true)
    (outer : List Bracket) (ts : List Token) : nest outer (ts.filter p) = nest outer ts := by
  induction ts generalizing outer with
  | nil => rfl
  | cons t ts ih =>
    cases ht : p t with
    | true =>
      rw [List.filter_cons_of_pos ht, nest_cons, nest_cons]
      exact congrArg _ (funext fun after => ih after)
    | false =>
      rw [List.filter_cons_of_neg (by simp [ht]), nest_cons, Bracket.step_of_plain (hp t ht)]
      exact ih outer

/-! ## the brackets of closers -/

/-- The bracket that stands open before its closer; bodies closed by `end` have none. -/
def Closer.awaits : Closer → List Bracket
  | .eof => []
  | .brace => [.brace]
  | .paren => [.paren]
  | .bracket => [.square]
  | .keyword => []

/-- Whether a token opens what the closer closes. -/
def Closer.opens (c : Closer) (t : Token) : Bool :=
  match c with
  | .eof => false
  | .brace => t.kind == .braceOpen
  | .paren => t.isPunct "("
  | .bracket => t.isPunct "["
  | .keyword => t.kind == .blockStart

/-- What opens a closer's bracket makes it wait. -/
theorem Closer.step_of_opens {c : Closer} {t : Token} (h : c.opens t = true) :
    Bracket.step [] t = some c.awaits := by
  cases c with
  | eof => cases h
  | brace =>
    have hkind : t.kind = .braceOpen := by simpa [Closer.opens] using h
    simp [Bracket.step, Token.opens?, hkind, Closer.awaits]
  | paren =>
    obtain ⟨hkind, htext⟩ : t.kind = .punctuation ∧ t.text = "(" := by
      simpa [Closer.opens, Token.isPunct] using h
    simp [Bracket.step, Token.opens?, Token.isPunct, hkind, htext, Closer.awaits]
  | bracket =>
    obtain ⟨hkind, htext⟩ : t.kind = .punctuation ∧ t.text = "[" := by
      simpa [Closer.opens, Token.isPunct] using h
    simp [Bracket.step, Token.opens?, Token.isPunct, hkind, htext, Closer.awaits]
  | keyword =>
    have hkind : t.kind = .blockStart := by simpa [Closer.opens] using h
    have hplain : t.isPlain = true :=
      Token.isPlain_of_kind (by simp [hkind]) (by simp [hkind]) (by simp [hkind])
    exact Bracket.step_of_plain hplain _

/-- What a closer matches ends its waiting. -/
theorem Closer.step_of_matches {c : Closer} {t : Token} (h : c.matches t = true) :
    Bracket.step c.awaits t = some [] := by
  cases c with
  | eof => cases h
  | brace =>
    have hkind : t.kind = .braceClose := by simpa [Closer.matches] using h
    simp [Bracket.step, Token.opens?, Token.closes?, Token.isPunct, hkind, Closer.awaits]
  | paren =>
    obtain ⟨hkind, htext⟩ : t.kind = .punctuation ∧ t.text = ")" := by
      simpa [Closer.matches, Token.isPunct] using h
    simp [Bracket.step, Token.opens?, Token.closes?, Token.isPunct, hkind, htext, Closer.awaits]
  | bracket =>
    obtain ⟨hkind, htext⟩ : t.kind = .punctuation ∧ t.text = "]" := by
      simpa [Closer.matches, Token.isPunct] using h
    simp [Bracket.step, Token.opens?, Token.closes?, Token.isPunct, hkind, htext, Closer.awaits]
  | keyword =>
    have hkind : t.kind = .blockEnd := by simpa [Closer.matches] using h
    have hplain : t.isPlain = true :=
      Token.isPlain_of_kind (by simp [hkind]) (by simp [hkind]) (by simp [hkind])
    exact Bracket.step_of_plain hplain _

end ConnectorAudit
