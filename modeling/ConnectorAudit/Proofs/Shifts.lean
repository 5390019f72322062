import Mathlib.Data.List.Basic
import ConnectorAudit.Tree.Parse

/-!
# Shifts

Tokens and trees of a text that is set behind another one.  Bytes and lines count
on; columns do on the first line only, which begins in the middle of a line then.

A shift changes nothing that a parse decides by, and nodes that are built from
shifted parts are shifted nodes: `Tree.moved_ofCall`, `Tree.moved_withBlock` and
their kin.
-/

namespace ConnectorAudit

/-- How far what stands at the beginning of a text is moved. -/
structure Shift where
  bytes : Nat := 0
  lines : Nat := 0
  /-- Columns, on the first line. -/
  columns : Nat := 0
  deriving DecidableEq

/-- The column behind a shift of a place of a line. -/
def Shift.column (σ : Shift) (line column : Nat) : Nat :=
  if line = 1 then column + σ.columns else column

@[simp]
theorem Shift.column_zero (line column : Nat) : ({} : Shift).column line column = column := by
  simp [Shift.column]

/-! ## spans -/

namespace Span

def moved (σ : Shift) (s : Span) : Span where
  offset := s.offset + σ.bytes
  length := s.length
  line := s.line + σ.lines
  column := σ.column s.line s.column

@[simp]
theorem moved_zero (s : Span) : s.moved {} = s := by simp [moved]

@[simp]
theorem moved_through (σ : Shift) (s t : Span) :
    (s.moved σ).through (t.moved σ) = (s.through t).moved σ := by
  simp only [through, moved, stop, mk.injEq, true_and, and_true]
  omega

end Span

/-! ## tokens -/

namespace Token

mutual
def moved (σ : Shift) : Token → Token
  | ⟨kind, text, offset, line, column, value, nested, gap⟩ =>
    ⟨kind, text, offset + σ.bytes, line + σ.lines, σ.column line column, value, movedAll σ nested,
      gap⟩
def movedAll (σ : Shift) : List Token → List Token
  | [] => []
  | t :: ts => t.moved σ :: movedAll σ ts
end

theorem movedAll_eq_map (σ : Shift) (ts : List Token) : movedAll σ ts = ts.map (moved σ) := by
  induction ts with
  | nil => rfl
  | cons t ts ih => rw [movedAll, ih, List.map_cons]

variable (σ : Shift) (t : Token)

@[simp]
theorem kind_moved : (t.moved σ).kind = t.kind := by
  cases t
  rw [moved]

@[simp]
theorem text_moved : (t.moved σ).text = t.text := by
  cases t
  rw [moved]

@[simp]
theorem value_moved : (t.moved σ).value = t.value := by
  cases t
  rw [moved]

@[simp]
theorem gap_moved : (t.moved σ).gap = t.gap := by
  cases t
  rw [moved]

@[simp]
theorem line_moved : (t.moved σ).line = t.line + σ.lines := by
  cases t
  rw [moved]

@[simp]
theorem nested_moved : (t.moved σ).nested = t.nested.map (moved σ) := by
  cases t
  rw [moved, movedAll_eq_map]

@[simp]
theorem span_moved : (t.moved σ).span = t.span.moved σ := by
  cases t
  rw [moved]
  rfl

mutual
/-- A shift by nothing leaves a token as it is. -/
theorem moved_zero : ∀ t : Token, t.moved {} = t
  | ⟨_, _, _, _, _, _, nested, _⟩ => by simp [moved, movedAll_zero nested]
theorem movedAll_zero : ∀ ts : List Token, movedAll {} ts = ts
  | [] => rfl
  | t :: ts => by rw [movedAll, moved_zero t, movedAll_zero ts]
end

@[simp]
theorem isPunct_moved (text : String) : (t.moved σ).isPunct text = t.isPunct text := by
  simp [isPunct]

@[simp]
theorem isCloser_moved : (t.moved σ).isCloser = t.isCloser := by simp [isCloser]

@[simp]
theorem separatesStatements_moved :
    (t.moved σ).separatesStatements = t.separatesStatements := by
  simp [separatesStatements, isSeparatorWord]

@[simp]
theorem startsOperand_moved : (t.moved σ).startsOperand = t.startsOperand := by
  simp [startsOperand, isOperatorWord, isSeparatorWord]

@[simp]
theorem isBinary_moved (ctx : Context) : (t.moved σ).isBinary ctx = t.isBinary ctx := by
  simp [isBinary, isOperatorWord]

@[simp]
theorem isGlued_moved : (t.moved σ).isGlued = t.isGlued := by simp [isGlued]

@[simp]
theorem opensArguments_moved : (t.moved σ).opensArguments = t.opensArguments := by
  simp [opensArguments]

@[simp]
theorem startsArgument_moved (next? : Option Token) :
    (t.moved σ).startsArgument (next?.map (moved σ)) = t.startsArgument next? := by
  have hnext : (next?.map (moved σ)).any isGlued = next?.any isGlued := by
    cases next? <;> simp
  simp [startsArgument, isOperatorWord, isSeparatorWord, hnext]

@[simp]
theorem isBareParameter_moved : (t.moved σ).isBareParameter = t.isBareParameter := by
  simp [isBareParameter]

end Token

@[simp]
theorem Closer.matches_moved (c : Closer) (σ : Shift) (t : Token) :
    c.matches (t.moved σ) = c.matches t := by
  cases c <;> simp [Closer.matches]

@[simp]
theorem Parameters.take_moved (ps : Parameters) (σ : Shift) (t : Token) :
    ps.take (t.moved σ) = ps.take t := by
  simp [Parameters.take]

/-! ## trees -/

namespace Tree

mutual
def moved (σ : Shift) : Tree → Tree
  | ⟨kind, span, children⟩ => ⟨kind, span.moved σ, movedAll σ children⟩
def movedAll (σ : Shift) : List Tree → List Tree
  | [] => []
  | t :: ts => t.moved σ :: movedAll σ ts
end

theorem movedAll_eq_map (σ : Shift) (ts : List Tree) : movedAll σ ts = ts.map (moved σ) := by
  induction ts with
  | nil => rfl
  | cons t ts ih => rw [movedAll, ih, List.map_cons]

variable (σ : Shift) (t : Tree)

@[simp]
theorem moved_mk (kind : Kind) (span : Span) (children : List Tree) :
    moved σ ⟨kind, span, children⟩ = ⟨kind, span.moved σ, children.map (moved σ)⟩ := by
  rw [moved, movedAll_eq_map]

@[simp]
theorem kind_moved : (t.moved σ).kind = t.kind := by
  cases t
  rw [moved]

@[simp]
theorem span_moved : (t.moved σ).span = t.span.moved σ := by
  cases t
  rw [moved]

@[simp]
theorem children_moved : (t.moved σ).children = t.children.map (moved σ) := by
  cases t
  rw [moved_mk]

mutual
/-- A shift by nothing leaves a tree as it is. -/
theorem moved_zero : ∀ t : Tree, t.moved {} = t
  | ⟨_, _, children⟩ => by rw [moved, movedAll_zero children, Span.moved_zero]
theorem movedAll_zero : ∀ ts : List Tree, movedAll {} ts = ts
  | [] => rfl
  | t :: ts => by rw [movedAll, moved_zero t, movedAll_zero ts]
end

@[simp]
theorem moved_leaf (kind : Kind) (span : Span) :
    (leaf kind span).moved σ = leaf kind (span.moved σ) := by
  simp [leaf]

@[simp]
theorem moved_ofPair (key value : Tree) :
    (ofPair key value).moved σ = ofPair (key.moved σ) (value.moved σ) := by
  simp [ofPair]

@[simp]
theorem moved_ofCall (name : String) (receiver : Option Tree) (args : List Tree)
    (block : Option Tree) (span : Span) :
    (ofCall name receiver args block span).moved σ =
      ofCall name (receiver.map (moved σ)) (args.map (moved σ)) (block.map (moved σ))
        (span.moved σ) := by
  cases receiver <;> cases block <;> simp [ofCall]

@[simp]
theorem moved_ofRun (run : List Tree) :
    ofRun (run.map (moved σ)) = (ofRun run).map (moved σ) := by
  cases run with
  | nil => rfl
  | cons first rest =>
    have hlast : (first.moved σ :: rest.map (moved σ)).getLast (by simp) =
        ((first :: rest).getLast (by simp)).moved σ := by
      simpa using List.getLast_map (f := moved σ) (l := first :: rest) (by simp)
    simp [ofRun, hlast]

end Tree

def Entry.moved (σ : Shift) : Entry → Entry
  | positional tree => positional (tree.moved σ)
  | pair tree => pair (tree.moved σ)

@[simp]
theorem Entry.tree_moved (σ : Shift) (e : Entry) : (e.moved σ).tree = e.tree.moved σ := by
  cases e <;> rfl

@[simp]
theorem moved_collectArguments (σ : Shift) (run : List Tree) (entries : List Entry) :
    collectArguments (run.map (Tree.moved σ)) (entries.map (Entry.moved σ)) =
      (collectArguments run entries).map (Tree.moved σ) := by
  induction entries generalizing run with
  | nil => simp [collectArguments, ← List.map_reverse]
  | cons e entries ih =>
    cases e with
    | pair tree => simpa [collectArguments, Entry.moved] using ih (tree :: run)
    | positional tree =>
      have hargs := ih []
      simp_all [collectArguments, Entry.moved, ← List.map_reverse]

namespace Level

variable (σ : Shift) (t : Tree)

@[simp]
theorem acceptsBlock_moved : acceptsBlock (t.moved σ) = acceptsBlock t := by
  simp [acceptsBlock]

@[simp]
theorem makesCallable_moved : makesCallable (t.moved σ) = makesCallable t := by
  have hreceiver : (t.moved σ).receiver? = t.receiver?.map (Tree.moved σ) := by
    simp only [Tree.receiver?, Tree.kind_moved, Tree.children_moved]
    split <;> simp
  have hany : ∀ o : Option Tree, (o.map (Tree.moved σ)).any (·.kind == .identifier "Proc") =
      o.any (·.kind == .identifier "Proc") := by
    rintro (_ | o) <;> simp
  simp [makesCallable, hreceiver, hany]

@[simp]
theorem moved_withBlock (params : List String) (body : List Tree) (blockSpan span : Span) :
    (withBlock t params body blockSpan span).moved σ =
      withBlock (t.moved σ) params (body.map (Tree.moved σ)) (blockSpan.moved σ)
        (span.moved σ) := by
  unfold withBlock
  rw [makesCallable_moved, Tree.kind_moved]
  split
  · simp
  · simp only
    split <;> simp

@[simp]
theorem literalOf_moved (u : Token) : literalOf (u.moved σ) = literalOf u := by
  simp [literalOf]

@[simp]
theorem joinLiteral_moved (literal : Literal) (u : Token) :
    joinLiteral literal (u.moved σ) = joinLiteral literal u := by
  simp [joinLiteral]

end Level

end ConnectorAudit
