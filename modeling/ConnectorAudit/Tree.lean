import ConnectorAudit.Text.Span

/-!
# Trees

The shape of a document as far as an audit needs it.  Hashes, arrays, pairs,
calls, callables and literals have nodes of their own; operators and control
flow are folded into groups, which keep what they hold in source order.

The children of a call lie flat: the receiver if there is one, the arguments,
and the block if there is one.  The call says how many of each it has, and
`receiver?`, `args` and `block?` read them off.
-/

namespace ConnectorAudit

/-- A literal value. -/
inductive Literal where
  /-- A string with a fixed value. -/
  | string (value : String)
  /-- A string that interpolates code, which hangs below the node. -/
  | dynamicString
  | symbol (value : String)
  | dynamicSymbol
  | command
  | regex
  | number (text : String)
  | words (values : List String)
  | nil
  | true
  | false
  deriving DecidableEq, Repr

/-- What a node stands for. -/
inductive Tree.Kind where
  /-- The statements of a source. -/
  | program
  /-- Entries in braces, or a run of entries among arguments; the children are pairs, and
  whatever else stood among them. -/
  | hash
  | array
  /-- A key and its value. -/
  | pair
  /-- A call; the children are the receiver, the arguments and the block. -/
  | call (name : String) (receiver : Bool) (args : Nat) (block : Bool)
  /-- A lambda or proc; the children are the statements of its body. -/
  | callable (params : List String)
  /-- A block of a call; the children are the statements of its body. -/
  | block (params : List String)
  | literal (value : Literal)
  /-- A bare name: a variable, a constant path, a keyword. -/
  | identifier (name : String)
  /-- Everything else: operator chains, parentheses, keyword bodies. -/
  | group
  deriving DecidableEq, Repr

/-- A node with its children. -/
structure Tree where
  kind : Tree.Kind
  span : Span
  children : List Tree := []
  deriving Repr

namespace Tree

instance : Inhabited Tree := ⟨{ kind := .group, span := {} }⟩

def leaf (kind : Kind) (span : Span) : Tree := { kind, span }

mutual
/-- Whether every node lies inside the node above it. -/
def contained : Tree → Bool
  | ⟨_, span, children⟩ => children.all (span.contains ·.span) && containedAll children
/-- Whether that holds in each of the trees. -/
def containedAll : List Tree → Bool
  | [] => true
  | t :: ts => t.contained && containedAll ts
end

/-! ## Parts of a node -/

def isCallable (t : Tree) : Bool :=
  match t.kind with
  | .callable _ => true
  | _ => false

def isHash (t : Tree) : Bool := t.kind == .hash

/-- The fixed text of a string or symbol. -/
def literalName? (t : Tree) : Option String :=
  match t.kind with
  | .literal (.string s) | .literal (.symbol s) => some s
  | _ => none

def receiver? (t : Tree) : Option Tree :=
  match t.kind with
  | .call _ true _ _ => t.children.head?
  | _ => none

def args (t : Tree) : List Tree :=
  match t.kind with
  | .call _ receiver n _ => (t.children.drop receiver.toNat).take n
  | _ => []

def block? (t : Tree) : Option Tree :=
  match t.kind with
  | .call _ _ _ true => t.children.getLast?
  | _ => none

def keyValue? (t : Tree) : Option (Tree × Tree) :=
  match t.kind, t.children with
  | .pair, [key, value] => some (key, value)
  | _, _ => none

/-- The keys and values of a hash, in order. -/
def pairs (t : Tree) : List (Tree × Tree) :=
  if t.isHash then t.children.filterMap keyValue? else []

/-- The fixed keys of a hash, in order, repetitions included. -/
def keys (t : Tree) : List String := t.pairs.filterMap (·.1.literalName?)

/-- The value under a fixed key of a hash; the first one, if the key is repeated. -/
def get? (t : Tree) (key : String) : Option Tree :=
  (t.pairs.find? (·.1.literalName? == some key)).map Prod.snd

/-! ## Building -/

def ofPair (key value : Tree) : Tree := ⟨.pair, key.span.through value.span, [key, value]⟩

def ofCall (name : String) (receiver : Option Tree) (args : List Tree) (block : Option Tree)
    (span : Span) : Tree :=
  ⟨.call name receiver.isSome args.length block.isSome, span,
    receiver.toList ++ args ++ block.toList⟩

end Tree

end ConnectorAudit
