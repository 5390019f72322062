/-!
# JSON texts

Values and their two written forms: a compact one without any blank, and one
that is laid out over lines.  The fields of an object are written in the order in
which they are given.  In strings, only what must be escaped is escaped: the
quotation mark, the backslash, and everything below the space.
-/

namespace ConnectorAudit

/-- There are no fractions and no negative numbers. -/
inductive Json.Value where
  | bool (b : Bool)
  | number (n : Nat)
  | string (s : String)
  | array (items : List Json.Value)
  | object (fields : List (String × Json.Value))

namespace Json

/-! ## Strings -/

/-- A character as it stands in a string. -/
def escape (c : Char) : List Char :=
  match c with
  | '"' => ['\\', '"']
  | '\\' => ['\\', '\\']
  | '\x08' => ['\\', 'b']
  | '\t' => ['\\', 't']
  | '\n' => ['\\', 'n']
  | '\x0c' => ['\\', 'f']
  | '\r' => ['\\', 'r']
  | c =>
    if c.toNat < 0x20 then
      ['\\', 'u', '0', '0', Nat.digitChar (c.toNat / 16), Nat.digitChar (c.toNat % 16)]
    else [c]

def quote (s : String) : String := String.ofList ('"' :: s.toList.flatMap escape ++ ['"'])

namespace Value

/-! ## Building -/

/-- An array with an item for each element of a list. -/
def ofList {α : Type} (f : α → Value) (l : List α) : Value := .array (l.map f)

def strings : List String → Value := ofList .string

/-! ## The compact form -/

mutual
/-- The text of a value without any blank. -/
def compact : Value → String
  | .bool b => if b then "true" else "false"
  | .number n => n.repr
  | .string s => quote s
  | .array items => "[" ++ ",".intercalate (compactItems items) ++ "]"
  | .object fields => "\x7b" ++ ",".intercalate (compactFields fields) ++ "\x7d"
def compactItems : List Value → List String
  | [] => []
  | v :: vs => v.compact :: compactItems vs
def compactFields : List (String × Value) → List String
  | [] => []
  | (name, v) :: fields => (quote name ++ ":" ++ v.compact) :: compactFields fields
end

/-! ## The form laid out over lines -/

/-- The blanks in front of a line at some depth. -/
def indent (depth : Nat) : String := String.ofList (List.replicate (2 * depth) ' ')

/-- Parts on lines of their own between two brackets that stand at some depth; no line is
begun for no parts. -/
def bracketed (opener closer : String) (depth : Nat) (parts : List String) : String :=
  if parts.isEmpty then opener ++ closer
  else
    let lines := parts.map (indent (depth + 1) ++ ·)
    opener ++ "\n" ++ ",\n".intercalate lines ++ "\n" ++ indent depth ++ closer

mutual
/-- The text of a value, laid out over lines, at some depth. -/
def laidOut (depth : Nat) : Value → String
  | .bool b => if b then "true" else "false"
  | .number n => n.repr
  | .string s => quote s
  | .array items => bracketed "[" "]" depth (laidOutItems (depth + 1) items)
  | .object fields => bracketed "\x7b" "\x7d" depth (laidOutFields (depth + 1) fields)
def laidOutItems (depth : Nat) : List Value → List String
  | [] => []
  | v :: vs => v.laidOut depth :: laidOutItems depth vs
def laidOutFields (depth : Nat) : List (String × Value) → List String
  | [] => []
  | (name, v) :: fields =>
    (quote name ++ ": " ++ v.laidOut depth) :: laidOutFields depth fields
end

/-- The text of a value, laid out over lines. -/
def pretty (v : Value) : String := v.laidOut 0

end Value

end Json

end ConnectorAudit
