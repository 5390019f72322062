import Mathlib.Data.List.Basic
import ConnectorAudit.Json

/-!
# Reading JSON texts

A compact text can be read back: `Json.Value.ofText?` reads a value off a text that
has no blanks between its parts, and finds in `Value.compact` the value written.  The
reader takes what JSON lets stand in a string, also escapes that are never written.

* `Json.readString_quote`: a string ends at the first quotation mark that is not escaped;
* `Json.readList_parts`: parts that are read back one by one are read back as a list;
* `Json.Value.readValue_compact`, `Json.Value.ofText?_compact`: hence every value;
* `Json.Value.printable_compact`: no character of a compact text is below the space.
-/

namespace ConnectorAudit

namespace Json

/-! ## strings -/

/-- What a character denotes behind a backslash. -/
def unescape? : Char → Option Char
  | '"' => some '"'
  | '\\' => some '\\'
  | '/' => some '/'
  | 'b' => some '\x08'
  | 't' => some '\t'
  | 'n' => some '\n'
  | 'f' => some '\x0c'
  | 'r' => some '\r'
  | _ => none

/-- The number that a hexadecimal digit stands for. -/
def hexDigit? (c : Char) : Option Nat :=
  (List.range 16).find? fun n => Nat.digitChar n == c.toLower

/-- The number that hexadecimal digits stand for. -/
def hexNumber? (digits : List Char) : Option Nat :=
  digits.foldlM (fun n c => (hexDigit? c).map (16 * n + ·)) 0

/-- Reads a string from behind its opening quotation mark, and what follows it. -/
def readString : List Char → Option (List Char × List Char)
  | [] => none
  | '"' :: cs => some ([], cs)
  | '\\' :: 'u' :: a :: b :: c :: d :: cs => do
    let code ← hexNumber? [a, b, c, d]
    let (text, rest) ← readString cs
    return (Char.ofNat code :: text, rest)
  | '\\' :: e :: cs => do
    let c ← unescape? e
    let (text, rest) ← readString cs
    return (c :: text, rest)
  | c :: cs => do
    let (text, rest) ← readString cs
    if c.toNat < 0x20 then none else return (c :: text, rest)

/-- The four digits of a control character are its number. -/
theorem hexNumber?_low {n : Nat} (h : n < 0x20) :
    hexNumber? ['0', '0', Nat.digitChar (n / 16), Nat.digitChar (n % 16)] = some n := by
  have hall : ∀ n : Fin 0x20, hexNumber? ['0', '0', Nat.digitChar (n.val / 16),
      Nat.digitChar (n.val % 16)] = some n.val := by decide
  exact hall ⟨n, h⟩

/-- Reading an escape gives the character back. -/
theorem readString_escape (c : Char) (cs : List Char) :
    readString (escape c ++ cs) = (readString cs).map fun read => (c :: read.1, read.2) := by
  have hread : ∀ x : Option (List Char × List Char),
      (do let (text, rest) ← x; return (c :: text, rest)) =
        x.map fun read => (c :: read.1, read.2) := by
    intro x
    cases x <;> rfl
  unfold escape
  split
  · exact hread _
  · exact hread _
  · exact hread _
  · exact hread _
  · exact hread _
  · exact hread _
  · exact hread _
  · next hquote hslash _ _ _ _ _ =>
    split
    · next hlow =>
      rw [← hread]
      simp [readString, hexNumber?_low hlow, Char.ofNat_toNat]
    · next hlow =>
      rw [List.singleton_append, readString]
      · rw [← hread]
        simp [hlow]
      · exact hquote
      · exact fun _ _ _ _ _ h _ => absurd h hslash
      · exact fun _ _ h => absurd h hslash

/-- Reading a quotation gives its text back, and what stands behind it. -/
theorem readString_quote (s : String) (cs : List Char) :
    readString (s.toList.flatMap escape ++ '"' :: cs) = some (s.toList, cs) := by
  induction s.toList with
  | nil => rfl
  | cons c text ih =>
    rw [List.flatMap_cons, List.append_assoc, readString_escape, ih]
    rfl

/-! ## lists of parts -/

section Parts

variable {α : Type} (part : List Char → Option (α × List Char)) (close : Char)

/-- Reads parts with commas between them, up to behind the bracket that closes them. -/
def readParts : Nat → List Char → Option (List α × List Char)
  | 0, _ => none
  | n + 1, cs =>
    match part cs with
    | some (a, c :: cs) =>
      if c = ',' then (readParts n cs).map fun read => (a :: read.1, read.2)
      else if c = close then some ([a], cs)
      else none
    | _ => none

/-- Reads parts from behind their opening bracket; there may be none. -/
def readList (cs : List Char) : Option (List α × List Char) :=
  if cs.head? = some close then some ([], cs.tail) else readParts part close cs.length cs

variable {part close} {write : α → String}

/-- The text of a list of parts, which begins with the first of them. -/
theorem toList_intercalate_cons (text : String) (texts : List String) :
    (",".intercalate (text :: texts)).toList =
      text.toList ++ texts.flatMap fun text => ',' :: text.toList := by
  induction texts generalizing text with
  | nil => simp
  | cons next texts ih =>
    rw [String.intercalate_cons_cons, String.toList_append, String.toList_append, ih next,
      List.flatMap_cons]
    simp

/-- Every part takes up at least its comma. -/
theorem length_le_flatMap_comma (texts : List String) :
    texts.length ≤ (texts.flatMap fun text => ',' :: text.toList).length := by
  induction texts with
  | nil => exact Nat.le_refl _
  | cons text texts ih =>
    rw [List.flatMap_cons, List.length_append, List.length_cons, List.length_cons]
    omega

/-- Parts that are read back wherever a comma or the bracket follows are read back as a list. -/
theorem readParts_intercalate (hclose : close ≠ ',') {a : α} {as : List α} {cs : List Char}
    {n : Nat} (hn : as.length < n)
    (hpart : ∀ b ∈ a :: as, ∀ c cs, c = ',' ∨ c = close →
      part ((write b).toList ++ c :: cs) = some (b, c :: cs)) :
    readParts part close n ((",".intercalate ((a :: as).map write)).toList ++ close :: cs) =
      some (a :: as, cs) := by
  rw [List.map_cons, toList_intercalate_cons]
  induction as generalizing a n with
  | nil =>
    obtain ⟨n, rfl⟩ := Nat.exists_eq_add_of_lt hn
    have hfirst := hpart a (List.mem_singleton_self a) close cs (.inr rfl)
    simp [readParts, hfirst, hclose]
  | cons b as ih =>
    obtain ⟨n, rfl⟩ := Nat.exists_eq_add_of_lt hn
    have hfirst := hpart a List.mem_cons_self ','
      ((write b).toList ++ ((as.map write).flatMap fun text => ',' :: text.toList) ++
        close :: cs) (.inl rfl)
    have hrest := ih (n := (b :: as).length + n) (by simp [Nat.lt_add_right])
      fun c hc => hpart c (List.mem_cons_of_mem a hc)
    rw [List.map_cons, List.flatMap_cons, List.cons_append, List.append_assoc, List.cons_append,
      List.append_assoc]
    rw [List.append_assoc] at hfirst hrest
    simp only [readParts, hfirst, if_true, hrest, Option.map_some]

/-- A list is read back if its parts are, whatever closes it. -/
theorem readList_intercalate (hclose : close ≠ ',') {as : List α} {cs : List Char}
    (hopen : ∀ a ∈ as, ∀ cs, ((write a).toList ++ cs).head? ≠ some close)
    (hpart : ∀ b ∈ as, ∀ c cs, c = ',' ∨ c = close →
      part ((write b).toList ++ c :: cs) = some (b, c :: cs)) :
    readList part close ((",".intercalate (as.map write)).toList ++ close :: cs) =
      some (as, cs) := by
  cases as with
  | nil => simp [readList]
  | cons a as =>
    have hhead := hopen a List.mem_cons_self
    rw [readList, if_neg, readParts_intercalate hclose ?_ hpart]
    · rw [List.map_cons, toList_intercalate_cons, List.length_append, List.length_append,
        List.length_cons]
      have hlen := length_le_flatMap_comma (as.map write)
      rw [List.length_map] at hlen
      omega
    · rw [List.map_cons, toList_intercalate_cons, List.append_assoc]
      exact hhead _

end Parts

/-! ## values -/

/-- Reads a field of an object, whose value `value` reads. -/
def readField (value : List Char → Option (Value × List Char)) :
    List Char → Option ((String × Value) × List Char)
  | '"' :: cs =>
    match readString cs with
    | some (name, ':' :: cs) => (value cs).map fun read => ((String.ofList name, read.1), read.2)
    | _ => none
  | _ => none

/-- Reads a number, which has no zeros in front. -/
def readNumber (cs : List Char) : Option (Value × List Char) :=
  let digits := cs.takeWhile Char.isDigit
  let n := Nat.ofDigitChars 10 digits 0
  if n.repr.toList = digits then some (.number n, cs.dropWhile Char.isDigit) else none

namespace Value

/-- Reads a value with at most so many brackets around each other, and what follows it. -/
def readValue : Nat → List Char → Option (Value × List Char)
  | 0, _ => none
  | _, [] => none
  | depth + 1, c :: cs =>
    if c = '"' then
      (readString cs).map fun read => (.string (String.ofList read.1), read.2)
    else if c = '[' then
      (readList (readValue depth) ']' cs).map fun read => (.array read.1, read.2)
    else if c = '\x7b' then
      (readList (readField (readValue depth)) '\x7d' cs).map fun read => (.object read.1, read.2)
    else if "true".toList.isPrefixOf (c :: cs) then some (.bool true, cs.drop 3)
    else if "false".toList.isPrefixOf (c :: cs) then some (.bool false, cs.drop 4)
    else readNumber (c :: cs)

/-- The value of a text, if it is the text of one. -/
def ofText? (text : String) : Option Value :=
  match readValue (text.length + 1) text.toList with
  | some (v, []) => some v
  | _ => none

theorem compactItems_eq (items : List Value) : compactItems items = items.map compact := by
  induction items with
  | nil => rfl
  | cons v items ih => rw [compactItems, ih, List.map_cons]

theorem compactFields_eq (fields : List (String × Value)) :
    compactFields fields = fields.map fun field => quote field.1 ++ ":" ++ field.2.compact := by
  induction fields with
  | nil => rfl
  | cons field fields ih => rw [compactFields, ih, List.map_cons]

/-- A value is read back from its compact text, whatever follows that goes on with no digit. -/
def ReadBack (v : Value) : Prop :=
  ∀ depth cs, v.compact.length ≤ depth → cs.head?.all (!·.isDigit) = true →
    readValue (depth + 1) (v.compact.toList ++ cs) = some (v, cs)

/-- The digits of a number are digits. -/
theorem isDigit_of_mem_repr {n : Nat} {c : Char} (h : c ∈ n.repr.toList) : c.isDigit = true := by
  rw [Nat.toList_repr] at h
  exact Nat.isDigit_of_mem_toDigits (by decide) (by decide) h

/-- Reading the digits of a number gives the number back. -/
theorem readNumber_repr (n : Nat) {cs : List Char} (hcs : cs.head?.all (!·.isDigit) = true) :
    readNumber (n.repr.toList ++ cs) = some (.number n, cs) := by
  have htake : cs.takeWhile Char.isDigit = [] ∧ cs.dropWhile Char.isDigit = cs := by
    cases cs with
    | nil => exact ⟨rfl, rfl⟩
    | cons c cs => simp_all
  have hvalue : Nat.ofDigitChars 10 n.repr.toList 0 = n := by
    rw [Nat.toList_repr, Nat.ofDigitChars_ten_toDigits]
  rw [readNumber, List.takeWhile_append_of_pos fun _ => isDigit_of_mem_repr,
    List.dropWhile_append_of_pos fun _ => isDigit_of_mem_repr, htake.1, htake.2, List.append_nil,
    hvalue, if_pos rfl]

/-- What begins with a digit is a number. -/
theorem readValue_of_isDigit {c : Char} (h : c.isDigit = true) (cs : List Char) (depth : Nat) :
    readValue (depth + 1) (c :: cs) = readNumber (c :: cs) := by
  have hne : ∀ d : Char, d.isDigit = false → c ≠ d := by
    rintro d hd rfl
    rw [h] at hd
    cases hd
  have hbool : ∀ d word, d.isDigit = false → (d :: word).isPrefixOf (c :: cs) = false := by
    intro d word hd
    simp [List.isPrefixOf, Ne.symm (hne d hd)]
  rw [readValue, if_neg (hne _ rfl), if_neg (hne _ rfl), if_neg (hne _ rfl)]
  simp only [String.reduceToList, hbool _ _ (show Char.isDigit 't' = false from rfl),
    hbool _ _ (show Char.isDigit 'f' = false from rfl)]
  rfl

/-- A number is read back. -/
theorem readBack_number (n : Nat) : (Value.number n).ReadBack := by
  intro depth cs _ hcs
  have hread := readNumber_repr n hcs
  rw [compact]
  cases hrepr : n.repr.toList with
  | nil =>
    rw [Nat.toList_repr] at hrepr
    exact absurd hrepr Nat.toDigits_ne_nil
  | cons c text =>
    have hdigit : c.isDigit = true := isDigit_of_mem_repr (hrepr ▸ List.mem_cons_self)
    rw [hrepr, List.cons_append] at hread
    rw [List.cons_append, readValue_of_isDigit hdigit, hread]

/-- A string is read back. -/
theorem readBack_string (s : String) : (Value.string s).ReadBack := by
  intro depth cs _ _
  have hread := readString_quote s cs
  rw [compact, quote, String.toList_ofList, List.append_assoc, List.cons_append,
    List.singleton_append, readValue, if_pos rfl, hread]
  simp

/-- A part is no longer than all parts with the commas between. -/
theorem length_le_intercalate {text : String} {texts : List String} (h : text ∈ texts) :
    text.length ≤ (",".intercalate texts).length := by
  induction texts with
  | nil => cases h
  | cons first texts ih =>
    cases texts with
    | nil =>
      obtain rfl := List.mem_singleton.1 h
      exact Nat.le_of_eq (by rw [String.intercalate_singleton])
    | cons next texts =>
      rw [String.intercalate_cons_cons, String.length_append, String.length_append]
      cases List.mem_cons.1 h with
      | inl heq =>
        rw [heq]
        omega
      | inr hmem =>
        have := ih hmem
        omega

/-- No value begins with the bracket that closes an array. -/
theorem head?_compact_ne (v : Value) (cs : List Char) :
    (v.compact.toList ++ cs).head? ≠ some ']' := by
  cases v with
  | bool b => cases b <;> simp [compact]
  | number n =>
    intro h
    rw [compact, List.head?_append_of_ne_nil _ (by simp)] at h
    cases isDigit_of_mem_repr (List.mem_of_head? h)
  | string s => simp [compact, quote]
  | array items => simp [compact]
  | object fields => simp [compact]

/-- An array is read back if its items are. -/
theorem readBack_array {items : List Value} (h : ∀ v ∈ items, v.ReadBack) :
    (Value.array items).ReadBack := by
  intro depth cs hdepth _
  rw [compact, compactItems_eq] at hdepth ⊢
  rw [String.length_append, String.length_append, show "[".length = 1 from rfl] at hdepth
  obtain ⟨depth, rfl⟩ : ∃ d, depth = d + 1 := ⟨depth - 1, by omega⟩
  have hread : readList (readValue (depth + 1)) ']'
      ((",".intercalate (items.map compact)).toList ++ ']' :: cs) = some (items, cs) := by
    refine readList_intercalate (by decide) (fun v _ => head?_compact_ne v) ?_
    intro v hv c cs hc
    have hle := length_le_intercalate (List.mem_map_of_mem (f := compact) hv)
    refine h v hv depth _ (by omega) ?_
    rcases hc with rfl | rfl <;> rfl
  generalize ",".intercalate (items.map compact) = text at hread ⊢
  simp [readValue, hread]

/-- An object is read back if the values of its fields are. -/
theorem readBack_object {fields : List (String × Value)} (h : ∀ field ∈ fields, field.2.ReadBack) :
    (Value.object fields).ReadBack := by
  intro depth cs hdepth _
  rw [compact, compactFields_eq] at hdepth ⊢
  rw [String.length_append, String.length_append, show "\x7b".length = 1 from rfl] at hdepth
  obtain ⟨depth, rfl⟩ : ∃ d, depth = d + 1 := ⟨depth - 1, by omega⟩
  have hread : readList (readField (readValue (depth + 1))) '\x7d'
      ((",".intercalate (fields.map fun field => quote field.1 ++ ":" ++ field.2.compact)).toList ++
        '\x7d' :: cs) = some (fields, cs) := by
    refine readList_intercalate (by decide) (fun field _ cs => by simp [quote]) ?_
    intro field hfield c cs hc
    have hle := length_le_intercalate (List.mem_map_of_mem
      (f := fun field : String × Value => quote field.1 ++ ":" ++ field.2.compact) hfield)
    rw [String.length_append] at hle
    have hname := readString_quote field.1 (':' :: (field.2.compact.toList ++ c :: cs))
    have hvalue := h field hfield depth (c :: cs) (by omega) (by rcases hc with rfl | rfl <;> rfl)
    simp [quote, readField, hname, hvalue]
  generalize ",".intercalate (fields.map _) = text at hread ⊢
  simp [readValue, hread]

mutual
/-- Every value is read back from its compact text. -/
theorem readBack : (v : Value) → v.ReadBack
  | .bool true => fun depth cs _ _ => by simp [compact, readValue]
  | .bool false => fun depth cs _ _ => by simp [compact, readValue]
  | .number n => readBack_number n
  | .string s => readBack_string s
  | .array items => readBack_array (readBackItems items)
  | .object fields => readBack_object (readBackFields fields)

theorem readBackItems : (items : List Value) → ∀ v ∈ items, v.ReadBack
  | [] => by simp
  | v :: vs => List.forall_mem_cons.2 ⟨readBack v, readBackItems vs⟩

theorem readBackFields : (fields : List (String × Value)) → ∀ field ∈ fields, field.2.ReadBack
  | [] => by simp
  | (_, v) :: fields => List.forall_mem_cons.2 ⟨readBack v, readBackFields fields⟩
end

/-- Every value is read back from its text. -/
theorem ofText?_compact (v : Value) : ofText? v.compact = some v := by
  have hread := readBack v v.compact.length [] (Nat.le_refl _) rfl
  rw [List.append_nil] at hread
  rw [ofText?, hread]

end Value

end Json

/-! ## what a compact text is made of -/

namespace Text

/-- No character of the text is below the space. -/
def Printable (s : String) : Prop := ∀ c ∈ s.toList, 0x20 ≤ c.toNat

theorem printable_of_all {s : String} (h : (s.toList.all fun c => 0x20 ≤ c.toNat) = true) :
    Printable s := by
  simpa [Printable] using h

/-- Printable texts are printable one behind the other. -/
theorem Printable.append {s t : String} (hs : Printable s) (ht : Printable t) :
    Printable (s ++ t) := by
  intro c hc
  rw [String.toList_append, List.mem_append] at hc
  exact hc.elim (hs c) (ht c)

/-- Printable texts are printable with a printable text between them. -/
theorem Printable.intercalate {sep : String} {parts : List String} (hsep : Printable sep)
    (hparts : ∀ part ∈ parts, Printable part) : Printable (sep.intercalate parts) := by
  induction parts with
  | nil =>
    rw [String.intercalate_nil]
    exact fun c hc => by cases hc
  | cons part parts ih =>
    obtain ⟨hpart, hparts⟩ := List.forall_mem_cons.1 hparts
    cases parts with
    | nil => rwa [String.intercalate_singleton]
    | cons next rest =>
      rw [String.intercalate_cons_cons]
      exact (hpart.append hsep).append (ih hparts)

/-- A printable text holds no line feed. -/
theorem Printable.newline_not_mem {s : String} (h : Printable s) : '\n' ∉ s.toList :=
  fun hmem => absurd (h '\n' hmem) (by decide)

end Text

namespace Json

theorem printable_digitChar {n : Nat} (h : n < 16) : 0x20 ≤ (Nat.digitChar n).toNat := by
  have hall : ∀ n : Fin 16, 0x20 ≤ (Nat.digitChar n).toNat := by decide
  exact hall ⟨n, h⟩

/-- A character below the space is written with characters that are not. -/
theorem all_escape (c : Char) : ((escape c).all fun d => 0x20 ≤ d.toNat) = true := by
  unfold escape
  split
  · rfl
  · rfl
  · rfl
  · rfl
  · rfl
  · rfl
  · rfl
  · split
    · next hlow =>
      have hhigh := printable_digitChar (show c.toNat / 16 < 16 by omega)
      have hrest := printable_digitChar (show c.toNat % 16 < 16 by omega)
      simp [hhigh, hrest]
    · next hlow => simpa using hlow

/-- A quotation is printable, whatever it quotes. -/
theorem printable_quote (s : String) : Text.Printable (quote s) := by
  intro c hc
  simp only [quote, String.toList_ofList, List.cons_append, List.mem_cons, List.mem_append,
    List.mem_flatMap, List.not_mem_nil, or_false] at hc
  obtain rfl | ⟨d, -, hd⟩ | rfl := hc
  · decide
  · simpa using List.all_eq_true.1 (all_escape d) c hd
  · decide

namespace Value

/-- The digits of a number are printable. -/
theorem printable_repr (n : Nat) : Text.Printable n.repr := by
  intro c hc
  have hdigit := isDigit_of_mem_repr hc
  simp only [Char.isDigit, Bool.and_eq_true, decide_eq_true_eq] at hdigit
  have hlow : (48 : Nat) ≤ c.toNat := hdigit.1
  omega

theorem printable_intercalate_comma {parts : List String}
    (h : ∀ part ∈ parts, Text.Printable part) : Text.Printable (",".intercalate parts) :=
  .intercalate (Text.printable_of_all rfl) h

/-- A text between two brackets. -/
theorem printable_bracketed {opener closer text : String} (h : Text.Printable text)
    (hopener : (opener.toList.all fun c => 0x20 ≤ c.toNat) = true)
    (hcloser : (closer.toList.all fun c => 0x20 ≤ c.toNat) = true) :
    Text.Printable (opener ++ text ++ closer) :=
  ((Text.printable_of_all hopener).append h).append (Text.printable_of_all hcloser)

mutual
/-- A compact text has no character below the space. -/
theorem printable_compact : (v : Value) → Text.Printable v.compact
  | .bool true => Text.printable_of_all rfl
  | .bool false => Text.printable_of_all rfl
  | .number n => printable_repr n
  | .string s => printable_quote s
  | .array items =>
    printable_bracketed (printable_intercalate_comma (printable_compactItems items)) rfl rfl
  | .object fields =>
    printable_bracketed (printable_intercalate_comma (printable_compactFields fields)) rfl rfl

theorem printable_compactItems :
    (items : List Value) → ∀ text ∈ compactItems items, Text.Printable text
  | [] => by simp [compactItems]
  | v :: vs => by
    rw [compactItems, List.forall_mem_cons]
    exact ⟨printable_compact v, printable_compactItems vs⟩

theorem printable_compactFields :
    (fields : List (String × Value)) → ∀ text ∈ compactFields fields, Text.Printable text
  | [] => by simp [compactFields]
  | (name, v) :: fields => by
    rw [compactFields, List.forall_mem_cons]
    have hname : Text.Printable (quote name ++ ":") :=
      (printable_quote name).append (Text.printable_of_all rfl)
    exact ⟨hname.append (printable_compact v), printable_compactFields fields⟩
end

end Value

end Json

end ConnectorAudit
