import ConnectorAudit.Proofs.Bodies
import ConnectorAudit.Proofs.Data

/-!
# Parameter lists

The parameters of a lambda are read by one loop over the tokens between its bars.
It passes over default values with one counter of brackets and one flag, so commas,
labels and closing brackets have to mean one thing inside a default value and
another outside.  They do, for default values nested to any depth:

* `DefaultValue.anywhere`, `Parameter.anywhere`: the scan reads what is written;
* `DefaultValue.passes`: a default value leaves the state of the loop as it was;
* `Parameter.passes`, `Parameter.parameters_listed`: one parameter, and a list of them;
* `Parameter.parsed_lambdaText`: hence the parameters of a lambda.
-/

namespace ConnectorAudit

open Datum (Anywhere)
open Reader (Spelled)
open Spelling (textOf tokens)

/-! ## what is written -/

/-- A decimal numeral, perhaps with a fraction. -/
structure Decimal where
  whole : Datum.Digits
  fraction : Option Datum.Digits := none

def Decimal.text (value : Decimal) : String :=
  value.whole.text ++ value.fraction.elim "" fun digits => "." ++ digits.text

/-- A default value: a numeral, an array or a hash of such values. -/
inductive DefaultValue where
  | numeral (value : Decimal)
  | array (items : List DefaultValue)
  | hash (entries : List (Datum.Name × DefaultValue))

namespace DefaultValue

mutual
/-- How a default value is written; blanks stand inside the braces of a hash with entries. -/
def text : DefaultValue → String
  | numeral value => value.text
  | array items => "[" ++ ", ".intercalate (texts items) ++ "]"
  | hash entries =>
    if entries.isEmpty then "\x7b\x7d"
    else "\x7b " ++ ", ".intercalate (entryTexts entries) ++ " \x7d"
def texts : List DefaultValue → List String
  | [] => []
  | value :: values => value.text :: texts values
def entryTexts : List (Datum.Name × DefaultValue) → List String
  | [] => []
  | (key, value) :: entries => (key.text ++ ": " ++ value.text) :: entryTexts entries
end

/-- Induction over default values: what holds of the parts of an array or a hash holds of it. -/
@[elab_as_elim]
theorem induction {motive : DefaultValue → Prop} (numeral : ∀ value, motive (.numeral value))
    (array : ∀ items, (∀ value ∈ items, motive value) → motive (.array items))
    (hash : ∀ entries, (∀ entry ∈ entries, motive entry.2) → motive (.hash entries))
    (value : DefaultValue) : motive value :=
  @DefaultValue.rec motive (fun items => ∀ value ∈ items, motive value)
    (fun entries => ∀ entry ∈ entries, motive entry.2) (fun entry => motive entry.2)
    numeral array hash nofun (fun _ _ hvalue hvalues => List.forall_mem_cons.2 ⟨hvalue, hvalues⟩)
    nofun (fun _ _ hentry hentries => List.forall_mem_cons.2 ⟨hentry, hentries⟩)
    (fun _ _ hvalue => hvalue) value

end DefaultValue

/-- The name of a parameter, which is no word that opens or closes a body. -/
structure ParameterName extends Datum.Name where
  notMem : text ∉ bodyWords

/-- What stands before the name of a parameter that gathers arguments. -/
inductive Sigil where
  | rest
  | keywords
  | block

def Sigil.text : Sigil → String
  | rest => "*"
  | keywords => "**"
  | block => "&"

inductive Parameter where
  /-- `n`, or `n = D`. -/
  | positional (name : ParameterName) (default : Option DefaultValue)
  /-- `n:`, or `n: D`. -/
  | keyword (name : ParameterName) (default : Option DefaultValue)
  /-- `*n`, `**n` or `&n`. -/
  | gathered (sigil : Sigil) (name : ParameterName)

namespace Parameter

def text : Parameter → String
  | positional name none => name.text
  | positional name (some value) => name.text ++ " = " ++ value.text
  | keyword name none => name.text ++ ":"
  | keyword name (some value) => name.text ++ ": " ++ value.text
  | gathered sigil name => sigil.text ++ name.text

/-- A parameter without its default value. -/
def shown : Parameter → String
  | positional name _ => name.text
  | keyword name _ => name.text ++ ":"
  | gathered sigil name => sigil.text ++ name.text

/-- A lambda with these parameters and nothing in its body. -/
def lambdaText (ps : List Parameter) : String :=
  "lambda do |" ++ ", ".intercalate (ps.map text) ++ "| end"

end Parameter

/-! ## lists with commas -/

section Listed

variable {α : Type} {spell : Lead → α → List Spelling}

/-- Items spelled one after the other, with a comma and a blank between them. -/
def listed (spell : Lead → α → List Spelling) : Lead → List α → List Spelling
  | _, [] => []
  | lead, [a] => spell lead a
  | lead, a :: b :: items => spell lead a ++ .mark .tight "," :: listed spell .spaced (b :: items)

/-- The text of a list is that of its items, with commas between. -/
theorem textOf_listed {text : α → String} {items : List α}
    (h : ∀ a ∈ items, ∀ lead, textOf (spell lead a) = lead.chars ++ (text a).toList)
    (hne : items ≠ []) (lead : Lead) :
    textOf (listed spell lead items) =
      lead.chars ++ (", ".intercalate (items.map text)).toList := by
  induction items generalizing lead with
  | nil => exact absurd rfl hne
  | cons a items ih =>
    obtain ⟨ha, hitems⟩ := List.forall_mem_cons.1 h
    cases items with
    | nil => simpa [listed] using ha lead
    | cons b items =>
      have hrest := ih hitems (by simp) .spaced
      simp only [listed, Spelling.textOf_append, Spelling.textOf_cons, ha, hrest, List.map_cons,
        String.intercalate_cons_cons, String.toList_append, List.append_assoc]
      rfl

/-- What stands behind an item of a list or behind a parameter. -/
def Follows (after : List Char) : Prop := ∃ c rest, after = c :: rest ∧ c ∈ [',', ' ', ']', '|']

/-- It goes on with nothing before it. -/
theorem Follows.ends {after : List Char} (h : Follows after) :
    Reader.endsName after = true ∧ Reader.endsNumeral after = true ∧ labelColon after = false ∧
      labelColon (':' :: after) = true := by
  obtain ⟨c, rest, rfl, hc⟩ := h
  simp only [List.mem_cons, List.not_mem_nil, or_false] at hc
  rcases hc with rfl | rfl | rfl | rfl <;> exact ⟨rfl, rfl, rfl, rfl⟩

/-- A list stands anywhere if its items do. -/
theorem anywhere_listed {items : List α}
    (h : ∀ a ∈ items, ∀ lead after, Follows after → Anywhere (spell lead a) after) (lead : Lead)
    {after : List Char} (hafter : Follows after) : Anywhere (listed spell lead items) after := by
  induction items generalizing lead with
  | nil => exact fun _ m => ⟨m, .nil⟩
  | cons a items ih =>
    obtain ⟨ha, hitems⟩ := List.forall_mem_cons.1 h
    cases items with
    | nil => exact ha lead after hafter
    | cons b items =>
      rw [listed, ← List.singleton_append]
      refine .append ?_ (.append (Datum.anywhere_comma _) (ih hitems .spaced))
      exact ha lead _ ⟨',', _, rfl, by simp⟩

/-- What holds of a comma and of all items holds of the list. -/
theorem all_listed {q : Spelling → Bool} (hcomma : q (.mark .tight ",") = true) {items : List α}
    (h : ∀ a ∈ items, ∀ lead, (spell lead a).all q = true) (lead : Lead) :
    (listed spell lead items).all q = true := by
  induction items generalizing lead with
  | nil => rfl
  | cons a items ih =>
    obtain ⟨ha, hitems⟩ := List.forall_mem_cons.1 h
    cases items with
    | nil => exact ha lead
    | cons b items => simp only [listed, List.all_append, List.all_cons, ha, hcomma, ih hitems,
        Bool.and_self]

end Listed

/-! ## the scan -/

/-- A decimal number stands anywhere in front of what may follow it. -/
theorem Decimal.anywhere (value : Decimal) (lead : Lead) {after : List Char}
    (hafter : Follows after) : Anywhere [.numeral lead value.text] after := by
  have hdigits : ∀ digits : Datum.Digits, ∀ c ∈ digits.text.toList, c.isDigit = true :=
    fun digits => List.all_eq_true.1 digits.form
  have hne : ∀ digits : Datum.Digits, digits.text.toList ≠ [] := fun digits => by
    rw [ne_eq, String.toList_eq_nil_iff]
    exact digits.ne
  obtain ⟨whole, fraction⟩ := value
  obtain ⟨c, cs, hcs⟩ : ∃ c cs, whole.text.toList = c :: cs :=
    List.exists_cons_of_ne_nil (hne whole)
  have hc : c.isDigit = true := hdigits whole c (by simp [hcs])
  intro before m
  cases fraction with
  | none =>
    have htext : (Decimal.mk whole none).text.toList = c :: cs := by simp [Decimal.text, hcs]
    refine ⟨_, .numeral_of_length htext hc ?_ .nil⟩
    rw [htext, ← hcs]
    exact Reader.numeralLength_append (hdigits whole) (hne whole) hafter.ends.2.1
  | some digits =>
    have htext : (Decimal.mk whole (some digits)).text.toList =
        whole.text.toList ++ '.' :: digits.text.toList := by
      simp [Decimal.text]
    refine ⟨_, .numeral_of_length (htext.trans (by rw [hcs, List.cons_append])) hc ?_ .nil⟩
    rw [htext]
    exact Reader.numeralLength_fraction (hdigits whole) (hne whole) (hdigits digits) (hne digits)
      hafter.ends.2.1

/-- A key or a keyword, with its colon. -/
theorem anywhere_label (lead : Lead) (name : Datum.Name) {after : List Char}
    (hafter : Follows after) : Anywhere [.key lead name.text] after := by
  intro before m
  exact ⟨_, .key name.isWord (name.startsToken rfl) hafter.ends.2.2.2 .nil⟩

/-- A square bracket. -/
theorem anywhere_bracket (lead : Lead) {text : String} (htext : text = "[" ∨ text = "]")
    (after : List Char) : Anywhere [.mark lead text] after := by
  intro before m
  rcases htext with rfl | rfl
  · exact ⟨_, .mark (c := '[') rfl rfl (by decide) rfl rfl .nil⟩
  · exact ⟨_, .mark (c := ']') rfl rfl (by decide) rfl rfl .nil⟩

namespace DefaultValue

mutual
def spellings (lead : Lead) : DefaultValue → List Spelling
  | numeral value => [.numeral lead value.text]
  | array items => .mark lead "[" :: (itemSpellings .tight items ++ [.mark .tight "]"])
  | hash entries =>
    .opening lead :: (entrySpellings .spaced entries ++
      [.closing (if entries.isEmpty then .tight else .spaced)])
def itemSpellings : Lead → List DefaultValue → List Spelling
  | _, [] => []
  | lead, [value] => value.spellings lead
  | lead, value :: other :: values =>
    value.spellings lead ++ .mark .tight "," :: itemSpellings .spaced (other :: values)
def entrySpellings : Lead → List (Datum.Name × DefaultValue) → List Spelling
  | _, [] => []
  | lead, [(key, value)] => .key lead key.text :: value.spellings .spaced
  | lead, (key, value) :: entry :: entries =>
    .key lead key.text :: (value.spellings .spaced ++
      .mark .tight "," :: entrySpellings .spaced (entry :: entries))
end

def entrySpelling (lead : Lead) (entry : Datum.Name × DefaultValue) : List Spelling :=
  .key lead entry.1.text :: entry.2.spellings .spaced

/-- The spellings of items are a list of spellings. -/
theorem itemSpellings_eq_listed (lead : Lead) (items : List DefaultValue) :
    itemSpellings lead items = listed spellings lead items := by
  induction items generalizing lead with
  | nil => rfl
  | cons value items ih =>
    cases items with
    | nil => rfl
    | cons other items => rw [itemSpellings, listed, ih]

theorem entrySpellings_eq_listed (lead : Lead) (entries : List (Datum.Name × DefaultValue)) :
    entrySpellings lead entries = listed entrySpelling lead entries := by
  induction entries generalizing lead with
  | nil => rfl
  | cons entry entries ih =>
    obtain ⟨key, value⟩ := entry
    cases entries with
    | nil => rfl
    | cons other entries =>
      rw [entrySpellings, listed, ih]
      rfl

theorem texts_eq_map (items : List DefaultValue) : texts items = items.map text := by
  induction items with
  | nil => rfl
  | cons value items ih => rw [texts, ih, List.map_cons]

theorem entryTexts_eq_map (entries : List (Datum.Name × DefaultValue)) :
    entryTexts entries = entries.map fun entry => entry.1.text ++ ": " ++ entry.2.text := by
  induction entries with
  | nil => rfl
  | cons entry entries ih => rw [entryTexts, ih, List.map_cons]

/-- The spellings of a value are its text. -/
theorem textOf_spellings (value : DefaultValue) (lead : Lead) :
    textOf (value.spellings lead) = lead.chars ++ value.text.toList := by
  induction value using DefaultValue.induction generalizing lead with
  | numeral value => simp [spellings, text, Spelling.chars, Spelling.numeral]
  | array items ih =>
    have hitems : textOf (listed spellings .tight items) =
        (", ".intercalate (items.map text)).toList := by
      cases items with
      | nil => rfl
      | cons value items => exact textOf_listed ih (by simp) .tight
    simp [spellings, text, itemSpellings_eq_listed, texts_eq_map, hitems, Spelling.chars,
      Spelling.mark, Lead.chars]
  | hash entries ih =>
    cases entries with
    | nil => simp [spellings, entrySpellings, text, Spelling.chars, Spelling.opening,
        Spelling.closing, Lead.chars]
    | cons entry entries =>
      have hentry : ∀ e ∈ entry :: entries, ∀ lead, textOf (entrySpelling lead e) =
          lead.chars ++ (e.1.text ++ ": " ++ e.2.text).toList := by
        intro e he lead
        simp [entrySpelling, ih e he, Spelling.chars, Spelling.key, Lead.chars]
      have hentries := textOf_listed hentry (by simp) .spaced
      simp [spellings, text, entrySpellings_eq_listed, entryTexts_eq_map, hentries, Spelling.chars,
        Spelling.opening, Spelling.closing, Lead.chars]

/-- A default value is read as it is spelled. -/
theorem anywhere (value : DefaultValue) (lead : Lead) {after : List Char}
    (hafter : Follows after) : Anywhere (value.spellings lead) after := by
  induction value using DefaultValue.induction generalizing lead after with
  | numeral value => exact value.anywhere lead hafter
  | array items ih =>
    rw [spellings, itemSpellings_eq_listed, ← List.singleton_append]
    refine .append (anywhere_bracket lead (.inl rfl) _)
      (.append ?_ (anywhere_bracket .tight (.inr rfl) _))
    exact anywhere_listed (fun value hvalue lead after => ih value hvalue lead) .tight
      ⟨']', _, rfl, by simp⟩
  | hash entries ih =>
    rw [spellings, entrySpellings_eq_listed, ← List.singleton_append]
    refine .append (Datum.anywhere_brace (.inl rfl) _)
      (.append ?_ (Datum.anywhere_brace (.inr rfl) _))
    cases entries with
    | nil => exact fun _ m => ⟨m, .nil⟩
    | cons entry entries =>
      refine anywhere_listed (fun e he lead after hafter => ?_) .spaced ⟨' ', _, rfl, by simp⟩
      rw [entrySpelling, ← List.singleton_append]
      refine .append (anywhere_label lead e.1 ?_) (ih e he .spaced hafter)
      rw [textOf_spellings]
      exact ⟨' ', _, rfl, by simp⟩

/-- No comment is spelled. -/
theorem all_spellings (value : DefaultValue) (lead : Lead) :
    (value.spellings lead).all (·.kind != .comment) = true := by
  induction value using DefaultValue.induction generalizing lead with
  | numeral value => rfl
  | array items ih =>
    have hitems := all_listed rfl ih .tight
    simp only [spellings, itemSpellings_eq_listed, List.all_cons, List.all_append, hitems]
    rfl
  | hash entries ih =>
    have hentries : (listed entrySpelling .spaced entries).all (·.kind != .comment) = true := by
      refine all_listed rfl (fun entry hentry lead => ?_) .spaced
      exact ih entry hentry .spaced
    simp only [spellings, entrySpellings_eq_listed, List.all_cons, List.all_append, hentries]
    rfl

end DefaultValue

/-! ### punctuation before names -/

/-- What no word has is behind every word that a text begins with. -/
theorem isPrefixOf_append_cons {word : List Char} {d : Char} (hd : d ∉ word)
    (cs after : List Char) : word.isPrefixOf (cs ++ d :: after) = word.isPrefixOf cs := by
  induction word generalizing cs with
  | nil => simp
  | cons c word ih =>
    simp only [List.mem_cons, not_or] at hd
    cases cs with
    | nil => simp [List.isPrefixOf, Ne.symm hd.1]
    | cons e cs => simp [List.isPrefixOf, ih hd.2]

/-- Punctuation goes on with no character of a name. -/
theorem firstOf_punctuation {text : String}
    (htext : firstOf punctuation text.toList = some text) {d : Char} (hd : isNameChar d = true)
    (after : List Char) : firstOf punctuation (text.toList ++ d :: after) = some text := by
  have hapart : punctuation.all (fun word => word.toList.all (!isNameChar ·)) = true := by decide
  have hsame : ∀ words : List String, (∀ word ∈ words, d ∉ word.toList) →
      firstOf words (text.toList ++ d :: after) = firstOf words text.toList := by
    intro words hwords
    induction words with
    | nil => rfl
    | cons word words ih =>
      obtain ⟨hword, hwords⟩ := List.forall_mem_cons.1 hwords
      unfold firstOf at ih ⊢
      rw [List.find?_cons, List.find?_cons, isPrefixOf_append_cons hword, ih hwords]
  rw [hsame _ fun word hword hmem => ?_, htext]
  have hchars := List.all_eq_true.1 (List.all_eq_true.1 hapart word hword) d hmem
  simp [hd] at hchars

/-- A name begins with a character of names. -/
theorem ParameterName.exists_toList_eq (name : ParameterName) :
    ∃ c cs, name.text.toList = c :: cs ∧ isNameChar c = true := by
  have hword := name.isWord
  cases hchars : name.text.toList with
  | nil =>
    rw [hchars] at hword
    cases hword
  | cons c cs =>
    simp only [hchars, Reader.isWord, Bool.and_eq_true] at hword
    exact ⟨c, cs, rfl, Reader.isNameChar_of_isNameStart hword.1⟩

/-- A name stands anywhere in front of what may follow it. -/
theorem ParameterName.anywhere (name : ParameterName) (lead : Lead) {after : List Char}
    (hafter : Follows after) : Anywhere [.word lead .identifier name.text] after := by
  intro before m
  obtain ⟨hends, -, hcolon, -⟩ := hafter.ends
  exact ⟨_, .word name.isWord (name.startsToken hends) hends hcolon (by decide)
    (Reader.wordKind_plain name.notMem) .nil⟩

/-- A mark with a name behind it. -/
theorem Sigil.anywhere (sigil : Sigil) (lead : Lead) (name : ParameterName) (after : List Char) :
    Anywhere [.mark lead sigil.text] (name.text.toList ++ after) := by
  intro before m
  obtain ⟨c, cs, hchars, hc⟩ := name.exists_toList_eq
  have hfirst : firstOf punctuation (sigil.text.toList ++ (name.text.toList ++ after)) =
      some sigil.text := by
    rw [hchars]
    cases sigil <;> exact firstOf_punctuation rfl hc _
  cases sigil with
  | rest => exact ⟨_, .mark (c := '*') rfl rfl (by decide) rfl hfirst .nil⟩
  | keywords => exact ⟨_, .mark (c := '*') rfl rfl (by decide) rfl hfirst .nil⟩
  | block => exact ⟨_, .mark (c := '&') rfl rfl (by decide) rfl hfirst .nil⟩

namespace Parameter

def spellings (lead : Lead) : Parameter → List Spelling
  | positional name none => [.word lead .identifier name.text]
  | positional name (some value) =>
    .word lead .identifier name.text :: .mark .spaced "=" :: value.spellings .spaced
  | keyword name none => [.key lead name.text]
  | keyword name (some value) => .key lead name.text :: value.spellings .spaced
  | gathered sigil name => [.mark lead sigil.text, .word .tight .identifier name.text]

/-- The spellings of a parameter are its text. -/
theorem textOf_spellings (p : Parameter) (lead : Lead) :
    textOf (p.spellings lead) = lead.chars ++ p.text.toList := by
  match p with
  | positional name none | keyword name none | gathered sigil name =>
    simp [spellings, text, Spelling.chars, Spelling.word, Spelling.key, Spelling.mark, Lead.chars]
  | positional name (some value) | keyword name (some value) =>
    simp [spellings, text, DefaultValue.textOf_spellings, Spelling.chars, Spelling.word,
      Spelling.key, Spelling.mark, Lead.chars]

/-- A parameter is read as it is spelled. -/
theorem anywhere (p : Parameter) (lead : Lead) {after : List Char} (hafter : Follows after) :
    Anywhere (p.spellings lead) after := by
  have hvalue : ∀ value : DefaultValue, ∃ rest,
      textOf (value.spellings .spaced) ++ after = ' ' :: rest :=
    fun value => ⟨_, by rw [value.textOf_spellings]; rfl⟩
  match p with
  | positional name none => exact name.anywhere lead hafter
  | positional name (some value) =>
    have hequals : Anywhere (.mark .spaced "=" :: value.spellings .spaced) after := by
      intro before m
      obtain ⟨rest, hrest⟩ := hvalue value
      obtain ⟨n, hspelled⟩ := value.anywhere .spaced hafter _ _
      exact ⟨n, .equals hrest hspelled⟩
    exact .append (name.anywhere lead ⟨' ', _, rfl, by simp⟩) hequals
  | keyword name none => exact anywhere_label lead name.toName hafter
  | keyword name (some value) =>
    obtain ⟨rest, hrest⟩ := hvalue value
    exact .append (anywhere_label lead name.toName ⟨' ', rest, hrest, by simp⟩)
      (value.anywhere .spaced hafter)
  | gathered sigil name =>
    have hname : textOf [.word .tight .identifier name.text] = name.text.toList := by
      simp [Spelling.chars, Spelling.word, Lead.chars]
    rw [spellings, ← List.singleton_append]
    refine .append ?_ (name.anywhere .tight hafter)
    rw [hname]
    exact sigil.anywhere lead name after

end Parameter

/-! ## the loop -/

open Progress (before)

namespace Parameters

/-- The loop reads the tokens, whatever follows them, and goes on in another state. -/
def Passes (ts : List Token) (ps ps' : Parameters) : Prop :=
  ∀ rest last notes, ∃ last', parameters "|" ps (before (ts ++ rest) last notes) =
    parameters "|" ps' (before rest last' notes)

variable {ps ps' ps'' : Parameters} {ts us : List Token}

theorem Passes.nil : Passes [] ps ps := fun _ last _ => ⟨last, rfl⟩

/-- Tokens are passed one list after the other. -/
theorem Passes.append (h : Passes ts ps ps') (h' : Passes us ps' ps'') :
    Passes (ts ++ us) ps ps'' := by
  intro rest last notes
  obtain ⟨last₁, hts⟩ := h (us ++ rest) last notes
  obtain ⟨last₂, hus⟩ := h' rest last₁ notes
  refine ⟨last₂, ?_⟩
  rw [List.append_assoc, hts, hus]

/-- A token that ends no list of parameters is taken along. -/
theorem passes_one {t : Token}
    (ht : ps.nesting = 0 → t.isPunct "|" = false ∧ t.isCloser = false)
    (htake : ps.take t = ps') : Passes [t] ps ps' := by
  intro rest last notes
  refine ⟨t.span, ?_⟩
  have hbar : ¬(ps.nesting = 0 ∧ t.isPunct "|" = true) := fun h => by simp [ht h.1] at h
  have hcloser : ¬(ps.nesting = 0 ∧ t.isCloser = true) := fun h => by simp [ht h.1] at h
  rw [List.singleton_append, Level.parameters_before_cons, if_neg hbar, if_neg hcloser, htake]

/-- Items that leave the state as it is do so in a list, where commas do. -/
theorem passes_listed {α : Type} {spell : Lead → α → List Spelling} {items : List α}
    (hcomma : ∀ b, ps.take ((Spelling.mark .tight ",").token b) = ps)
    (h : ∀ a ∈ items, ∀ lead b, Passes (tokens b (spell lead a)) ps ps) (lead : Lead)
    (b : List Char) : Passes (tokens b (listed spell lead items)) ps ps := by
  induction items generalizing lead b with
  | nil => exact .nil
  | cons a items ih =>
    obtain ⟨ha, hitems⟩ := List.forall_mem_cons.1 h
    cases items with
    | nil => exact ha lead b
    | cons a' items =>
      rw [listed, Spelling.tokens_append, Spelling.tokens_cons, ← List.singleton_append]
      exact (ha lead b).append ((passes_one (fun _ => ⟨rfl, rfl⟩) (hcomma _)).append
        (ih hitems .spaced _))

/-- Inside a default value. -/
structure Skips (ps : Parameters) : Prop where
  skipping : ps.skipping = true
  locals : ps.locals = false

/-- Inside one more bracket. -/
def deeper (ps : Parameters) : Parameters := { ps with nesting := ps.nesting + 1 }

/-- Further in, what is skipped is skipped still. -/
theorem Skips.deeper (h : ps.Skips) : ps.deeper.Skips := ⟨h.skipping, h.locals⟩

/-- In the brackets of a default value a comma changes nothing. -/
theorem Skips.take_comma (h : ps.Skips) (b : List Char) :
    ps.deeper.take ((Spelling.mark .tight ",").token b) = ps.deeper := by
  simp [take, Spelling.token, Spelling.mark, Parameters.deeper, add, h.skipping, h.locals]

/-- A label is skipped where nothing but names is looked for. -/
theorem Skips.take_label (h : ps.Skips) (lead : Lead) (name : String) (b : List Char) :
    ps.take ((Spelling.key lead name).token b) = ps := by
  obtain ⟨done, current, nesting, skipping, locals⟩ := ps
  obtain ⟨rfl, rfl⟩ := h
  rfl

/-- Between brackets, what leaves the state inside them as it is leaves the state outside as it
is. -/
theorem Skips.bracketed (h : ps.Skips) {t u : Token}
    (ht : t.kind = .braceOpen ∨ t.kind = .punctuation ∧ t.text = "[")
    (hu : u.kind = .braceClose ∨ u.kind = .punctuation ∧ u.text = "]")
    (hts : Passes ts ps.deeper ps.deeper) : Passes (t :: (ts ++ [u])) ps ps := by
  have hplain : t.isPunct "|" = false ∧ t.isCloser = false := by
    rcases ht with ht | ⟨ht, htext⟩ <;> simp [Token.isPunct, Token.isCloser, *]
  obtain ⟨done, current, nesting, skipping, locals⟩ := ps
  obtain ⟨rfl, rfl⟩ := h
  have hopen : take ⟨done, current, nesting, true, false⟩ t =
      Parameters.deeper ⟨done, current, nesting, true, false⟩ := by
    rcases ht with ht | ⟨ht, htext⟩ <;> simp [take, Parameters.deeper, *]
  have hclose : take (Parameters.deeper ⟨done, current, nesting, true, false⟩) u =
      ⟨done, current, nesting, true, false⟩ := by
    rcases hu with hu | ⟨hu, hutext⟩ <;> simp [take, Parameters.deeper, *]
  rw [← List.singleton_append]
  have hlast := passes_one (fun hzero => absurd hzero (Nat.succ_ne_zero _)) hclose
  exact (passes_one (fun _ => hplain) hopen).append (hts.append hlast)

end Parameters

/-- A default value is passed over, and leaves the state as it was. -/
theorem DefaultValue.passes (value : DefaultValue) {ps : Parameters} (h : ps.Skips) (lead : Lead)
    (b : List Char) : Parameters.Passes (tokens b (value.spellings lead)) ps ps := by
  induction value using DefaultValue.induction generalizing ps lead b with
  | numeral value =>
    refine Parameters.passes_one (fun _ => ⟨rfl, rfl⟩) ?_
    simp [Parameters.take, Spelling.token, Spelling.numeral, h.locals]
  | array items ih =>
    rw [spellings, itemSpellings_eq_listed, Spelling.tokens_cons, Spelling.tokens_append]
    refine h.bracketed (.inr ⟨rfl, rfl⟩) (.inr ⟨rfl, rfl⟩) ?_
    exact Parameters.passes_listed h.take_comma (fun value hvalue => ih value hvalue h.deeper) _ _
  | hash entries ih =>
    rw [spellings, entrySpellings_eq_listed, Spelling.tokens_cons, Spelling.tokens_append]
    refine h.bracketed (.inl rfl) (.inl rfl) ?_
    refine Parameters.passes_listed h.take_comma (fun entry hentry lead b => ?_) _ _
    rw [entrySpelling, Spelling.tokens_cons, ← List.singleton_append]
    exact (Parameters.passes_one (fun _ => ⟨rfl, rfl⟩) (h.deeper.take_label ..)).append
      (ih entry hentry h.deeper _ _)

namespace Parameter

open Parameters (Passes passes_one)

/-- A parameter is shown as something. -/
theorem shown_ne_empty (p : Parameter) : p.shown.isEmpty = false := by
  have hname : ∀ name : ParameterName, name.text ≠ "" := by
    intro name hname
    obtain ⟨c, cs, hchars, -⟩ := name.exists_toList_eq
    rw [hname] at hchars
    cases hchars
  cases p with
  | positional name value => simp [shown, hname]
  | keyword name value => simp [shown]
  | gathered sigil name => simp [shown, hname]

/-- One parameter is taken up, and its default value, if it has one, is passed over. -/
theorem passes (p : Parameter) (done : List String) (lead : Lead) (b : List Char) :
    ∃ skipping, Passes (tokens b (p.spellings lead)) { done }
      { done, current := p.shown, skipping } := by
  have hword : ∀ (name : ParameterName) (lead : Lead) (current : String) (b : List Char),
      Passes [(Spelling.word lead .identifier name.text).token b] { done, current }
        { done, current := current ++ name.text } :=
    fun name lead current b => passes_one (fun _ => ⟨rfl, rfl⟩) rfl
  have hname : ∀ (name : ParameterName) (b : List Char),
      Passes [(Spelling.word lead .identifier name.text).token b] { done }
        { done, current := name.text } := by
    intro name b
    simpa using hword name lead "" b
  have hlabel : ∀ (name : ParameterName) (b : List Char),
      Passes [(Spelling.key lead name.text).token b] { done }
        { done, current := name.text ++ ":", skipping := true } := by
    intro name b
    refine passes_one (fun _ => ⟨rfl, rfl⟩) ?_
    simp [Parameters.take, Parameters.add, Spelling.token, Spelling.key]
  cases p with
  | positional name value =>
    cases value with
    | none => exact ⟨false, hname name b⟩
    | some value =>
      have hequals : ∀ b, Passes [(Spelling.mark .spaced "=").token b]
          { done, current := name.text } { done, current := name.text, skipping := true } :=
        fun b => passes_one (fun _ => ⟨rfl, rfl⟩) rfl
      exact ⟨true, (hname name b).append ((hequals _).append (value.passes ⟨rfl, rfl⟩ _ _))⟩
  | keyword name value =>
    cases value with
    | none => exact ⟨true, hlabel name b⟩
    | some value => exact ⟨true, (hlabel name b).append (value.passes ⟨rfl, rfl⟩ _ _)⟩
  | gathered sigil name =>
    have hsigil : Passes [(Spelling.mark lead sigil.text).token b] { done }
        { done, current := sigil.text } := by
      cases sigil <;> exact passes_one (fun _ => ⟨rfl, rfl⟩) rfl
    exact ⟨false, hsigil.append (hword name .tight sigil.text _)⟩

/-- The loop reads the parameters up to the bar behind them. -/
theorem parameters_listed (ps : List Parameter) (done : List String) (lead : Lead) (b : List Char)
    {t : Token} (ht : t.isPunct "|" = true) (rest : List Token) (last : Span)
    (notes : List String) :
    parameters "|" { done } (before (tokens b (listed spellings lead ps) ++ t :: rest) last notes) =
      .ok (done ++ ps.map shown, before rest t.span notes) := by
  -- A parameter is finished by the comma or by the bar behind it.
  have hfinish : ∀ (p : Parameter) (done : List String) (skipping : Bool),
      ({ done, current := p.shown, skipping } : Parameters).finish =
        { done := done ++ [p.shown], skipping } := by
    intro p done skipping
    simp [Parameters.finish, p.shown_ne_empty]
  have hbar : ∀ (ps : Parameters) (last : Span), ps.nesting = 0 →
      parameters "|" ps (before (t :: rest) last notes) =
        .ok (ps.finish.done, before rest t.span notes) := by
    intro ps last hzero
    rw [Level.parameters_before_cons, if_pos ⟨hzero, ht⟩]
  induction ps generalizing done lead b last with
  | nil =>
    rw [listed, Spelling.tokens_nil, List.nil_append, hbar _ _ rfl]
    simp [Parameters.finish]
  | cons p ps ih =>
    obtain ⟨skipping, hp⟩ := p.passes done lead b
    cases ps with
    | nil =>
      obtain ⟨last', hread⟩ := hp (t :: rest) last notes
      rw [listed, hread, hbar _ _ rfl, hfinish]
      rfl
    | cons p' ps =>
      have hcomma : ∀ b, Passes [(Spelling.mark .tight ",").token b]
          { done, current := p.shown, skipping } { done := done ++ [p.shown] } := by
        refine fun b => passes_one (fun _ => ⟨rfl, rfl⟩) ?_
        simp [Parameters.take, Spelling.token, Spelling.mark, hfinish]
      have hhead := hp.append (hcomma (b ++ textOf (p.spellings lead)))
      rw [listed, Spelling.tokens_append, Spelling.tokens_cons, ← List.singleton_append,
        ← List.append_assoc, List.append_assoc]
      obtain ⟨last', hread⟩ := hhead (_ ++ t :: rest) last notes
      rw [hread, ih]
      simp

/-! ## lambdas -/

/-- Parameters between bars, spelled; where there are none, the bars are one token. -/
def bars : List Parameter → List Spelling
  | [] => [.mark .spaced "||"]
  | p :: ps => .mark .spaced "|" :: (listed spellings .tight (p :: ps) ++ [.mark .tight "|"])

def closing : Spelling := .word .spaced .blockEnd "end"

/-- The lambda up to its `end`, spelled. -/
def lambdaFront (ps : List Parameter) : List Spelling :=
  .word .tight .identifier "lambda" :: .word .spaced .blockStart "do" :: bars ps

/-- The text of bars is that of the parameters between them. -/
theorem textOf_bars (ps : List Parameter) :
    textOf (bars ps) = " |".toList ++ (", ".intercalate (ps.map text)).toList ++ ['|'] := by
  cases ps with
  | nil => rfl
  | cons p ps =>
    have hlisted : textOf (listed spellings .tight (p :: ps)) = _ :=
      textOf_listed (fun p _ => p.textOf_spellings) (by simp) .tight
    simp only [bars, Spelling.textOf_cons, Spelling.textOf_append, hlisted]
    rfl

/-- The text of a lambda is that of its spellings. -/
theorem toList_lambdaText (ps : List Parameter) :
    (lambdaText ps).toList = textOf (lambdaFront ps ++ [closing]) := by
  have hfront : "lambda do |".toList = "lambda do".toList ++ " |".toList := rfl
  have hend : "| end".toList = ['|'] ++ textOf [closing] := rfl
  have hlambda : textOf (lambdaFront ps) = "lambda do".toList ++ textOf (bars ps) := rfl
  rw [Spelling.textOf_append, hlambda, textOf_bars, lambdaText, String.toList_append,
    String.toList_append, hfront, hend]
  simp only [List.append_assoc]

/-! ### the scan -/

/-- A bar and the `end` behind it; after a bar the word is no name. -/
theorem anywhere_closing (lead : Lead) {text : String} (htext : text = "|" ∨ text = "||") :
    Anywhere [.mark lead text, closing] [] := by
  intro before m
  rcases htext with rfl | rfl
  · exact ⟨_, .mark (c := '|') rfl rfl (by decide) rfl rfl
      (.word rfl rfl rfl rfl (by decide) rfl .nil)⟩
  · exact ⟨_, .mark (c := '|') rfl rfl (by decide) rfl rfl
      (.word rfl rfl rfl rfl (by decide) rfl .nil)⟩

/-- The first bar is read as one, whatever parameter stands behind it. -/
theorem anywhere_bar (p : Parameter) {ls : List Spelling} (after : List Char) :
    Anywhere [.mark .spaced "|"] (textOf (p.spellings .tight ++ ls) ++ after) := by
  intro before m
  have hfirst : firstOf punctuation ('|' :: (textOf (p.spellings .tight ++ ls) ++ after)) =
      some "|" := by
    have hname : ∀ (name : ParameterName) (rest : List Char),
        firstOf punctuation ('|' :: (name.text.toList ++ rest)) = some "|" := by
      intro name rest
      obtain ⟨c, cs, hchars, hc⟩ := name.exists_toList_eq
      have hbar : firstOf punctuation ("|".toList ++ c :: (cs ++ rest)) = some "|" :=
        firstOf_punctuation rfl hc _
      rw [hchars]
      exact hbar
    rw [Spelling.textOf_append, p.textOf_spellings, Lead.chars, List.nil_append,
      List.append_assoc]
    match p with
    | positional name none => exact hname name _
    | positional name (some value) | keyword name none | keyword name (some value) =>
      simp only [text, String.toList_append, List.append_assoc]
      exact hname name _
    | gathered sigil name =>
      rw [text, String.toList_append]
      cases sigil <;> rfl
  exact ⟨_, .mark (c := '|') rfl rfl (by decide) rfl hfirst .nil⟩

/-- Bars and the end behind them stand anywhere. -/
theorem anywhere_bars (ps : List Parameter) : Anywhere (bars ps ++ [closing]) [] := by
  cases ps with
  | nil => exact anywhere_closing .spaced (.inr rfl)
  | cons p ps =>
    have hlisted : Anywhere (listed spellings .tight (p :: ps))
        (textOf [.mark .tight "|", closing] ++ []) :=
      anywhere_listed (fun p _ lead after => p.anywhere lead) .tight ⟨'|', _, rfl, by simp⟩
    have hrest := hlisted.append (anywhere_closing .tight (.inl rfl))
    rw [bars, List.cons_append, List.append_assoc, ← List.singleton_append]
    refine .append ?_ hrest
    cases ps with
    | nil => exact anywhere_bar p _
    | cons p' ps =>
      rw [listed, List.append_assoc]
      exact anywhere_bar p _

/-- A lambda is spelled from the beginning of a text. -/
theorem spelled_lambda (ps : List Parameter) :
    ∃ n, Spelled [] (lambdaFront ps ++ [closing]) [] {} n := by
  obtain ⟨rest, hrest⟩ : ∃ rest, textOf (bars ps ++ [closing]) ++ [] = ' ' :: rest := by
    rw [Spelling.textOf_append, textOf_bars]
    exact ⟨_, rfl⟩
  obtain ⟨n, hbars⟩ := anywhere_bars ps _ _
  rw [lambdaFront, List.cons_append, List.cons_append]
  refine ⟨n, .word rfl rfl rfl rfl (by decide) (Reader.wordKind_plain (by decide))
    (.word rfl rfl ?_ ?_ (by decide) (Reader.wordKind_do_of_no_loop rfl nofun) hbars)⟩ <;>
    rw [hrest] <;> rfl

/-- No part of a parameter is a comment. -/
theorem all_spellings (p : Parameter) (lead : Lead) :
    (p.spellings lead).all (·.kind != .comment) = true := by
  match p with
  | positional name none | keyword name none | gathered sigil name => rfl
  | positional name (some value) | keyword name (some value) => exact value.all_spellings .spaced

/-- No part of a lambda is a comment. -/
theorem all_lambda (ps : List Parameter) :
    (lambdaFront ps ++ [closing]).all (·.kind != .comment) = true := by
  cases ps with
  | nil => rfl
  | cons p ps =>
    have hlisted : (listed spellings .tight (p :: ps)).all (·.kind != .comment) = true :=
      all_listed rfl (fun p _ => p.all_spellings) .tight
    simp only [lambdaFront, bars, List.cons_append, List.all_cons, List.all_append, hlisted]
    rfl

/-! ### the parse -/

/-- Bars are read as the parameters between them. -/
theorem accepts_bars (ps : List Parameter) (b : List Char) :
    Level.Bars (tokens b (bars ps)) (ps.map shown) := by
  intro ts last notes
  cases ps with
  | nil => exact ⟨_, rfl⟩
  | cons p ps =>
    have hbar : ∀ b, ((Spelling.mark .tight "|").token b).isPunct "|" = true := fun _ => rfl
    rw [bars, Spelling.tokens_cons, Spelling.tokens_append, List.cons_append, List.append_assoc,
      Level.blockParameters_before_bar rfl]
    exact ⟨_, parameters_listed (p :: ps) [] .tight _ (hbar _) ts _ notes⟩

def lambdaEnd (ps : List Parameter) : Token := closing.token (textOf (lambdaFront ps))

/-- A lambda ends where its text does. -/
theorem stop_lambdaEnd (ps : List Parameter) :
    (lambdaEnd ps).stop = (lambdaText ps).utf8ByteSize := by
  rw [utf8ByteSize_eq, toList_lambdaText, Token.stop, lambdaEnd, Spelling.token,
    Spelling.textOf_append, byteSize_append, byteSize_append, Nat.add_assoc]
  rfl

/-- **Parameter lists.** A lambda with an empty body parses to that lambda and nothing else, and its
parameters are those that are written, in order and without their default values. -/
theorem parsed_lambdaText (ps : List Parameter) :
    ∃ parsed, Parsed.ofSource (lambdaText ps) = .ok parsed ∧ parsed.notes = [] ∧
      parsed.tree.kind = .program ∧ parsed.tree.children =
        [⟨.callable (ps.map shown), ⟨0, (lambdaText ps).utf8ByteSize, 1, 0⟩, []⟩] := by
  obtain ⟨n, hspelled⟩ := spelled_lambda ps
  have hcomments : ∀ l ∈ lambdaFront ps ++ [closing], l.kind ≠ .comment := by
    simpa using List.all_eq_true.1 (all_lambda ps)
  have hbody : Level.Accepts ((Level.levelAt 254).statements .keyword) (· = []) []
      [lambdaEnd ps] :=
    fun last notes => ⟨[], last, Level.statementLoop_close rfl, rfl⟩
  have haccepts : Level.Accepts ((Level.levelAt nestingLimit).expression .statement)
      (fun tree => ∃ body, tree = ⟨.callable (ps.map shown),
        ⟨0, (lambdaText ps).utf8ByteSize, 1, 0⟩, body⟩ ∧ body = [])
      (tokens [] (lambdaFront ps ++ [closing])) [] := by
    rw [Spelling.tokens_append, ← stop_lambdaEnd, lambdaFront]
    refine Level.accepts_expression ?_ rfl
    exact Level.accepts_operand_lambda rfl rfl rfl (accepts_bars ps _) rfl hbody rfl rfl
  obtain ⟨_, ⟨body, rfl, rfl⟩, hparsed⟩ :=
    Parsed.ofSource_of_accepts (toList_lambdaText ps) hspelled hcomments ⟨_, _, rfl, rfl, rfl⟩
      haccepts
  exact ⟨_, hparsed, rfl, rfl, rfl⟩

example :
    let a : ParameterName := ⟨⟨"a", rfl⟩, by decide⟩
    let b : ParameterName := ⟨⟨"b", rfl⟩, by decide⟩
    let one : DefaultValue := .numeral ⟨⟨"1", by decide, rfl⟩, some ⟨"5", by decide, rfl⟩⟩
    let ps : List Parameter :=
      [.positional a (some (.array [.hash [], one])), .keyword b (some (.hash [(a.toName, one)])),
        .gathered .block b]
    lambdaText ps = "lambda do |a = [\x7b\x7d, 1.5], b: \x7b a: 1.5 \x7d, &b| end" ∧
      ps.map shown = ["a", "b:", "&b"] := by
  decide

end Parameter

end ConnectorAudit
