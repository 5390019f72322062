import ConnectorAudit.Proofs.Derivations
import ConnectorAudit.Section

/-!
# Plain data

Numerals, strings of letters, and hashes of them, written on one line.

* `Datum.anywhere`: data are scanned as they are spelled, wherever they stand;
* `Datum.accepts`: they are parsed to a tree that depicts them;
* `Datum.parsed_text`: so is a source that is a hash of them.
-/

namespace ConnectorAudit

/-! ## data -/

namespace Datum

/-- A lower-case letter or a bar. -/
def isNameHead (c : Char) : Bool := c.isLower || c == '_'

/-- A text of the form `[a-z_][a-z0-9_]*`. -/
def isNameText : List Char → Bool
  | [] => false
  | c :: cs => isNameHead c && cs.all fun d => isNameHead d || d.isDigit

structure Name where
  text : String
  form : isNameText text.toList = true

structure Digits where
  text : String
  ne : text ≠ ""
  form : text.toList.all Char.isDigit = true

/-- The letters of a string. -/
structure Letters where
  text : String
  form : text.toList.all Char.isAlpha = true

end Datum

/-- A numeral, a string of letters or a hash of data. -/
inductive Datum where
  | numeral (digits : Datum.Digits)
  | quoted (letters : Datum.Letters)
  | hash (entries : List (Datum.Name × Datum))

namespace Datum

mutual
/-- How data are written: a blank stands before every entry of a hash and before the brace that
closes it. -/
def text : Datum → String
  | numeral digits => digits.text
  | quoted letters => "'" ++ letters.text ++ "'"
  | hash entries => "\x7b" ++ textAll entries ++ " \x7d"
/-- How entries are written: a comma stands behind all but the last. -/
def textAll : List (Name × Datum) → String
  | [] => ""
  | (name, value) :: entries =>
    " " ++ name.text ++ ": " ++ value.text ++ (if entries.isEmpty then "" else ",") ++
      textAll entries
end

mutual
/-- How many hashes are open at once. -/
def depth : Datum → Nat
  | numeral _ | quoted _ => 0
  | hash entries => depthAll entries + 1
def depthAll : List (Name × Datum) → Nat
  | [] => 0
  | (_, value) :: entries => max value.depth (depthAll entries)
end

mutual
/-- Whether no key names a section. -/
def namesNoSection : Datum → Bool
  | numeral _ | quoted _ => true
  | hash entries => nameNoSection entries
def nameNoSection : List (Name × Datum) → Bool
  | [] => true
  | (name, value) :: entries =>
    (Section.ofKey? name.text).isNone && value.namesNoSection && nameNoSection entries
end

/-- The comma behind an entry, unless it is the last. -/
def separator (entries : List (Name × Datum)) : List Spelling :=
  if entries.isEmpty then [] else [.mark .tight ","]

/-- Spellings between braces, with a blank before the closing one. -/
def braced (lead : Lead) (ls : List Spelling) : List Spelling :=
  .opening lead :: (ls ++ [.closing .spaced])

mutual
/-- Data, spelled, with a blank in front. -/
def spellings : Datum → List Spelling
  | numeral digits => [.numeral .spaced digits.text]
  | quoted letters => [.quoted .spaced letters.text]
  | hash entries => braced .spaced (spellingsAll entries)
def spellingsAll : List (Name × Datum) → List Spelling
  | [] => []
  | (name, value) :: entries =>
    .key .spaced name.text :: (value.spellings ++ (separator entries ++ spellingsAll entries))
end

open Spelling (textOf tokens)

/-- The text of braces is that of what they hold, between them. -/
theorem textOf_braced (lead : Lead) (ls : List Spelling) :
    textOf (braced lead ls) = lead.chars ++ '{' :: (textOf ls ++ [' ', '}']) := by
  simp [braced, Spelling.chars, Spelling.opening, Spelling.closing, Lead.chars]

mutual
/-- The spellings of a datum are its text, behind a blank. -/
theorem textOf_spellings (d : Datum) : textOf d.spellings = ' ' :: d.text.toList := by
  match d with
  | numeral digits => simp [spellings, text, Spelling.chars, Spelling.numeral, Lead.chars]
  | quoted letters => simp [spellings, text, Spelling.chars, Spelling.quoted, Lead.chars]
  | hash entries =>
    have hentries := textOf_spellingsAll entries
    simp [spellings, text, textOf_braced, hentries, Lead.chars]
/-- The spellings of entries are their text. -/
theorem textOf_spellingsAll (entries : List (Name × Datum)) :
    textOf (spellingsAll entries) = (textAll entries).toList := by
  match entries with
  | [] => rfl
  | (name, value) :: entries =>
    have hvalue := textOf_spellings value
    have hentries := textOf_spellingsAll entries
    simp only [spellingsAll, textAll, Spelling.textOf_cons, Spelling.textOf_append, hvalue,
      hentries, separator]
    split <;> simp [Spelling.chars, Spelling.key, Spelling.mark, Lead.chars]
end

/-! ## the scan -/

open Reader (Memory Spelled startsToken isWord)

/-- The spellings are read with any memory. -/
def Anywhere (ls : List Spelling) (after : List Char) : Prop :=
  ∀ before m, ∃ n, Spelled before ls after m n

/-- Spellings that stand anywhere do so one behind the other. -/
theorem Anywhere.append {ls ms : List Spelling} {after : List Char}
    (h : Anywhere ls (textOf ms ++ after)) (h' : Anywhere ms after) :
    Anywhere (ls ++ ms) after := by
  intro before m
  obtain ⟨n, hls⟩ := h before m
  obtain ⟨k, hms⟩ := h' (before ++ textOf ls) n
  exact ⟨k, hls.append hms⟩

/-- What begins a name of the data begins a name of the language. -/
theorem isNameStart_of_isNameHead {c : Char} (hc : isNameHead c = true) : isNameStart c = true := by
  simp only [isNameHead, Bool.or_eq_true] at hc
  rcases hc with hlower | hbar
  · have halpha : c.isAlpha = true := by
      delta Char.isAlpha
      rw [hlower, Bool.or_true]
    rw [isNameStart, halpha, Bool.true_or, Bool.true_or]
  · rw [isNameStart, hbar, Bool.or_true, Bool.true_or]

/-- The text of a name is a word. -/
theorem Name.isWord (name : Name) : isWord name.text.toList = true := by
  have hform := name.form
  cases hchars : name.text.toList with
  | nil =>
    rw [hchars] at hform
    cases hform
  | cons c cs =>
    simp only [hchars, isNameText, Bool.and_eq_true, List.all_eq_true, Bool.or_eq_true] at hform
    simp only [Reader.isWord, Bool.and_eq_true, List.all_eq_true]
    refine ⟨isNameStart_of_isNameHead hform.1, fun d hd => ?_⟩
    rcases hform.2 d hd with h | h
    · exact Reader.isNameChar_of_isNameStart (isNameStart_of_isNameHead h)
    · exact Reader.isNameChar_of_isDigit h

/-- No name is the data marker, which has capital letters. -/
theorem Name.startsToken (name : Name) {after : List Char} (hafter : Reader.endsName after = true) :
    startsToken (name.text.toList ++ after) = true := by
  have hform := name.form
  have hcapital : ∀ c : Char, (isNameHead c || c.isDigit) = true → c ≠ 'E' := by
    rintro c hc rfl
    cases hc
  have hends : after = [] ∨ ∃ d ds, after = d :: ds ∧ d ≠ '_' ∧ d ≠ 'E' := by
    cases after with
    | nil => exact .inl rfl
    | cons d ds =>
      refine .inr ⟨d, ds, rfl, ?_, ?_⟩ <;> rintro rfl <;> cases hafter
  have hmarker : "__END__".toList.isPrefixOf (name.text.toList ++ after) = false := by
    match hchars : name.text.toList with
    | [] =>
      rw [hchars] at hform
      cases hform
    | [a] | [a, b] =>
      obtain rfl | ⟨d, ds, rfl, hbar, hcapital⟩ := hends
      · simp [List.isPrefixOf]
      · simp [List.isPrefixOf, hbar.symm, hcapital.symm]
    | a :: b :: c :: cs =>
      simp only [hchars, isNameText, Bool.and_eq_true, List.all_cons] at hform
      have hc := hcapital c hform.2.2.1
      simp [List.isPrefixOf, Ne.symm hc]
  cases hchars : name.text.toList with
  | nil =>
    rw [hchars] at hform
    cases hform
  | cons c cs =>
    rw [hchars] at hmarker hform
    simp only [isNameText, Bool.and_eq_true] at hform
    have hblank : [' ', '\t', '\r', '\x0c', '\n', '\\'].contains c = false :=
      Reader.contains_eq_false_of_all (by decide) hform.1
    rw [List.cons_append] at hmarker ⊢
    rw [Reader.startsToken, hblank, hmarker]
    rfl

/-- What stands behind data: a comma, or a blank and the closing brace. -/
def FollowsDatum (after : List Char) : Prop := ∃ rest, after = ',' :: rest ∨ after = ' ' :: rest

/-- Digits stand anywhere in front of what may follow a datum. -/
theorem anywhere_numeral (digits : Digits) {after : List Char} (hafter : FollowsDatum after) :
    Anywhere [.numeral .spaced digits.text] after := by
  intro before m
  refine ⟨_, .numeral digits.ne digits.form ?_ .nil⟩
  obtain ⟨rest, rfl | rfl⟩ := hafter <;> rfl

/-- A quotation stands anywhere in front of what may follow a datum. -/
theorem anywhere_quoted (letters : Letters) {after : List Char} (hafter : FollowsDatum after) :
    Anywhere [.quoted .spaced letters.text] after := by
  intro before m
  refine ⟨_, .quoted ?_ ?_ .nil⟩
  · rw [List.all_eq_true]
    intro c hc
    have halpha : c.isAlpha = true := List.all_eq_true.1 letters.form c hc
    have hquote : c ≠ '\'' ∧ c ≠ '\\' := by
      constructor <;> rintro rfl <;> cases halpha
    simpa [Reader.isVerbatim] using hquote
  · obtain ⟨rest, rfl | rfl⟩ := hafter <;> rfl

/-- A key stands anywhere in front of a blank. -/
theorem anywhere_key {lead : Lead} (name : Name) (after : List Char) :
    Anywhere [.key lead name.text] (' ' :: after) := by
  intro before m
  exact ⟨_, .key name.isWord (name.startsToken rfl) rfl .nil⟩

/-- A comma stands anywhere. -/
theorem anywhere_comma (after : List Char) : Anywhere [.mark .tight ","] after := by
  intro before m
  exact ⟨_, .mark (c := ',') rfl rfl (by decide) rfl rfl .nil⟩

theorem anywhere_separator (entries : List (Name × Datum)) (after : List Char) :
    Anywhere (separator entries) after := by
  cases entries with
  | nil => exact fun _ m => ⟨m, .nil⟩
  | cons => exact anywhere_comma after

/-- A brace stands anywhere. -/
theorem anywhere_brace {l : Spelling} {lead : Lead} (hl : l = .opening lead ∨ l = .closing lead)
    (after : List Char) : Anywhere [l] after := by
  intro before m
  exact ⟨_, .brace hl .nil⟩

/-- Braces stand anywhere if what they hold does. -/
theorem Anywhere.braced {ls : List Spelling} (lead : Lead) {after : List Char}
    (h : ∀ after, Anywhere ls (' ' :: after)) : Anywhere (braced lead ls) after := by
  rw [Datum.braced, ← List.singleton_append]
  exact .append (anywhere_brace (.inl rfl) _) (.append (h _) (anywhere_brace (.inr rfl) _))

/-- A comma follows an entry, or else all that comes is the end of the hash. -/
theorem followsDatum_entries (entries : List (Name × Datum)) (after : List Char) :
    FollowsDatum (textOf (separator entries ++ spellingsAll entries) ++ ' ' :: after) := by
  cases entries with
  | nil => exact ⟨after, .inr rfl⟩
  | cons => exact ⟨_, .inl rfl⟩

mutual
/-- Data are read as they are spelled. -/
theorem anywhere (d : Datum) {after : List Char} (hafter : FollowsDatum after) :
    Anywhere d.spellings after := by
  match d with
  | numeral digits => exact anywhere_numeral digits hafter
  | quoted letters => exact anywhere_quoted letters hafter
  | hash entries => exact .braced .spaced (anywhereAll entries)
/-- Entries stand anywhere in front of a blank. -/
theorem anywhereAll (entries : List (Name × Datum)) (after : List Char) :
    Anywhere (spellingsAll entries) (' ' :: after) := by
  match entries with
  | [] => exact fun _ m => ⟨m, .nil⟩
  | (name, value) :: entries =>
    rw [spellingsAll, ← List.singleton_append]
    refine .append ?_ (.append ?_ (.append ?_ (anywhereAll entries after)))
    · rw [Spelling.textOf_append, textOf_spellings value]
      exact anywhere_key name _
    · exact anywhere value (followsDatum_entries entries after)
    · exact anywhere_separator entries _
end

/-! ## the parse -/

open Level (levelAt Accepts)

/-- The pair of a name and its value. -/
def keyed (name : Name) (span : Span) (value : Tree) : Tree :=
  .ofPair (.leaf (.literal (.symbol name.text)) span) value

mutual
/-- The tree is that of the data, wherever they stand. -/
def Depicted : Datum → Tree → Prop
  | numeral digits, tree => tree.kind = .literal (.number digits.text) ∧ tree.children = []
  | quoted letters, tree => tree.kind = .literal (.string letters.text) ∧ tree.children = []
  | hash entries, tree => tree.kind = .hash ∧ DepictedAll entries tree.children
/-- The trees are the pairs of the entries. -/
def DepictedAll : List (Name × Datum) → List Tree → Prop
  | [], trees => trees = []
  | (name, value) :: entries, trees =>
    ∃ span tree rest, trees = keyed name span tree :: rest ∧ Depicted value tree ∧
      DepictedAll entries rest
end

/-- A token that stands behind data. -/
def endsDatum (t : Token) : Bool := t.isPunct "," || t.kind == .braceClose

/-- What ends a datum ends an expression. -/
theorem endsExpression_of_endsDatum {t : Token} (ht : endsDatum t = true) (rest : List Token) :
    endsExpression (.argument false) (t :: rest) = true := by
  simp only [endsDatum, Token.isPunct, Bool.or_eq_true, Bool.and_eq_true, beq_iff_eq] at ht
  rcases ht with ⟨hkind, htext⟩ | hkind
  · simp [endsExpression, endsOperand, beginArguments, Token.clings, Token.opensArguments,
      Token.startsArgument, Token.isPunct, Token.isBinary, Context.argument, hkind, htext]
  · simp [endsExpression, endsOperand, beginArguments, Token.clings, Token.opensArguments,
      Token.startsArgument, Token.isPunct, Token.isBinary, hkind]

/-- Where the parts of the entries stand does not matter. -/
theorem exists_tokens_spellingsAll_cons (name : Name) (value : Datum)
    (entries : List (Name × Datum)) (b : List Char) :
    ∃ b₁ b₂ b₃, tokens b (spellingsAll ((name, value) :: entries)) =
      (Spelling.key .spaced name.text).token b :: (tokens b₁ value.spellings ++
        (tokens b₂ (separator entries) ++ tokens b₃ (spellingsAll entries))) := by
  rw [spellingsAll, Spelling.tokens_cons, Spelling.tokens_append, Spelling.tokens_append]
  exact ⟨_, _, _, rfl⟩

/-- The tokens of braces are those of what they hold, between those of the braces. -/
theorem exists_tokens_braced (lead : Lead) (ls : List Spelling) (b : List Char) :
    ∃ b' u, u.kind = .braceClose ∧
      tokens b (braced lead ls) = (Spelling.opening lead).token b :: (tokens b' ls ++ [u]) := by
  rw [braced, Spelling.tokens_cons, Spelling.tokens_append]
  exact ⟨_, _, rfl, rfl⟩

/-- A datum begins with a token that neither closes nor separates anything. -/
theorem exists_tokens_eq (d : Datum) (b : List Char) :
    ∃ t ts, tokens b d.spellings = t :: ts ∧ t.isPunct "," = false ∧ t.isCloser = false := by
  cases d with
  | numeral digits => exact ⟨_, _, rfl, rfl, rfl⟩
  | quoted letters => exact ⟨_, _, rfl, rfl, rfl⟩
  | hash entries => exact ⟨_, _, rfl, rfl, rfl⟩

/-- The entries are taken along, each as a pair, and the brace that closes them is used up. -/
def Looped (n : Nat) (entries : List (Name × Datum)) : Prop :=
  ∀ (b : List Char) (u : Token) (rest : List Token) (done : List Entry) (last : Span)
    (notes : List String), u.kind = .braceClose →
      ∃ trees last', DepictedAll entries trees ∧
        Level.entryLoop (Level.entryAbove (levelAt n) false) (some .brace) done
          (.before (tokens b (spellingsAll entries) ++ u :: rest) last notes) =
            .ok (done.reverse ++ trees.map .pair, .before rest last' notes)

/-- A hash is two levels up from its entries. -/
theorem Looped.accepts {n : Nat} {entries : List (Name × Datum)} (h : Looped n entries)
    {ctx : Context} (lead : Lead) (b : List Char) {rest : List Token}
    (hrest : endsOperand rest = true) :
    Accepts ((levelAt (n + 2)).operand ctx) (Depicted (hash entries))
      (tokens b (braced lead (spellingsAll entries))) rest := by
  obtain ⟨b', u, hu, htokens⟩ := exists_tokens_braced lead (spellingsAll entries) b
  rw [htokens]
  refine Level.accepts_operand_hash rfl ?_ ?_ hrest
  · cases entries with
    | nil => simp [spellingsAll, Token.isPunct, hu]
    | cons => rfl
  · intro last notes
    obtain ⟨trees, last', hdepicted, hloop⟩ := h b' u rest [] last notes hu
    rw [List.append_assoc]
    exact ⟨_, last', hloop, trees, rfl, hdepicted⟩

/-- Without entries the loop over entries ends at once. -/
theorem looped_nil (n : Nat) : Looped n [] := by
  intro b u rest done last notes hu
  refine ⟨[], u.span, rfl, ?_⟩
  have hmatches : Closer.matches .brace u = true := by simp [Closer.matches, hu]
  simpa [spellingsAll] using Level.entryLoop_close hmatches

/-- What stands behind a value: the comma, or the brace before which the loop ends. -/
theorem exists_behind_value (entries : List (Name × Datum)) (b b' : List Char) {u : Token}
    (rest : List Token) (hu : u.kind = .braceClose) :
    ∃ t vs, tokens b (separator entries) ++ (tokens b' (spellingsAll entries) ++ u :: rest) =
        t :: vs ∧ endsDatum t = true ∧
      (t.isPunct "," = true ∧ vs = tokens b' (spellingsAll entries) ++ u :: rest ∨
        (t.isPunct "," = false ∧ Closer.matches .brace t = true) ∧
          tokens b' (spellingsAll entries) ++ u :: rest = t :: vs) := by
  cases entries with
  | nil =>
    refine ⟨u, rest, rfl, ?_, .inr ⟨⟨?_, ?_⟩, rfl⟩⟩
    · simp [endsDatum, hu]
    · simp [Token.isPunct, hu]
    · simp [Closer.matches, hu]
  | cons => exact ⟨_, _, rfl, rfl, .inl ⟨rfl, rfl⟩⟩

/-- An entry more is read by the loop if its value is read as an expression. -/
theorem Looped.cons {n : Nat} {name : Name} {value : Datum} {entries : List (Name × Datum)}
    (hvalue : ∀ b t rest, endsDatum t = true →
      Accepts ((levelAt n).expression (.argument false)) (Depicted value) (tokens b value.spellings)
        (t :: rest)) (h : Looped n entries) : Looped n ((name, value) :: entries) := by
  intro b u rest done last notes hu
  let key := Spelling.key .spaced name.text
  obtain ⟨b₁, b₂, b₃, hcons⟩ := exists_tokens_spellingsAll_cons name value entries b
  obtain ⟨v, vs, htokens, hv⟩ := value.exists_tokens_eq b₁
  obtain ⟨t, ws, hbehind, ht, hnext⟩ := exists_behind_value entries b₂ b₃ rest hu
  have hentry : Accepts (Level.entryAbove (levelAt n) false)
      (fun e => ∃ tree, Depicted value tree ∧ e = .pair (keyed name (key.token b).span tree))
      (key.token b :: v :: vs) (t :: ws) :=
    Level.accepts_entry_label rfl rfl hv (htokens ▸ hvalue b₁ t ws ht)
  obtain ⟨e, last₁, ⟨tree, htree, rfl⟩, hloop⟩ :=
    Level.entryLoop_cons done last notes rfl hentry (hnext.imp
      (fun ⟨hcomma, h⟩ => ⟨t, h ▸ rfl, hcomma⟩) fun ⟨hbrace, h⟩ => ⟨⟨t, ws, rfl, hbrace⟩, h⟩)
  obtain ⟨trees, last₂, htrees, hok⟩ :=
    h b₃ u rest (.pair (keyed name (key.token b).span tree) :: done) last₁ notes hu
  refine ⟨keyed name (key.token b).span tree :: trees, last₂,
    ⟨(key.token b).span, tree, trees, rfl, htree, htrees⟩, ?_⟩
  rw [hcons, htokens]
  simp only [List.cons_append, List.append_assoc] at hloop ⊢
  rw [hbehind, hloop, hok]
  simp

mutual
/-- Data are parsed to a tree that depicts them. -/
theorem accepts (d : Datum) {n : Nat} (hn : 3 * d.depth + 2 ≤ n) (b : List Char) {t : Token}
    (ht : endsDatum t = true) (rest : List Token) :
    Accepts ((levelAt n).expression (.argument false)) (Depicted d) (tokens b d.spellings)
      (t :: rest) := by
  have hends := endsExpression_of_endsDatum ht rest
  have hoperand := endsOperand_of_endsExpression hends
  match d with
  | numeral digits =>
    obtain ⟨k, rfl⟩ : ∃ k, n = k + 2 := Nat.exists_eq_add_of_le' (by omega)
    refine Level.accepts_expression ?_ hends
    refine (Level.accepts_operand_numeral rfl rfl hoperand).mono ?_
    rintro _ rfl
    exact ⟨rfl, rfl⟩
  | quoted letters =>
    obtain ⟨k, rfl⟩ : ∃ k, n = k + 2 := Nat.exists_eq_add_of_le' (by omega)
    refine Level.accepts_expression ?_ hends
    refine (Level.accepts_operand_string rfl rfl rfl hoperand).mono ?_
    rintro _ rfl
    exact ⟨rfl, rfl⟩
  | hash entries =>
    rw [depth] at hn
    obtain ⟨k, rfl⟩ : ∃ k, n = k + 3 := Nat.exists_eq_add_of_le' (by omega)
    refine Level.accepts_expression ?_ hends
    exact (looped entries (by omega)).accepts _ b hoperand
/-- A level that is high enough reads all entries. -/
theorem looped (entries : List (Name × Datum)) {n : Nat} (hn : 3 * depthAll entries + 2 ≤ n) :
    Looped n entries := by
  match entries with
  | [] => exact looped_nil n
  | (name, value) :: entries =>
    rw [depthAll] at hn
    exact .cons (fun b t rest ht => accepts value (by omega) b ht rest) (looped entries (by omega))
end

/-! ## sources -/

/-- Braces add no comment. -/
theorem kind_ne_comment_braced (lead : Lead) {ls : List Spelling}
    (h : ∀ l ∈ ls, l.kind ≠ .comment) : ∀ l ∈ braced lead ls, l.kind ≠ .comment := by
  have hopening : (Spelling.opening lead).kind ≠ .comment := by simp [Spelling.opening]
  have hclosing : ∀ l ∈ [Spelling.closing .spaced], l.kind ≠ .comment := by
    simp [Spelling.closing]
  exact List.forall_mem_cons.2 ⟨hopening, List.forall_mem_append.2 ⟨h, hclosing⟩⟩

mutual
/-- No part of a datum is a comment. -/
theorem kind_ne_comment (d : Datum) : ∀ l ∈ d.spellings, l.kind ≠ .comment := by
  match d with
  | numeral digits => simp [spellings, Spelling.numeral]
  | quoted letters => simp [spellings, Spelling.quoted]
  | hash entries => exact kind_ne_comment_braced .spaced (kind_ne_commentAll entries)
theorem kind_ne_commentAll (entries : List (Name × Datum)) :
    ∀ l ∈ spellingsAll entries, l.kind ≠ .comment := by
  match entries with
  | [] => simp [spellingsAll]
  | (name, value) :: entries =>
    have hkey : (Spelling.key .spaced name.text).kind ≠ .comment := by simp [Spelling.key]
    have hseparator : ∀ l ∈ separator entries, l.kind ≠ .comment := by
      cases entries <;> simp [separator, Spelling.mark]
    simp only [spellingsAll, List.forall_mem_cons, List.forall_mem_append]
    exact ⟨hkey, kind_ne_comment value, hseparator, kind_ne_commentAll entries⟩
end

/-- The tokens of a source that is a hash. -/
def sourceTokens (entries : List (Name × Datum)) : List Token :=
  tokens [] (braced .tight (spellingsAll entries))

/-- The text of a hash is that of the spellings of its braces. -/
theorem toList_text (entries : List (Name × Datum)) :
    (hash entries).text.toList = textOf (braced .tight (spellingsAll entries)) := by
  simp [textOf_braced, text, textOf_spellingsAll, Lead.chars]

/-- The spellings of a hash stand at the beginning of a text. -/
theorem exists_spelled (entries : List (Name × Datum)) :
    ∃ n, Spelled [] (braced .tight (spellingsAll entries)) [] {} n :=
  Anywhere.braced .tight (anywhereAll entries) [] {}

/-- A hash is scanned into the tokens of its spellings, without a fault. -/
theorem scanLossy_text (entries : List (Name × Datum)) :
    Token.scanLossy (hash entries).text = (sourceTokens entries, []) := by
  obtain ⟨n, hspelled⟩ := exists_spelled entries
  exact (Token.scan_of_spelled (toList_text entries) hspelled).2

theorem filter_sourceTokens (entries : List (Name × Datum)) :
    (sourceTokens entries).filter (·.kind != .comment) = sourceTokens entries :=
  Spelling.filter_tokens (kind_ne_comment_braced .tight (kind_ne_commentAll entries))

/-- A source that is a hash is parsed to its tree. -/
theorem parsed_text {entries : List (Name × Datum)} (hdepth : depthAll entries ≤ 80) :
    ∃ tree, Depicted (hash entries) tree ∧
      Parsed.ofSource (hash entries).text = .ok ⟨.ofStatements [tree], []⟩ := by
  obtain ⟨n, hspelled⟩ := exists_spelled entries
  have haccepts : Accepts ((levelAt nestingLimit).expression .statement) (Depicted (hash entries))
      (sourceTokens entries) [] :=
    Level.accepts_expression ((looped entries (by omega)).accepts .tight [] rfl) rfl
  exact Parsed.ofSource_of_accepts (toList_text entries) hspelled
    (kind_ne_comment_braced .tight (kind_ne_commentAll entries)) ⟨_, _, rfl, rfl, rfl⟩ haccepts

end Datum

end ConnectorAudit
