import ConnectorAudit.Proofs.Layout
import ConnectorAudit.Token.Heredoc

/-!
# The bodies of heredocs

Which bytes of a source are bodies of heredocs, worked out from its tokens: the
markers among them are gone through in order, those below other tokens too.  A
body begins on the line behind its marker's, or, if the body of an earlier
marker of the same line begins there, behind that one; it ends with the line
that closes it.
-/

namespace ConnectorAudit

namespace Token

mutual
/-- The token and all tokens below it, each before those below it. -/
def preorder : Token → List Token
  | ⟨kind, text, offset, line, column, value, nested, gap⟩ =>
    ⟨kind, text, offset, line, column, value, nested, gap⟩ :: preorderAll nested
/-- The tokens of a list with all tokens below them. -/
def preorderAll : List Token → List Token
  | [] => []
  | t :: ts => t.preorder ++ preorderAll ts
end

theorem preorder_eq (t : Token) : t.preorder = t :: preorderAll t.nested := by
  cases t
  rw [preorder]

/-- The nested tokens of lists come one list after the other. -/
theorem preorderAll_append (ts us : List Token) :
    preorderAll (ts ++ us) = preorderAll ts ++ preorderAll us := by
  induction ts with
  | nil => rfl
  | cons t ts ih => rw [List.cons_append, preorderAll, preorderAll, ih, List.append_assoc]

/-- The marker that the token is, if it announces a heredoc. -/
def marker? (t : Token) : Option Marker :=
  if t.kind = .string then Marker.ofChars? t.text.toList else none

end Token

/-- The bodies of heredocs, as far as their markers are known. -/
structure Heredocs where
  /-- The bytes of each body, its closing line included: the first one, and the one behind the
  last. -/
  bodies : List (Nat × Nat) := []
  /-- The bodies behind the last line that announced any. -/
  pending : Option Jump := none

namespace Heredocs

/-- The bodies that wait for the end of the line at a byte offset. -/
def waiting (h : Heredocs) (offset : Nat) : Option Jump :=
  h.pending.filter fun jump => offset < jump.bodyStart

/-- The place where the body of a marker that ends at `k` begins. -/
def start? (h : Heredocs) (k : Cursor) : Option Cursor :=
  match h.waiting k.offset with
  | some jump => some jump.resume
  | none => ((k.skipWhile (· != '\n')).next?).map Prod.snd

/-- Adds the body of a marker that ends at `k`. -/
def announce (h : Heredocs) (m : Marker) (k : Cursor) : Heredocs :=
  match h.start? k with
  | none => h
  | some start =>
    match m.bodyEnd? start with
    | none => h
    | some (_, resume) =>
      let first :=
        match h.waiting k.offset with
        | some jump => jump.bodyStart
        | none => start.offset
      { bodies := h.bodies ++ [(start.offset, resume.offset)]
        pending := some { bodyStart := first, resume } }

def add (source : String) (h : Heredocs) (t : Token) : Heredocs :=
  match t.marker?, Cursor.at? source t.stop with
  | some m, some k => h.announce m k
  | _, _ => h

/-- Adds what the tokens, and those below them, announce. -/
def addAll (source : String) (h : Heredocs) (tokens : List Token) : Heredocs :=
  (Token.preorderAll tokens).foldl (add source) h

/-- The bodies that the tokens announce. -/
def ofTokens (source : String) (tokens : List Token) : Heredocs := addAll source {} tokens

/-- The byte is part of a body or of its closing line. -/
def Holds (h : Heredocs) (byte : Nat) : Prop := ∃ b ∈ h.bodies, b.1 ≤ byte ∧ byte < b.2

/-- A jump waits as long as its body is ahead. -/
theorem waiting_eq_some_iff {h : Heredocs} {offset : Nat} {jump : Jump} :
    h.waiting offset = some jump ↔ h.pending = some jump ∧ offset < jump.bodyStart := by
  simp [waiting, Option.filter_eq_some_iff]

/-- Further on nothing new waits. -/
theorem waiting_eq_none_of_le {h : Heredocs} {offset further : Nat}
    (hnone : h.waiting offset = none) (hle : offset ≤ further) : h.waiting further = none := by
  cases hfurther : h.waiting further with
  | none => rfl
  | some jump =>
    obtain ⟨hpending, hlt⟩ := waiting_eq_some_iff.1 hfurther
    have hsome := waiting_eq_some_iff.2 ⟨hpending, Nat.lt_of_le_of_lt hle hlt⟩
    rw [hnone] at hsome
    cases hsome

variable {source : String}

/-- Tokens are added one list after the other. -/
theorem addAll_append (h : Heredocs) (ts us : List Token) :
    h.addAll source (ts ++ us) = (h.addAll source ts).addAll source us := by
  rw [addAll, Token.preorderAll_append, List.foldl_append]
  rfl

/-- A body stays where it is when further ones are announced. -/
theorem Holds.add {h : Heredocs} {byte : Nat} (hbyte : h.Holds byte) (t : Token) :
    (h.add source t).Holds byte := by
  obtain ⟨b, hb, hin⟩ := hbyte
  unfold Heredocs.add
  split
  · unfold announce
    split
    · exact ⟨b, hb, hin⟩
    · split
      · exact ⟨b, hb, hin⟩
      · exact ⟨b, List.mem_append_left _ hb, hin⟩
  · exact ⟨b, hb, hin⟩

/-- What is within a body stays so when tokens are added. -/
theorem Holds.addAll {h : Heredocs} {byte : Nat} (hbyte : h.Holds byte) (tokens : List Token) :
    (h.addAll source tokens).Holds byte := by
  unfold Heredocs.addAll
  induction Token.preorderAll tokens generalizing h with
  | nil => exact hbyte
  | cons t ts ih => exact ih (hbyte.add t)

/-- A token that is no marker announces what the tokens below it do. -/
theorem addAll_singleton (h : Heredocs) {t : Token} (ht : t.marker? = none) :
    h.addAll source [t] = h.addAll source t.nested := by
  have hadd : h.add source t = h := by simp [add, ht]
  rw [addAll, Token.preorderAll, Token.preorderAll, List.append_nil, Token.preorder_eq,
    List.foldl_cons, hadd]
  rfl

/-- A marker announces its own body. -/
theorem addAll_marker (h : Heredocs) {t : Token} {m : Marker} {k : Cursor}
    (ht : t.marker? = some m) (hnested : t.nested = []) (hk : Cursor.at? source t.stop = some k) :
    h.addAll source [t] = h.announce m k := by
  have hadd : h.add source t = h.announce m k := by simp [add, ht, hk]
  rw [addAll, Token.preorderAll, Token.preorderAll, List.append_nil, Token.preorder_eq, hnested,
    Token.preorderAll, List.foldl_cons, List.foldl_nil, hadd]

end Heredocs

/-! ## markers -/

/-- A line feed belongs to no name. -/
theorem ne_newline_of_isNameChar {c : Char} (h : isNameChar c = true) : c ≠ '\n' := by
  rintro rfl
  exact absurd h (by decide)

namespace Marker

/-- What is optional is there and meets its condition, or it is not. -/
theorem optional_append (p : Char → Bool) (cs : List Char) :
    cs = (optional p cs).1.toList ++ (optional p cs).2 ∧ ∀ c ∈ (optional p cs).1, p c = true := by
  cases cs with
  | nil => simp [optional]
  | cons c cs => by_cases hc : p c = true <;> simp [optional, hc]

theorem optional_some {p : Char → Bool} {c : Char} (hc : p c = true) (cs : List Char) :
    optional p (c :: cs) = (some c, cs) := by
  simp [optional, hc]

theorem optional_none {p : Char → Bool} {c : Char} (hc : p c = false) (cs : List Char) :
    optional p (c :: cs) = (none, c :: cs) := by
  simp [optional, hc]

/-- What stands behind the sign and the opening quote of a marker: its name and the closing
quote.  The marker is the same whatever follows. -/
theorem named?_eq_some {indented : Bool} {quote : Option Char} {cs : List Char} {m : Marker}
    (hquote : ∀ c ∈ quote, isQuote c = true) (h : named? indented quote cs = some m) :
    ∃ first name more, cs = first :: name ++ quote.toList ++ more ∧ isNameStart first = true ∧
      (∀ c ∈ first :: name, isNameChar c = true) ∧ m.terminator = first :: name ∧
      m.length = 2 + indented.toNat + (first :: name).length + 2 * quote.toList.length ∧
      named? indented quote (first :: name ++ quote.toList) = some m := by
  have hall : ∀ c ∈ cs.takeWhile isNameChar, isNameChar c = true :=
    List.all_eq_true.1 (List.all_takeWhile)
  have hcs : cs.takeWhile isNameChar ++ cs.drop (cs.takeWhile isNameChar).length = cs :=
    List.prefix_iff_eq_append.1 (List.takeWhile_prefix isNameChar)
  unfold named? at h
  cases hname : cs.takeWhile isNameChar with
  | nil => simp [hname] at h
  | cons first name =>
    rw [hname] at hall hcs
    simp only [hname] at h
    split at h
    · next hcond =>
      simp only [Bool.and_eq_true] at hcond
      obtain ⟨⟨hstart, hcap⟩, hclosed⟩ := hcond
      obtain rfl := Option.some.inj h
      have hagain : (first :: name ++ quote.toList).takeWhile isNameChar = first :: name := by
        rw [List.takeWhile_append_of_pos hall]
        cases quote with
        | none => simp
        | some q =>
          have hq : isNameChar q = false := by
            have := hquote q rfl
            simp only [isQuote, Bool.or_eq_true, beq_iff_eq] at this
            obtain rfl | rfl := this <;> decide
          simp [hq]
      refine ⟨first, name, (cs.drop (first :: name).length).drop quote.toList.length, ?_, hstart,
        hall, rfl, ?_, ?_⟩
      · cases quote with
        | none => simpa using hcs.symm
        | some q =>
          simp only [Option.isNone_some, Bool.false_or, beq_iff_eq,
            List.head?_eq_some_iff] at hclosed
          obtain ⟨more, hmore⟩ := hclosed
          rw [hmore] at hcs ⊢
          simpa using hcs.symm
      · cases indented <;> cases quote <;> simp
      · unfold named?
        rw [hagain]
        have hclosed' : (quote.isNone ||
            ((first :: name ++ quote.toList).drop (first :: name).length).head? == quote) =
              true := by
          cases quote <;> simp
        simp only [hstart, hcap, hclosed', Bool.and_self, if_true]
    · cases h

/-- The sign and the quote of a marker are read off it again. -/
theorem ofChars?_append {sign quote : Option Char} {first : Char} {cs : List Char}
    (hsign : ∀ c ∈ sign, isSign c = true) (hquote : ∀ c ∈ quote, isQuote c = true)
    (hfirst : isNameStart first = true) :
    ofChars? ('<' :: '<' :: (sign.toList ++ (quote.toList ++ first :: cs))) =
      named? sign.isSome quote (first :: cs) := by
  have hquoteSign : ∀ c, isQuote c = true → isSign c = false := by
    intro c hc
    simp only [isQuote, Bool.or_eq_true, beq_iff_eq] at hc
    obtain rfl | rfl := hc <;> decide
  have hfirstSign : isSign first = false := by
    by_contra hc
    simp only [isSign, Bool.not_eq_false, Bool.or_eq_true, beq_iff_eq] at hc
    obtain rfl | rfl := hc <;> exact absurd hfirst (by decide)
  have hfirstQuote : isQuote first = false := by
    by_contra hc
    simp only [isQuote, Bool.not_eq_false, Bool.or_eq_true, beq_iff_eq] at hc
    obtain rfl | rfl := hc <;> exact absurd hfirst (by decide)
  have hquotes : optional isQuote (quote.toList ++ first :: cs) = (quote, first :: cs) := by
    cases quote with
    | none => exact optional_none hfirstQuote cs
    | some q => exact optional_some (hquote q rfl) _
  have hsigns : optional isSign (sign.toList ++ (quote.toList ++ first :: cs)) =
      (sign, quote.toList ++ first :: cs) := by
    cases sign with
    | some s => exact optional_some (hsign s rfl) _
    | none =>
      cases quote with
      | none => exact optional_none hfirstSign cs
      | some q => exact optional_none (hquoteSign q (hquote q rfl)) _
  simp only [ofChars?, hsigns, hquotes]

/-- A marker has a name and no line feed, and can be read off its own characters. -/
theorem ofChars?_eq_some {cs : List Char} {m : Marker} (h : ofChars? cs = some m) :
    m.terminator ≠ [] ∧ 0 < m.length ∧ '\n' ∉ cs.take m.length ∧
      ofChars? (cs.take m.length) = some m := by
  unfold ofChars? at h
  split at h
  · next cs =>
    obtain ⟨hcs, hsign⟩ := optional_append isSign cs
    obtain ⟨hcs', hquote⟩ := optional_append isQuote (optional isSign cs).2
    change named? (optional isSign cs).1.isSome (optional isQuote (optional isSign cs).2).1
      (optional isQuote (optional isSign cs).2).2 = some m at h
    generalize (optional isSign cs).1 = sign at hcs hsign h
    generalize optional isQuote (optional isSign cs).2 = p at hcs' hquote h
    obtain ⟨quote, rest⟩ := p
    obtain ⟨first, name, more, hrest, hstart, hname, hterm, hlen, hagain⟩ := named?_eq_some hquote h
    let front := '<' :: '<' :: (sign.toList ++ (quote.toList ++ (first :: name ++ quote.toList)))
    have hsplit : '<' :: '<' :: cs = front ++ more := by
      rw [hcs, hcs', hrest]
      simp [front]
    have htake : ('<' :: '<' :: cs).take m.length = front := by
      rw [hsplit]
      refine List.take_left' ?_
      rw [hlen]
      cases sign <;> cases quote <;> simp [front] <;> omega
    rw [htake]
    refine ⟨by simp [hterm], by omega, ?_, ?_⟩
    · have hnl : ∀ c ∈ front, c ≠ '\n' := by
        simp only [front, List.mem_cons, List.mem_append, Option.mem_toList]
        rintro c (rfl | rfl | hc | hc | hc | hc)
        · decide
        · decide
        · rintro rfl
          exact absurd (hsign _ hc) (by decide)
        · rintro rfl
          exact absurd (hquote _ hc) (by decide)
        · exact ne_newline_of_isNameChar (hname c (List.mem_cons.2 hc))
        · rintro rfl
          exact absurd (hquote _ hc) (by decide)
      exact fun hmem => hnl _ hmem rfl
    · rw [← hagain]
      exact ofChars?_append hsign hquote hstart
  · cases h

/-! ## where a body ends -/

/-- An empty line closes no body. -/
theorem closedBy_nil {m : Marker} (h : m.terminator ≠ []) : m.closedBy [] = false := by
  simp [closedBy, Text.dropEnd, Text.trim, h]

/-- The closing line of a body begins at or behind the beginning of the body, and ends behind
it. -/
theorem bodyEnd?_place {m : Marker} (hm : m.terminator ≠ []) {cs : List Char} {i : Nat}
    {stop resume : Cursor} (hi : i ≤ cs.length)
    (h : m.bodyEnd? (.place cs i) = some (stop, resume)) :
    ∃ a b, stop = .place cs a ∧ resume = .place cs b ∧ i ≤ a ∧ a < b ∧ b ≤ cs.length := by
  induction hn : cs.length - i using Nat.strongRecOn generalizing i with
  | ind n ih =>
    have hline : ((cs.drop i).takeWhile (· != '\n')).length ≤ cs.length - i := by
      rw [← List.length_drop]
      exact (List.takeWhile_prefix _).length_le
    unfold bodyEnd? at h
    simp only [Cursor.rest_place, Cursor.advance_place] at h
    split at h
    · split at h
      · next hclosed =>
        have hne : (cs.drop i).takeWhile (· != '\n') ≠ [] := by
          intro hnil
          rw [hnil, closedBy_nil hm] at hclosed
          cases hclosed
        have hpos := List.length_pos_iff.2 hne
        obtain ⟨rfl, rfl⟩ := Prod.mk.inj (Option.some.inj h)
        exact ⟨i, _, rfl, rfl, Nat.le_refl i, by omega, by omega⟩
      · cases h
    · next c next hnext =>
      rw [Cursor.advance_place] at hnext
      obtain ⟨hc, rfl⟩ := Cursor.next?_place_eq_some hnext
      have hlt := (List.getElem?_eq_some_iff.1 hc).1
      by_cases hclosed : m.closedBy ((cs.drop i).takeWhile (· != '\n')) = true
      · simp only [hclosed, if_true] at h
        obtain ⟨rfl, rfl⟩ := Prod.mk.inj (Option.some.inj h)
        exact ⟨i, _, rfl, rfl, Nat.le_refl i, by omega, by omega⟩
      · simp only [hclosed] at h
        obtain ⟨a, b, hstop, hresume, hia, hab, hb⟩ := ih _ (by omega) (by omega) h rfl
        exact ⟨a, b, hstop, hresume, by omega, hab, hb⟩

end Marker

end ConnectorAudit
