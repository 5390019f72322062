import ConnectorAudit.Proofs.Derivations
import ConnectorAudit.Proofs.Shifts
import ConnectorAudit.Proofs.Spending

/-!
# Seams

Tokens set behind other tokens, as those of a second segment of a literal are set
behind those of the first.  A parse of the first ones alone ends with them.  A parse
of both sees more tokens there, and may take them for a part of what it has begun:
`Token.apart` says of two lists of tokens that it does not.

A `Seam` is such a pair of lists, with the shift by which the first ones are moved.
`Seam.Same` says of two parses, of the first tokens alone and of both, that they stand
at the same place, and `Agree` of two results that the second one has what the first
one has.
-/

namespace ConnectorAudit

/-! ## where tokens come apart -/

namespace Token

/-- A token behind which nothing is awaited. -/
def finishes (t : Token) : Bool :=
  match t.kind with
  | .label => false
  | .punctuation => [")", "]", ";"].contains t.text
  | .identifier => !t.isOperatorWord && !(["return", "next", "break", "not"].contains t.text)
  | _ => true

/-- A token that goes on with the expression before it: it clings, it separates entries, or it
joins operands and does not begin a line. -/
def continues (t : Token) : Bool :=
  t.clings || t.isPunct "," || t.isPunct "=>" ||
    t.isBinary .statement && !(t.gap.newline && t.gap.space)

/-- Whether the last of the tokens may be the name of a call: a name, or what stands behind a
call operator, which can be `[]` too. -/
def endsInName (ts : List Token) : Bool :=
  match ts.reverse with
  | [] => false
  | [t] => t.kind == .identifier
  | t :: u :: rest =>
    t.kind == .identifier || u.isCallOperator ||
      (t.isPunct "]" && u.isPunct "[" && rest.head?.any isCallOperator)

/-- A token that begins the arguments of the name before it. -/
def beginsArguments (t : Token) (next? : Option Token) : Bool :=
  t.isPunct "(" && !t.gap.space || t.startsArgument next?

/-- Two strings on one line are one literal. -/
def joins (t u : Token) : Bool := t.kind == .string && u.kind == .string && !u.gap.newline

/-- No expression of the one tokens goes on with the others. -/
def apart (before after : List Token) : Bool :=
  match before.getLast?, after with
  | some l, t :: rest =>
    l.finishes && !t.continues && !l.joins t &&
      !(endsInName before && t.beginsArguments rest.head?)
  | _, _ => true

theorem apart_nil (ts : List Token) : apart ts [] = true := by
  unfold apart
  split
  · next heq => cases heq
  · rfl

@[simp]
theorem finishes_moved (σ : Shift) (t : Token) : (t.moved σ).finishes = t.finishes := by
  simp [finishes, isOperatorWord]

@[simp]
theorem continues_moved (σ : Shift) (t : Token) : (t.moved σ).continues = t.continues := by
  simp [continues, clings]

@[simp]
theorem beginsArguments_moved (σ : Shift) (t : Token) (next? : Option Token) :
    (t.moved σ).beginsArguments (next?.map (moved σ)) = t.beginsArguments next? := by
  simp [beginsArguments]

/-- Where the tokens behind a seam stand does not matter for keeping them apart. -/
theorem apart_moved (σ : Shift) (before after : List Token) :
    apart before (after.map (moved σ)) = apart before after := by
  cases after with
  | nil => rw [List.map_nil]
  | cons t rest =>
    unfold apart
    cases before.getLast? with
    | none => rfl
    | some l => simp [joins]

/-- A mark that closes nothing finishes nothing. -/
theorem not_finishes_of_isPunct {t : Token} {text : String} (h : t.isPunct text = true)
    (htext : text ∉ [")", "]", ";"]) : t.finishes = false := by
  obtain ⟨hkind, rfl⟩ : t.kind = .punctuation ∧ t.text = text := by simpa [isPunct] using h
  unfold finishes
  rw [hkind]
  simpa using htext

/-- What is binary somewhere is so in a statement. -/
theorem isBinary_statement {t : Token} {ctx : Context} (h : t.isBinary ctx = true) :
    t.isBinary .statement = true := by
  unfold isBinary at h ⊢
  split at h
  · by_cases hcomma : (t.text == ",") = true
    · rw [if_pos hcomma]
      rfl
    · by_cases hrocket : (t.text == "=>") = true
      · rw [if_neg hcomma, if_pos hrocket]
        rfl
      · rw [if_neg hcomma, if_neg hrocket] at h ⊢
        exact h
  · exact h
  · cases h

/-- A binary operator finishes nothing. -/
theorem not_finishes_of_isBinary {t : Token} {ctx : Context} (h : t.isBinary ctx = true) :
    t.finishes = false := by
  unfold isBinary at h
  unfold finishes
  split at h
  · next hkind =>
    rw [hkind]
    simp only [Bool.eq_false_iff]
    intro hmem
    have htext : t.text = ")" ∨ t.text = "]" ∨ t.text = ";" := by simpa using hmem
    rcases htext with htext | htext | htext <;> simp [htext, joinsNothing] at h
  · next hkind => simp [hkind, h]
  · cases h

/-- What follows decides only of signs whether they begin an argument. -/
theorem startsArgument_of_finishes {t : Token} (h : t.finishes = true) (a b : Option Token) :
    t.startsArgument a = t.startsArgument b := by
  unfold startsArgument
  split
  all_goals try rfl
  next hkind =>
    have htext : t.text = ")" ∨ t.text = "]" ∨ t.text = ";" := by
      simpa [finishes, hkind] using h
    rcases htext with htext | htext | htext <;> simp [htext]

section

variable {t : Token} (h : t.continues = false)

include h

/-- What does not continue does not cling. -/
theorem not_clings_of_not_continues : t.clings = false := by
  simp only [continues, Bool.or_eq_false_iff] at h
  exact h.1.1.1

theorem separates_of_not_continues : t.isPunct "," = false ∧ t.isPunct "=>" = false := by
  simp only [continues, Bool.or_eq_false_iff] at h
  exact ⟨h.1.1.2, h.1.2⟩

theorem assigns_of_not_continues : (t.isPunct "=" && !t.gap.space) = false := by
  refine Bool.eq_false_iff.2 fun hboth => ?_
  obtain ⟨hequals, hspace⟩ : t.isPunct "=" = true ∧ t.gap.space = false := by simpa using hboth
  obtain ⟨hkind, htext⟩ : t.kind = .punctuation ∧ t.text = "=" := by simpa [isPunct] using hequals
  simp [continues, hspace, isBinary, hkind, htext, joinsNothing] at h

/-- What does not continue is no operator on the same line. -/
theorem binary_of_not_continues (ctx : Context) : (t.gap.newline || !t.isBinary ctx) = true := by
  simp only [continues, Bool.or_eq_false_iff] at h
  cases hnewline : t.gap.newline with
  | true => rfl
  | false =>
    have hstatement : t.isBinary .statement = false := by simpa [hnewline] using h.2
    simpa using mt isBinary_statement (by simp [hstatement])

end

variable {ts : List Token} {t u v : Token}

/-- A name at the end ends in a name. -/
theorem endsInName_of_identifier (hts : [t] <:+ ts) (ht : t.kind = .identifier) :
    endsInName ts = true := by
  obtain ⟨us, rfl⟩ := hts
  unfold endsInName
  rw [List.reverse_append, List.reverse_singleton, List.singleton_append]
  cases us.reverse <;> simp [ht]

/-- What stands behind a call operator ends in a name. -/
theorem endsInName_of_callOperator (hts : [u, t] <:+ ts) (hu : u.isCallOperator = true) :
    endsInName ts = true := by
  obtain ⟨us, rfl⟩ := hts
  simp [endsInName, hu]

theorem endsInName_of_index (hts : [v, u, t] <:+ ts) (hv : v.isCallOperator = true)
    (hu : u.isPunct "[" = true) (ht : t.isPunct "]" = true) : endsInName ts = true := by
  obtain ⟨us, rfl⟩ := hts
  simp [endsInName, hu, hv, ht]

end Token

namespace Progress

variable {p : Progress} {t : Token} {ts : List Token}

theorem next?_of_items_cons (h : p.feed.items = t :: ts) :
    p.next? = some (t, { p with feed := .ofList ts, last := t.span }) := by
  unfold next?
  rw [← Feed.ofList_items p.feed, h, Feed.next?_cons]

theorem next?_of_items_nil (h : p.feed.items = []) : p.next? = none := by
  unfold next?
  rw [← Feed.ofList_items p.feed, h, Feed.next?_nil]

theorem left_lt_of_items {q : Progress} (h : p.feed.items = t :: q.feed.items) :
    q.left < p.left := by
  rw [left_eq_length, left_eq_length, h, List.length_cons]
  exact Nat.lt_succ_self _

end Progress

/-- Tokens, and others that no expression of them goes on with. -/
structure Seam where
  before : List Token
  after : List Token
  /-- By how much the first ones are moved. -/
  shift : Shift
  apart : Token.apart before after = true

namespace Seam

variable {s : Seam} {l t : Token} {rest : List Token}

/-- What stands at the seam is kept apart. -/
theorem apart_of_suffix (hl : [l] <:+ s.before) (ht : s.after = t :: rest) :
    l.finishes = true ∧ t.continues = false ∧ l.joins t = false ∧
      (Token.endsInName s.before = true → t.beginsArguments rest.head? = false) := by
  have hlast : s.before.getLast? = some l := by
    obtain ⟨us, hus⟩ := hl
    rw [← hus, List.getLast?_append, List.getLast?_singleton, Option.some_or]
  have hapart := s.apart
  simp only [Token.apart, hlast, ht, Bool.and_eq_true, Bool.not_eq_true'] at hapart
  obtain ⟨⟨⟨hfinishes, hcontinues⟩, hjoins⟩, hname⟩ := hapart
  exact ⟨hfinishes, hcontinues, hjoins, fun hends => by simpa [hends] using hname⟩

/-- What stands before the seam finishes something. -/
theorem finishes (hl : [l] <:+ s.before) (ht : s.after ≠ []) : l.finishes = true := by
  obtain ⟨t, rest, hafter⟩ := List.exists_cons_of_ne_nil ht
  exact (apart_of_suffix hl hafter).1

/-- Nothing is behind a token that awaits something. -/
theorem after_eq_nil (hl : [l] <:+ s.before) (hnot : l.finishes = false) : s.after = [] := by
  by_contra hafter
  rw [finishes hl hafter] at hnot
  cases hnot

/-- What stands behind the seam does not continue. -/
theorem not_continues (hbefore : s.before ≠ []) (ht : s.after = t :: rest) :
    t.continues = false := by
  have hlast : [s.before.getLast hbefore] <:+ s.before :=
    ⟨_, List.dropLast_append_getLast hbefore⟩
  exact (apart_of_suffix hlast ht).2.1

/-- Behind a name at the seam no argument begins. -/
theorem not_beginsArguments (hname : Token.endsInName s.before = true) (ht : s.after = t :: rest) :
    t.beginsArguments rest.head? = false := by
  have hbefore : s.before ≠ [] := by
    rintro hnil
    rw [hnil] at hname
    cases hname
  have hlast : [s.before.getLast hbefore] <:+ s.before :=
    ⟨_, List.dropLast_append_getLast hbefore⟩
  exact (apart_of_suffix hlast ht).2.2.2 hname

/-! ## parses that stand at the same place -/

/-- A parse of the tokens before the seam alone, and one of all, at the same place. -/
structure Same (s : Seam) (p p' : Progress) : Prop where
  within : p.feed.items <:+ s.before
  items : p'.feed.items = p.feed.items.map (Token.moved s.shift) ++ s.after
  last : p.left < s.before.length → p'.last = p.last.moved s.shift

namespace Same

variable {p p' q q' : Progress}

/-- What is left differs by what stands behind the seam. -/
theorem left_eq (h : s.Same p p') : p'.left = p.left + s.after.length := by
  rw [Progress.left_eq_length, Progress.left_eq_length, h.items, List.length_append,
    List.length_map]

/-- Both sides go forwards together. -/
theorem left_lt_iff (hp : s.Same p p') (hq : s.Same q q') :
    q'.left < p'.left ↔ q.left < p.left := by
  rw [hp.left_eq, hq.left_eq]
  omega

theorem left_le (h : s.Same p p') : p.left ≤ s.before.length := by
  rw [Progress.left_eq_length]
  exact h.within.length_le

/-- What is noted makes no difference. -/
theorem notes (h : s.Same p p') (xs ys : List String) :
    s.Same { p with notes := xs } { p' with notes := ys } := ⟨h.within, h.items, h.last⟩

/-- Both parses see the same next token, or the first one ends here. -/
theorem next (h : s.Same p p') :
    (∃ t q q', p.next? = some (t, q) ∧ p'.next? = some (t.moved s.shift, q') ∧
      p.feed.items = t :: q.feed.items ∧ s.Same q q') ∨
    p.feed.items = [] ∧ p.next? = none ∧
      (s.after = [] ∧ p'.next? = none ∨
        ∃ t q', s.after = t :: q'.feed.items ∧ p'.next? = some (t, q')) := by
  have hitems' := h.items
  cases hitems : p.feed.items with
  | nil =>
    rw [hitems, List.map_nil, List.nil_append] at hitems'
    refine .inr ⟨rfl, Progress.next?_of_items_nil hitems, ?_⟩
    cases hafter : s.after with
    | nil => exact .inl ⟨rfl, Progress.next?_of_items_nil (hitems'.trans hafter)⟩
    | cons t rest =>
      exact .inr ⟨t, _, rfl, Progress.next?_of_items_cons (hitems'.trans hafter)⟩
  | cons t ts =>
    rw [hitems, List.map_cons, List.cons_append] at hitems'
    refine .inl ⟨t, _, _, Progress.next?_of_items_cons hitems,
      Progress.next?_of_items_cons hitems', rfl, ?_, rfl, fun _ => Token.span_moved s.shift t⟩
    exact (List.suffix_cons t ts).trans (hitems ▸ h.within)

/-- Before the seam the next token is the same. -/
theorem peek?_eq_of_ne_nil (h : s.Same p p') (hp : p.feed.items ≠ []) :
    p'.peek? = p.peek?.map (Token.moved s.shift) := by
  obtain ⟨t, ts, hitems⟩ := List.exists_cons_of_ne_nil hp
  simp [Progress.peek?, Feed.head?, h.items, hitems]

/-- At the seam there is no next token, or the first one behind it. -/
theorem peek?_eq_of_nil (h : s.Same p p') (hp : p.feed.items = []) :
    p.peek? = none ∧ p'.peek? = s.after.head? := by
  simp [Progress.peek?, Feed.head?, h.items, hp]

/-- A test of the next token, which it passes wherever it is and which those behind the seam do
not pass. -/
theorem any_peek?_eq (h : s.Same p p') {f : Token → Bool}
    (hmoved : ∀ t : Token, f (t.moved s.shift) = f t)
    (hend : p.feed.items = [] → ∀ t rest, s.after = t :: rest → f t = false) :
    p'.peek?.any f = p.peek?.any f := by
  by_cases hp : p.feed.items = []
  · obtain ⟨hnone, hafter⟩ := h.peek?_eq_of_nil hp
    rw [hnone, hafter]
    cases hrest : s.after with
    | nil => rfl
    | cons t rest => simp [hend hp t rest hrest]
  · rw [h.peek?_eq_of_ne_nil hp]
    cases p.peek? with
    | none => rfl
    | some t => simp [hmoved]

/-- What is asked of the next token is answered alike. -/
theorem all_peek?_eq (h : s.Same p p') {f : Token → Bool}
    (hmoved : ∀ t : Token, f (t.moved s.shift) = f t) (hend : p.feed.items = [] → s.after = []) :
    p'.peek?.all f = p.peek?.all f := by
  by_cases hp : p.feed.items = []
  · obtain ⟨hnone, hafter⟩ := h.peek?_eq_of_nil hp
    rw [hnone, hafter, hend hp]
    rfl
  · rw [h.peek?_eq_of_ne_nil hp]
    cases p.peek? with
    | none => rfl
    | some t => simp [hmoved]

/-- Both sides see arguments in parentheses, or neither does. -/
theorem any_opensArguments_eq (h : s.Same p p')
    (hname : p.feed.items = [] → s.after ≠ [] → Token.endsInName s.before = true) :
    p'.peek?.any Token.opensArguments = p.peek?.any Token.opensArguments := by
  refine h.any_peek?_eq (Token.opensArguments_moved s.shift) fun hp t rest hafter => ?_
  have hnot := not_beginsArguments (hname hp (by simp [hafter])) hafter
  simp only [Token.beginsArguments, Bool.or_eq_false_iff, Bool.and_eq_false_iff] at hnot
  unfold Token.opensArguments Token.isGlued
  rcases hnot.1 with hparen | hspace
  · rw [hparen, Bool.false_and]
  · rw [hspace, Bool.false_and, Bool.and_false]

/-- Both sides see an argument, or neither does. -/
theorem argumentFollows_eq (h : s.Same p p')
    (hname : p.feed.items = [] → s.after ≠ [] → Token.endsInName s.before = true) :
    p'.argumentFollows = p.argumentFollows := by
  simp only [Progress.argumentFollows, Progress.peek?, Progress.peekSecond?, Feed.head?, h.items]
  cases hp : p.feed.items with
  | nil =>
    cases hafter : s.after with
    | nil => rfl
    | cons t rest =>
      have hnot := not_beginsArguments (hname hp (by simp [hafter])) hafter
      simp only [Token.beginsArguments, Bool.or_eq_false_iff] at hnot
      simpa using hnot.2
  | cons t ts =>
    cases ts with
    | nil =>
      cases hafter : s.after with
      | nil => exact Token.startsArgument_moved s.shift t none
      | cons u rest =>
        have hfinishes : (t.moved s.shift).finishes = true := by
          rw [Token.finishes_moved]
          exact finishes (hp ▸ h.within) (by simp [hafter])
        exact (Token.startsArgument_of_finishes hfinishes (some u) none).trans
          (Token.startsArgument_moved s.shift t none)
    | cons u us => exact Token.startsArgument_moved s.shift t (some u)

/-- Whether a comma and another label follow. -/
theorem anotherLabel_eq (h : s.Same p p') (hleft : p.left < s.before.length) :
    (p'.peek?.any (·.isPunct ",") && p'.peekSecond?.any (·.kind == .label)) =
      (p.peek?.any (·.isPunct ",") && p.peekSecond?.any (·.kind == .label)) := by
  simp only [Progress.peek?, Progress.peekSecond?, Feed.head?, h.items]
  cases hp : p.feed.items with
  | nil =>
    cases hafter : s.after with
    | nil => rfl
    | cons t rest =>
      have hbefore : s.before ≠ [] := List.ne_nil_of_length_pos (Nat.zero_lt_of_lt hleft)
      have hcomma := (Token.separates_of_not_continues (not_continues hbefore hafter)).1
      simp [hcomma]
  | cons t ts =>
    cases ts with
    | nil =>
      cases hcomma : t.isPunct "," with
      | false => simp [hcomma]
      | true =>
        have hafter : s.after = [] :=
          after_eq_nil (hp ▸ h.within) (Token.not_finishes_of_isPunct hcomma (by decide))
        simp [hafter]
    | cons u us => simp

/-- Whether an operand follows on the line a token that awaits one. -/
theorem operandFollows_eq (h : s.Same p p') (hpast : t :: p.feed.items <:+ s.before)
    (ht : t.finishes = false) :
    (p'.peek?.any fun next => next.startsOperand && !next.gap.newline) =
      p.peek?.any fun next => next.startsOperand && !next.gap.newline := by
  refine h.any_peek?_eq (by simp) fun hp u rest hafter => ?_
  rw [hp] at hpast
  rw [after_eq_nil hpast ht] at hafter
  cases hafter

end Same

end Seam

/-! ## results -/

/-- What the one result has, the other one has too. -/
def Agree {ε α β : Type} (R : α → β → Prop) (x : Except ε α) (y : Except ε β) : Prop :=
  ∀ a, x = .ok a → ∃ b, y = .ok b ∧ R a b

namespace Agree

variable {ε α β γ δ : Type} {R S : α → β → Prop} {x : Except ε α} {y : Except ε β}

theorem ok {a : α} {b : β} (h : R a b) : Agree R (.ok a : Except ε α) (.ok b : Except ε β) := by
  intro a' ha
  obtain rfl := Except.ok.inj ha
  exact ⟨b, rfl, h⟩

theorem failed (e : ε) (y : Except ε β) : Agree R (.error e : Except ε α) y := fun _ h => nomatch h

/-- Results that agree do so in a weaker way as well. -/
theorem mono (h : Agree R x y) (hR : ∀ a b, R a b → S a b) : Agree S x y := by
  intro a ha
  obtain ⟨b, hb, hab⟩ := h a ha
  exact ⟨b, hb, hR a b hab⟩

/-- Results agree if their parts do, one after the other. -/
theorem bind {T : γ → δ → Prop} {f : α → Except ε γ} {f' : β → Except ε δ} (h : Agree R x y)
    (hf : ∀ a b, R a b → Agree T (f a) (f' b)) : Agree T (x >>= f) (y >>= f') := by
  intro c hc
  obtain ⟨a, rfl, hfa⟩ := bind_eq_ok hc
  obtain ⟨b, rfl, hab⟩ := h a rfl
  exact hf a b hab c hfa

/-- The first parts need to agree only where the rest goes well. -/
theorem bind_of_ok {T : γ → δ → Prop} {f : α → Except ε γ} {f' : β → Except ε δ}
    (h : ∀ a c, x = .ok a → f a = .ok c → ∃ b, y = .ok b ∧ Agree T (f a) (f' b)) :
    Agree T (x >>= f) (y >>= f') := by
  intro c hc
  obtain ⟨a, rfl, hfa⟩ := bind_eq_ok hc
  obtain ⟨b, rfl, hab⟩ := h a c rfl hfa
  exact hab c hfa

theorem map {T : γ → δ → Prop} {f : α → γ} {f' : β → δ} (h : Agree R x y)
    (hf : ∀ a b, R a b → T (f a) (f' b)) : Agree T (f <$> x) (f' <$> y) := by
  intro c hc
  obtain ⟨a, rfl, rfl⟩ := map_eq_ok hc
  obtain ⟨b, rfl, hab⟩ := h a rfl
  exact ⟨f' b, rfl, hf a b hab⟩

end Agree

namespace Seam

/-- Both parses stand at the same place, with fewer than `n` tokens left before the seam. -/
structure At (s : Seam) (n : Nat) (p p' : Progress) : Prop where
  same : s.Same p p'
  left_lt : p.left < n

/-- Both parses have the same and stand at the same place. -/
structure Yields {α : Type} (s : Seam) (move : α → α) (n : Nat) (x y : α × Progress) : Prop where
  eq : y.1 = move x.1
  place : s.At n x.2 y.2

namespace At

variable {s : Seam} {n m : Nat} {p p' q q' : Progress}

theorem mono (h : s.At n p p') (hnm : n ≤ m) : s.At m p p' :=
  ⟨h.same, Nat.lt_of_lt_of_le h.left_lt hnm⟩

theorem notes (h : s.At n p p') (xs ys : List String) :
    s.At n { p with notes := xs } { p' with notes := ys } := ⟨h.same.notes xs ys, h.left_lt⟩

/-- What was passed last is the same. -/
theorem last (h : s.At n p p') (hn : n ≤ s.before.length) :
    p'.last = p.last.moved s.shift :=
  h.same.last (Nat.lt_of_lt_of_le h.left_lt hn)

/-- The place behind the next token. -/
theorem behind {t : Token} (h : s.At n p p') (hp : p.feed.items = t :: q.feed.items)
    (hq : s.Same q q') : s.At n q q' :=
  ⟨hq, Nat.lt_trans (Progress.left_lt_of_items hp) h.left_lt⟩

/-- Passing a token leaves both sides alike. -/
theorem skip (h : s.At n p p') (hp : p.feed.items ≠ []) : s.At n p.skip p'.skip := by
  unfold Progress.skip
  obtain ⟨t, q, q', hnext, hnext', hitems, hq⟩ | ⟨hitems, -⟩ := h.same.next
  · rw [hnext, hnext']
    exact h.behind hitems hq
  · exact absurd hitems hp

/-- An expected closer is passed on both sides. -/
theorem expect (h : s.At n p p') (c : Closer) :
    Agree (s.At n) (p.expect c) (p'.expect c) := by
  unfold Progress.expect
  obtain ⟨t, q, q', hnext, hnext', hitems, hq⟩ | ⟨-, hnext, -⟩ := h.same.next
  · simp only [hnext, hnext', Closer.matches_moved]
    split
    · exact .ok (h.behind hitems hq)
    · exact .failed _ _
  · rw [hnext]
    exact .failed _ _

end At

/-! ## parameters and signatures -/

end Seam

section Unfolding

variable (p : Progress)

/-- One token of a list of parameters, and then the rest of the list. -/
theorem parameters_eq (terminator : String) (ps : Parameters) :
    parameters terminator ps p =
      match p.next? with
      | none => p.failAtEnd .parameterEnd
      | some (t, q) =>
        if ps.nesting = 0 ∧ t.isPunct terminator then .ok (ps.finish.done, q)
        else if ps.nesting = 0 ∧ t.isCloser then p.failAt t .parameterEnd
        else parameters terminator (ps.take t) q := by
  rw [parameters]
  split <;> next heq => simp only [heq]

/-- One bare parameter, and then the others. -/
theorem bareParameters_eq (params : List String) :
    bareParameters params p =
      match p.next? with
      | none => (params.reverse, p)
      | some (t, q) =>
        if t.isBareParameter then
          bareParameters (if t.isPunct "," then params else t.text :: params) q
        else (params.reverse, p) := by
  rw [bareParameters]
  split <;> next heq => simp only [heq]

/-- One token of a signature, and then the rest of it. -/
theorem signature_eq (line parens : Nat) :
    signature line parens p =
      match p.next? with
      | none => (false, p)
      | some (t, q) =>
        if parens = 0 ∧ (t.line ≠ line ∨ t.isPunct ";" ∨ t.isCloser) then (false, p)
        else if t.isPunct "(" then signature line (parens + 1) q
        else if t.isPunct ")" then signature line (parens - 1) q
        else if parens = 0 ∧ t.isPunct "=" then (true, q)
        else signature line parens q := by
  rw [signature]
  split <;> next heq => simp only [heq]

end Unfolding

namespace Seam.At

variable {s : Seam} {n : Nat} {p p' q : Progress}

/-- Parameters are read alike on both sides. -/
theorem parameters (h : s.At n p p') (terminator : String) (ps : Parameters) :
    Agree (s.Yields id n) (parameters terminator ps p) (parameters terminator ps p') := by
  induction hleft : p.left using Nat.strongRecOn generalizing ps p p' with
  | ind m ih =>
    rw [parameters_eq, parameters_eq]
    obtain ⟨t, q, q', hnext, hnext', hitems, hq⟩ | ⟨-, hnext, -⟩ := h.same.next
    · simp only [hnext, hnext', Token.isPunct_moved, Token.isCloser_moved, Parameters.take_moved]
      split
      · exact .ok ⟨rfl, h.behind hitems hq⟩
      · split
        · exact .failed _ _
        · exact ih _ (hleft ▸ Progress.left_lt_of_items hitems) (h.behind hitems hq) _ rfl
    · rw [hnext]
      exact .failed _ _

/-- The parameters of a block are read alike on both sides. -/
theorem blockParameters (h : s.At n p p') (hp : p.feed.items ≠ []) :
    Agree (s.Yields id n) (blockParameters p) (blockParameters p') := by
  unfold ConnectorAudit.blockParameters
  obtain ⟨t, q, q', hnext, hnext', hitems, hq⟩ | ⟨hitems, -⟩ := h.same.next
  · simp only [hnext, hnext', Token.isPunct_moved]
    split
    · exact .ok ⟨rfl, h.behind hitems hq⟩
    · split
      · exact (h.behind hitems hq).parameters _ _
      · exact .ok ⟨rfl, h⟩
  · exact absurd hitems hp

/-- Parameters that end before the seam does. -/
theorem bareParameters (h : s.At n p p') {names params : List String}
    (hparams : bareParameters params p = (names, q)) (hq : q.feed.items ≠ []) :
    ∃ q', bareParameters params p' = (names, q') ∧ s.At n q q' := by
  induction hleft : p.left using Nat.strongRecOn generalizing params p p' with
  | ind m ih =>
    rw [bareParameters_eq] at hparams ⊢
    obtain ⟨t, r, r', hnext, hnext', hitems, hr⟩ | ⟨hitems, hnext, -⟩ := h.same.next
    · simp only [hnext, hnext', Token.isBareParameter_moved, Token.isPunct_moved,
        Token.text_moved] at hparams ⊢
      split at hparams
      · next hbare =>
        rw [if_pos hbare]
        exact ih _ (hleft ▸ Progress.left_lt_of_items hitems) (h.behind hitems hr) hparams rfl
      · next hbare =>
        rw [if_neg hbare]
        obtain ⟨rfl, rfl⟩ := Prod.mk.inj hparams
        exact ⟨p', rfl, h⟩
    · rw [hnext] at hparams
      obtain ⟨-, rfl⟩ := Prod.mk.inj hparams
      exact absurd hitems hq

/-- The parameters of a lambda are read alike on both sides, if something follows. -/
theorem lambdaParameters (h : s.At n p p') {names : List String}
    (hparams : lambdaParameters p = .ok (names, q)) (hq : q.feed.items ≠ []) :
    ∃ q', lambdaParameters p' = .ok (names, q') ∧ s.At n q q' := by
  unfold ConnectorAudit.lambdaParameters at hparams ⊢
  obtain ⟨t, r, r', hnext, hnext', hitems, hr⟩ | ⟨hitems, hnext, -⟩ := h.same.next
  · simp only [hnext, hnext', Token.isPunct_moved] at hparams ⊢
    split at hparams
    · next hparen =>
      rw [if_pos hparen]
      obtain ⟨⟨_, q'⟩, hb, rfl, hq'⟩ := (h.behind hitems hr).parameters _ _ _ hparams
      exact ⟨q', hb, hq'⟩
    · next hparen =>
      rw [if_neg hparen]
      obtain ⟨q', hb, hq'⟩ := h.bareParameters (Except.ok.inj hparams) hq
      exact ⟨q', by rw [hb], hq'⟩
  · rw [hnext] at hparams
    obtain ⟨-, rfl⟩ := Prod.mk.inj (Except.ok.inj hparams)
    exact absurd hitems hq

/-- A signature that ends in `=`, or before the seam does. -/
theorem signature (h : s.At n p p') {line parens : Nat} {endless : Bool}
    (hsignature : signature line parens p = (endless, q))
    (hq : endless = true ∨ q.feed.items ≠ []) :
    ∃ q', signature (line + s.shift.lines) parens p' = (endless, q') ∧ s.At n q q' := by
  induction hleft : p.left using Nat.strongRecOn generalizing parens p p' with
  | ind m ih =>
    rw [signature_eq] at hsignature ⊢
    obtain ⟨t, r, r', hnext, hnext', hitems, hr⟩ | ⟨hitems, hnext, -⟩ := h.same.next
    · have hline : t.line + s.shift.lines ≠ line + s.shift.lines ↔ t.line ≠ line := by omega
      have hbehind := h.behind hitems hr
      have hlater : ∀ {parens}, ConnectorAudit.signature line parens r = (endless, q) →
          ∃ q', ConnectorAudit.signature (line + s.shift.lines) parens r' = (endless, q') ∧
            s.At n q q' :=
        fun hrest => ih _ (hleft ▸ Progress.left_lt_of_items hitems) hbehind hrest rfl
      simp only [hnext, hnext', Token.isPunct_moved, Token.isCloser_moved, Token.line_moved,
        hline] at hsignature ⊢
      split at hsignature
      · next hend =>
        rw [if_pos hend]
        obtain ⟨rfl, rfl⟩ := Prod.mk.inj hsignature
        exact ⟨p', rfl, h⟩
      · next hend =>
        rw [if_neg hend]
        split at hsignature
        · next hopen =>
          rw [if_pos hopen]
          exact hlater hsignature
        · next hopen =>
          rw [if_neg hopen]
          split at hsignature
          · next hclose =>
            rw [if_pos hclose]
            exact hlater hsignature
          · next hclose =>
            rw [if_neg hclose]
            split at hsignature
            · next hequals =>
              rw [if_pos hequals]
              obtain ⟨rfl, rfl⟩ := Prod.mk.inj hsignature
              exact ⟨r', rfl, hbehind⟩
            · next hequals =>
              rw [if_neg hequals]
              exact hlater hsignature
    · rw [hnext] at hsignature
      obtain ⟨rfl, rfl⟩ := Prod.mk.inj hsignature
      exact absurd hitems (hq.resolve_left (by decide))

end Seam.At

end ConnectorAudit
