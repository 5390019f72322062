import ConnectorAudit.Proofs.Places
import ConnectorAudit.Token

/-!
# The layout of tokens

How tokens lie in the text they were cut from, said of the text and the tokens
alone.  A token is *placed* if its text stands in the source at its offset, its
line and column are those of that place, and the tokens below it are placed in
order strictly inside of it; tokens are *laid* between two bytes if they are
placed and follow each other there without overlapping.

`Token.placed_between` is the one way in which tokens come about: a token that
reaches from one place of the source to a later one is placed.
-/

namespace ConnectorAudit

namespace Token

/-- The token stands in the source where it says. -/
def StandsIn (source : String) (t : Token) : Prop :=
  ∃ before after, source = before ++ t.text ++ after ∧ t.offset = before.utf8ByteSize ∧
    t.line = Text.lineBehind before.toList ∧ t.column = Text.columnBehind before.toList

/-- The token is not empty, stands in the source where it says, and so do the tokens below it,
at every level, in order and strictly inside the token that holds them. -/
inductive Placed (source : String) : Token → Prop
  | intro (t : Token) (nonempty : t.text ≠ "") (stands : t.StandsIn source)
      (inside : ∀ n ∈ t.nested, t.offset < n.offset ∧ n.stop < t.stop)
      (ordered : t.nested.Pairwise fun a b => a.stop ≤ b.offset)
      (nested : ∀ n ∈ t.nested, Placed source n) : Placed source t

end Token

/-- The items are good, and lie one behind the other between the bytes `lo` and `hi`. -/
structure Row {α : Type} (good : α → Prop) (start stop : α → Nat) (lo hi : Nat) (items : List α) :
    Prop where
  placed : ∀ a ∈ items, good a
  ordered : items.Pairwise fun a b => stop a ≤ start b
  within : ∀ a ∈ items, lo ≤ start a ∧ stop a ≤ hi

namespace Row

variable {α : Type} {good : α → Prop} {start stop : α → Nat} {lo mid hi : Nat} {xs ys : List α}

theorem nil : Row good start stop lo hi [] where
  placed := by simp
  ordered := List.Pairwise.nil
  within := by simp

theorem singleton {a : α} (h : good a) (hlo : lo ≤ start a) (hhi : stop a ≤ hi) :
    Row good start stop lo hi [a] where
  placed := by simpa using h
  ordered := List.pairwise_singleton _ a
  within := by simpa using ⟨hlo, hhi⟩

/-- A row stands within wider bounds as well. -/
theorem mono (h : Row good start stop lo hi xs) {lo' hi' : Nat} (hlo : lo' ≤ lo) (hhi : hi ≤ hi') :
    Row good start stop lo' hi' xs where
  placed := h.placed
  ordered := h.ordered
  within a ha := by
    have := h.within a ha
    omega

/-- Part of a row is a row. -/
theorem sublist (h : Row good start stop lo hi xs) (hsub : ys.Sublist xs) :
    Row good start stop lo hi ys where
  placed a ha := h.placed a (hsub.subset ha)
  ordered := h.ordered.sublist hsub
  within a ha := h.within a (hsub.subset ha)

/-- Two rows stand one behind the other. -/
theorem append (hxs : Row good start stop lo mid xs) (hys : Row good start stop mid hi ys)
    (hlo : lo ≤ mid) (hhi : mid ≤ hi) : Row good start stop lo hi (xs ++ ys) where
  placed a ha := by
    cases List.mem_append.1 ha with
    | inl ha => exact hxs.placed a ha
    | inr ha => exact hys.placed a ha
  ordered := by
    refine List.pairwise_append.2 ⟨hxs.ordered, hys.ordered, fun a ha b hb => ?_⟩
    exact Nat.le_trans (hxs.within a ha).2 (hys.within b hb).1
  within a ha := by
    cases List.mem_append.1 ha with
    | inl ha =>
      have := hxs.within a ha
      omega
    | inr ha =>
      have := hys.within a ha
      omega

end Row

/-- The tokens are placed, one behind the other, between the bytes `lo` and `hi`. -/
abbrev Laid (source : String) (lo hi : Nat) (tokens : List Token) : Prop :=
  Row (Token.Placed source) Token.offset Token.stop lo hi tokens

namespace Token

variable {source : String} {i j : Nat}

/-- The text of a token is what stands between its two places. -/
theorem text_between {kind : Kind} {gap : Gap} {value : Option String} {nested : List Token}
    (h : i ≤ j) :
    (between kind gap (.place source.toList i) (.place source.toList j) value nested).text =
      String.ofList ((source.toList.drop i).take (j - i)) :=
  Cursor.textTo_place h

/-- A token stops at the second of its two places. -/
theorem stop_between {kind : Kind} {gap : Gap} {value : Option String} {nested : List Token}
    (h : i ≤ j) :
    (between kind gap (.place source.toList i) (.place source.toList j) value nested).stop =
      byteAt source.toList j := by
  obtain ⟨n, rfl⟩ := Nat.exists_eq_add_of_le h
  rw [stop, text_between h, utf8ByteSize_ofList, Nat.add_sub_cancel_left, byteAt_add]
  rfl

/-- A token between two places stands in the source. -/
theorem standsIn_between {kind : Kind} {gap : Gap} {value : Option String}
    {nested : List Token} (h : i ≤ j) :
    (between kind gap (.place source.toList i) (.place source.toList j) value nested).StandsIn
      source := by
  obtain ⟨n, rfl⟩ := Nat.exists_eq_add_of_le h
  refine ⟨String.ofList (source.toList.take i), String.ofList (source.toList.drop (i + n)),
    ?_, ?_, ?_, ?_⟩
  · rw [text_between h, Nat.add_sub_cancel_left, ← String.ofList_append, ← String.ofList_append,
      ← List.take_add, List.take_append_drop, String.ofList_toList]
  · rw [utf8ByteSize_ofList]
    rfl
  · rw [String.toList_ofList]
    rfl
  · rw [String.toList_ofList]
    rfl

/-- A token that reaches from one place to a later one is placed, if the tokens below it lie
strictly in between. -/
theorem placed_between {kind : Kind} {gap : Gap} {value : Option String} {nested : List Token}
    {hi : Nat} (hij : i < j) (hj : j ≤ source.toList.length)
    (hnested : Laid source (byteAt source.toList i + 1) hi nested)
    (hhi : hi < byteAt source.toList j) :
    (between kind gap (.place source.toList i) (.place source.toList j) value nested).Placed
      source := by
  have hle : i ≤ j := Nat.le_of_lt hij
  refine .intro _ ?_ (standsIn_between hle) ?_ hnested.ordered hnested.placed
  · rw [text_between hle]
    intro hempty
    have hsize := congrArg String.length hempty
    simp at hsize
    omega
  · intro n hn
    have hwithin := hnested.within n hn
    have hstop : n.stop < byteAt source.toList j := Nat.lt_of_le_of_lt hwithin.2 hhi
    rw [stop_between hle]
    exact ⟨hwithin.1, hstop⟩

end Token

end ConnectorAudit
