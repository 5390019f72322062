import ConnectorAudit.Proofs.Layout
import ConnectorAudit.Tree.Parse

/-!
# The layout of trees

How a tree lies in the text it was parsed from.  A span *stands* in a source if
it reaches from one character to another and its line and column are those of
the first; a tree is *placed* if its span stands in the source and its children
are placed inside of it, in order.

Trees come about in two ways, from tokens (`Token.Placed.standsIn_span`) and
around the trees below them: `Tree.Fits.through` is the latter, for a row of
trees between the beginning of a span and the end of another.
-/

namespace ConnectorAudit

/-! ## spans -/

namespace Span

/-- The span reaches from the character of index `i` up to that of index `j`, and its line and
column are those of the first. -/
def StandsIn (source : String) (s : Span) : Prop :=
  ∃ i j, i ≤ j ∧ j ≤ source.toList.length ∧
    s.offset = byteAt source.toList i ∧ s.stop = byteAt source.toList j ∧
    s.line = Text.lineBehind (source.toList.take i) ∧
    s.column = Text.columnBehind (source.toList.take i)

theorem offset_le_stop (s : Span) : s.offset ≤ s.stop := Nat.le_add_right _ _

theorem contains_iff {s t : Span} :
    s.contains t = true ↔ s.offset ≤ t.offset ∧ t.stop ≤ s.stop := by
  simp [contains]

@[simp]
theorem offset_through (s t : Span) : (s.through t).offset = s.offset := rfl

theorem stop_through {s t : Span} (h : s.offset ≤ t.stop) : (s.through t).stop = t.stop := by
  change s.offset + (t.stop - s.offset) = t.stop
  omega

/-- From the beginning of one span to the end of another. -/
theorem StandsIn.through {source : String} {s t : Span} (hs : s.StandsIn source)
    (ht : t.StandsIn source) (h : s.offset ≤ t.stop) : (s.through t).StandsIn source := by
  obtain ⟨i, j, hij, hj, hoffset, -, hplace⟩ := hs
  obtain ⟨-, l, -, hl, -, hstop, -⟩ := ht
  have hil : i ≤ l := by
    by_contra hlt
    have hbytes : byteAt source.toList l < byteAt source.toList i := byteAt_lt (by omega) (by omega)
    omega
  exact ⟨i, l, hil, hl, hoffset, (stop_through h).trans hstop, hplace⟩

end Span

/-- A token that stands in the source has a span that does. -/
theorem Token.StandsIn.span {source : String} {t : Token} (h : t.StandsIn source) :
    t.span.StandsIn source := by
  obtain ⟨before, after, hsource, hoffset, hline, hcolumn⟩ := h
  have hchars : source.toList = before.toList ++ (t.text.toList ++ after.toList) := by
    rw [hsource, String.toList_append, String.toList_append, List.append_assoc]
  have hbefore : source.toList.take before.toList.length = before.toList := by
    rw [hchars, List.take_left']
    rfl
  have hthrough : source.toList.take (before.toList.length + t.text.toList.length) =
      before.toList ++ t.text.toList := by
    rw [hchars, ← List.append_assoc, List.take_left']
    rw [List.length_append]
  refine ⟨before.toList.length, before.toList.length + t.text.toList.length,
    Nat.le_add_right _ _, ?_, ?_, ?_, ?_, ?_⟩
  · rw [hchars, List.length_append, List.length_append]
    omega
  · rw [byteAt, hbefore, ← utf8ByteSize_eq]
    exact hoffset
  · rw [byteAt, hthrough, byteSize_append, ← utf8ByteSize_eq, ← utf8ByteSize_eq, ← hoffset]
    rfl
  · rw [hbefore]
    exact hline
  · rw [hbefore]
    exact hcolumn

/-- The span of a token that is placed stands in the source. -/
theorem Token.Placed.standsIn_span {source : String} {t : Token} (h : t.Placed source) :
    t.span.StandsIn source := by
  cases h with
  | intro _ _ stands _ _ _ => exact stands.span

/-- The tokens below a token are laid between its ends. -/
theorem Token.Placed.laid_nested {source : String} {t : Token} (h : t.Placed source) :
    Laid source t.offset t.stop t.nested := by
  cases h with
  | intro _ _ _ inside ordered nested =>
    refine ⟨nested, ordered, fun n hn => ?_⟩
    have hin := inside n hn
    omega

/-! ## trees -/

namespace Tree

/-- The tree stands in the source where it says, and so do the trees below it, at every level, in
order and inside the tree that holds them. -/
inductive Placed (source : String) : Tree → Prop
  | intro (t : Tree) (stands : t.span.StandsIn source)
      (inside : ∀ c ∈ t.children, t.span.contains c.span = true)
      (ordered : t.children.Pairwise fun a b => a.span.offset ≤ b.span.offset)
      (children : ∀ c ∈ t.children, Placed source c) : Placed source t

theorem Placed.standsIn {source : String} {t : Tree} (h : t.Placed source) :
    t.span.StandsIn source := by
  cases h with
  | intro _ stands _ _ _ => exact stands

/-- The trees are placed, one behind the other, between the bytes `lo` and `hi`. -/
abbrev InRow (source : String) (lo hi : Nat) (trees : List Tree) : Prop :=
  Row (Placed source) (fun t => t.span.offset) (fun t => t.span.stop) lo hi trees

/-- The tree is placed between the bytes `lo` and `hi`. -/
structure Fits (source : String) (lo hi : Nat) (t : Tree) : Prop where
  placed : t.Placed source
  le_offset : lo ≤ t.span.offset
  stop_le : t.span.stop ≤ hi

variable {source : String} {lo mid hi : Nat} {t : Tree} {trees : List Tree}

namespace Fits

theorem row (h : t.Fits source lo hi) : InRow source lo hi [t] :=
  .singleton h.placed h.le_offset h.stop_le

theorem mono (h : t.Fits source lo hi) {lo' hi' : Nat} (hlo : lo' ≤ lo) (hhi : hi ≤ hi') :
    t.Fits source lo' hi' :=
  ⟨h.placed, Nat.le_trans hlo h.le_offset, Nat.le_trans h.stop_le hhi⟩

theorem le (h : t.Fits source lo hi) : lo ≤ hi := by
  have hlo := h.le_offset
  have hhi := h.stop_le
  have hle := t.span.offset_le_stop
  omega

end Fits

/-! ## rows of trees -/

namespace InRow

/-- A row can be cut anywhere. -/
theorem split {ts us : List Tree} (h : InRow source lo hi (ts ++ us)) (hle : lo ≤ hi) :
    ∃ mid, lo ≤ mid ∧ mid ≤ hi ∧ InRow source lo mid ts ∧ InRow source mid hi us := by
  obtain ⟨hts, hus, hbetween⟩ := List.pairwise_append.1 h.ordered
  cases us with
  | nil =>
    rw [List.append_nil] at h
    exact ⟨hi, hle, Nat.le_refl hi, h, .nil⟩
  | cons u us =>
    have hu := h.within u (by simp)
    have hspan := u.span.offset_le_stop
    refine ⟨u.span.offset, hu.1, Nat.le_trans hspan hu.2, ⟨?_, hts, ?_⟩, ⟨?_, hus, ?_⟩⟩
    · exact fun t ht => h.placed t (List.mem_append_left _ ht)
    · exact fun t ht => ⟨(h.within t (List.mem_append_left _ ht)).1, hbetween t ht u (by simp)⟩
    · exact fun t ht => h.placed t (List.mem_append_right _ ht)
    · intro t ht
      have hhi := (h.within t (List.mem_append_right _ ht)).2
      cases List.mem_cons.1 ht with
      | inl heq => exact ⟨Nat.le_of_eq (heq ▸ rfl), hhi⟩
      | inr ht =>
        have hlt := (List.pairwise_cons.1 hus).1 t ht
        exact ⟨Nat.le_trans hspan hlt, hhi⟩

/-- A tree stands in a row with those behind it. -/
theorem cons {t : Tree} (ht : t.Fits source lo mid) (h : InRow source mid hi trees)
    (hle : mid ≤ hi) : InRow source lo hi (t :: trees) :=
  ht.row.append h ht.le hle

theorem concat {t : Tree} (h : InRow source lo mid trees) (ht : t.Fits source mid hi)
    (hle : lo ≤ mid) : InRow source lo hi (trees ++ [t]) :=
  h.append ht.row hle ht.le

/-- A row reaches from its first tree through its last. -/
theorem tight {first : Tree} {rest : List Tree} (h : InRow source lo hi (first :: rest)) :
    InRow source first.span.offset ((first :: rest).getLast (by simp)).span.stop
      (first :: rest) := by
  refine ⟨h.placed, h.ordered, fun t ht => ⟨?_, ?_⟩⟩
  · cases List.mem_cons.1 ht with
    | inl heq => exact Nat.le_of_eq (heq ▸ rfl)
    | inr ht =>
      have hlt := (List.pairwise_cons.1 h.ordered).1 t ht
      exact Nat.le_trans first.span.offset_le_stop hlt
  · have hsplit := List.dropLast_append_getLast (show first :: rest ≠ [] by simp)
    generalize (first :: rest).getLast (by simp) = last at hsplit ⊢
    rw [← hsplit] at ht
    have hordered := h.ordered
    rw [← hsplit] at hordered
    cases List.mem_append.1 ht with
    | inl ht =>
      have hlt := (List.pairwise_append.1 hordered).2.2 t ht last (by simp)
      exact Nat.le_trans hlt last.span.offset_le_stop
    | inr ht => exact Nat.le_of_eq (List.mem_singleton.1 ht ▸ rfl)

end InRow

/-- A node around a row of trees. -/
theorem Placed.of_row {kind : Kind} {s : Span} (hs : s.StandsIn source)
    (h : InRow source lo hi trees) (hlo : s.offset ≤ lo) (hhi : hi ≤ s.stop) :
    (⟨kind, s, trees⟩ : Tree).Placed source := by
  refine .intro _ hs (fun c hc => ?_) (h.ordered.imp fun {a b} hab => ?_) h.placed
  · have hin := h.within c hc
    exact Span.contains_iff.2 ⟨Nat.le_trans hlo hin.1, Nat.le_trans hin.2 hhi⟩
  · exact Nat.le_trans a.span.offset_le_stop hab

/-- A leaf fits its own span. -/
theorem Fits.leaf {kind : Kind} {s : Span} (hs : s.StandsIn source) :
    (Tree.leaf kind s).Fits source s.offset s.stop :=
  ⟨.of_row hs .nil (Nat.le_refl _) (Nat.le_refl _), Nat.le_refl _, Nat.le_refl _⟩

/-- A node from the beginning of one span to the end of another, around a row in between. -/
theorem Fits.through {kind : Kind} {s e : Span} (hs : s.StandsIn source) (he : e.StandsIn source)
    (hle : s.offset ≤ e.stop) (h : InRow source s.offset e.stop trees) :
    (⟨kind, s.through e, trees⟩ : Tree).Fits source s.offset e.stop := by
  have hstop := Span.stop_through hle
  refine ⟨.of_row (hs.through he hle) h (Nat.le_refl _) ?_, Nat.le_refl _, ?_⟩
  · exact Nat.le_of_eq hstop.symm
  · exact Nat.le_of_eq hstop

/-- The hash of a run lies where the run does. -/
theorem InRow.ofRun (h : InRow source lo hi trees) : InRow source lo hi (Tree.ofRun trees) := by
  cases trees with
  | nil => exact .nil
  | cons first rest =>
    have hmem : (first :: rest).getLast (by simp) ∈ first :: rest := List.getLast_mem _
    have hrow := h.tight
    have hfirst := h.within first (by simp)
    have hlast := h.within _ hmem
    have hle := (hrow.within first (by simp)).2
    refine (Fits.through (h.placed first (by simp)).standsIn (h.placed _ hmem).standsIn ?_
      hrow).row.mono hfirst.1 hlast.2
    exact Nat.le_trans first.span.offset_le_stop hle

/-- Arguments lie where the entries do that they stand for. -/
theorem InRow.collectArguments {entries : List Entry} {run : List Tree}
    (h : InRow source lo hi (run.reverse ++ entries.map Entry.tree)) (hle : lo ≤ hi) :
    InRow source lo hi (ConnectorAudit.collectArguments run entries) := by
  induction entries generalizing run lo with
  | nil =>
    rw [List.map_nil, List.append_nil] at h
    exact h.ofRun
  | cons e entries ih =>
    cases e with
    | pair tree =>
      refine ih ?_ hle
      rw [List.reverse_cons, List.append_assoc]
      exact h
    | positional tree =>
      obtain ⟨mid, hlo, hhi, hrun, hrest⟩ := InRow.split h hle
      obtain ⟨mid', hlo', hhi', htree, hentries⟩ :=
        InRow.split (show InRow source mid hi ([tree] ++ entries.map Entry.tree) from hrest) hhi
      have hargs : InRow source mid' hi (ConnectorAudit.collectArguments [] entries) :=
        ih hentries hhi'
      exact hrun.ofRun.append (htree.append hargs hlo' hhi') hlo hhi

/-- A key and its value, which may be the same stretch of text. -/
theorem Fits.ofPair {key value : Tree} (hkey : key.Placed source) (hvalue : value.Placed source)
    (horder : key.span.offset ≤ value.span.offset) (hstop : key.span.stop ≤ value.span.stop) :
    (Tree.ofPair key value).Fits source key.span.offset value.span.stop := by
  have hle : key.span.offset ≤ value.span.stop := Nat.le_trans key.span.offset_le_stop hstop
  have hthrough := Span.stop_through hle
  refine ⟨.intro _ (hkey.standsIn.through hvalue.standsIn hle) ?_ ?_ ?_, Nat.le_refl _, ?_⟩
  · intro c hc
    simp only [Tree.ofPair, List.mem_cons, List.not_mem_nil, or_false] at hc
    simp only [Tree.ofPair, Span.contains_iff, Span.offset_through, hthrough]
    obtain rfl | rfl := hc
    · exact ⟨Nat.le_refl _, hstop⟩
    · exact ⟨horder, Nat.le_refl _⟩
  · simpa [Tree.ofPair] using horder
  · intro c hc
    simp only [Tree.ofPair, List.mem_cons, List.not_mem_nil, or_false] at hc
    obtain rfl | rfl := hc
    · exact hkey
    · exact hvalue
  · exact Nat.le_of_eq hthrough

/-- A node with one more child, behind the others. -/
theorem Placed.concat {kind : Kind} {s : Span} {block : Tree} (ht : t.Placed source)
    (hs : s.StandsIn source) (hblock : block.Fits source t.span.stop s.stop)
    (hoffset : s.offset = t.span.offset) :
    (⟨kind, s, t.children ++ [block]⟩ : Tree).Placed source := by
  cases ht with
  | intro _ stands inside ordered children =>
    have hle := t.span.offset_le_stop
    have hlast := hblock.le_offset
    have hstop := hblock.stop_le
    have hspan := block.span.offset_le_stop
    have hin : ∀ c ∈ t.children, t.span.offset ≤ c.span.offset ∧ c.span.stop ≤ t.span.stop :=
      fun c hc => Span.contains_iff.1 (inside c hc)
    refine .intro _ hs (fun c hc => ?_) (List.pairwise_append.2 ⟨ordered, ?_, ?_⟩) ?_
    · change s.contains c.span = true
      rw [Span.contains_iff]
      cases List.mem_append.1 hc with
      | inl hc =>
        have := hin c hc
        omega
      | inr hc =>
        obtain rfl := List.mem_singleton.1 hc
        omega
    · exact List.pairwise_singleton _ _
    · intro c hc d hd
      obtain rfl := List.mem_singleton.1 hd
      have := hin c hc
      have := c.span.offset_le_stop
      omega
    · intro c hc
      cases List.mem_append.1 hc with
      | inl hc => exact children c hc
      | inr hc => exact List.mem_singleton.1 hc ▸ hblock.placed

/-- A block attached to the node before it. -/
theorem Fits.withBlock {params : List String} {body : List Tree} {s e : Span}
    (ht : t.Fits source lo mid) (hs : s.StandsIn source) (he : e.StandsIn source)
    (hmid : mid ≤ s.offset) (hle : s.offset ≤ e.stop) (hbody : InRow source s.offset e.stop body) :
    (Level.withBlock t params body (s.through e) (t.span.through e)).Fits source lo e.stop := by
  have hstop := ht.stop_le
  have hspan := t.span.offset_le_stop
  have hte : t.span.offset ≤ e.stop := by omega
  have hthrough := Span.stop_through hte
  have hstands := ht.placed.standsIn.through he hte
  have hblock : Tree.Fits source s.offset e.stop ⟨.block params, s.through e, body⟩ :=
    .through hs he hle hbody
  -- Whatever the node becomes, it reaches from its beginning to the end of the block.
  have hfits : ∀ {kind : Kind} {children : List Tree},
      (⟨kind, t.span.through e, children⟩ : Tree).Placed source →
        (⟨kind, t.span.through e, children⟩ : Tree).Fits source lo e.stop :=
    fun hplaced => ⟨hplaced, ht.le_offset, Nat.le_of_eq hthrough⟩
  unfold Level.withBlock
  split
  · refine hfits (.of_row hstands hbody ?_ (Nat.le_of_eq hthrough.symm))
    exact Nat.le_trans hspan (Nat.le_trans hstop hmid)
  · simp only
    split
    · refine hfits (ht.placed.concat hstands (hblock.mono ?_ (Nat.le_of_eq hthrough.symm)) rfl)
      exact Nat.le_trans hstop hmid
    · refine hfits (.of_row hstands hblock.row ?_ (Nat.le_of_eq hthrough.symm))
      exact Nat.le_trans hspan (Nat.le_trans hstop hmid)
    · have hnode : t.Fits source t.span.offset s.offset :=
        ⟨ht.placed, Nat.le_refl _, Nat.le_trans hstop hmid⟩
      refine hfits (.of_row hstands (.cons hnode hblock.row hle) (Nat.le_refl _) ?_)
      exact Nat.le_of_eq hthrough.symm

/-- A program reaches from its first statement through its last; without any it is empty, and
stands at the beginning of the source. -/
theorem InRow.ofStatements (h : InRow source lo hi trees) :
    (Tree.ofStatements trees).Placed source := by
  unfold Tree.ofStatements
  split
  · have hstart : ({ line := 1 } : Span).StandsIn source :=
      ⟨0, 0, Nat.le_refl 0, Nat.zero_le _, rfl, rfl, rfl, rfl⟩
    exact .of_row hstart .nil (Nat.le_refl 0) (Nat.le_refl 0)
  · next first rest =>
    have hmem : (first :: rest).getLast (by simp) ∈ first :: rest := List.getLast_mem _
    have hle := (h.tight.within first (by simp)).2
    exact (Fits.through (h.placed first (by simp)).standsIn (h.placed _ hmem).standsIn
      (Nat.le_trans first.span.offset_le_stop hle) h.tight).placed

end Tree

end ConnectorAudit
