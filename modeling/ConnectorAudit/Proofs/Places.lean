import Mathlib.Data.List.Basic
import ConnectorAudit.Text.Cursor

/-!
# Places in a text

`Cursor.place cs i` is the place behind the first `i` characters of `cs`; its
byte offset, line and column are worked out from those characters alone.  A
cursor that keeps count of them one character at a time stays such a place, and so
does one that is counted from the text between:

* `Cursor.next?_place`, `Cursor.advance_place`: moving on adds to the index;
* `Cursor.locate_place`: a place further on is where it is counted to be;
* `Cursor.textTo_place`: the text between two places is the characters between;
* `Cursor.at?_place`: a place is found again by its byte offset.
-/

namespace ConnectorAudit

/-! ## bytes -/

@[simp]
theorem byteSize_append (xs ys : List Char) : byteSize (xs ++ ys) = byteSize xs + byteSize ys := by
  induction xs with
  | nil => simp [byteSize]
  | cons c xs ih => simp [byteSize, ih, Nat.add_assoc]

/-- A text has as many bytes from behind. -/
theorem byteSize_reverse (cs : List Char) : byteSize cs.reverse = byteSize cs := by
  induction cs with
  | nil => rfl
  | cons c cs ih => simp [byteSize, ih, Nat.add_comm]

theorem byteSize_eq_zero_iff {cs : List Char} : byteSize cs = 0 ↔ cs = [] := by
  cases cs with
  | nil => simp [byteSize]
  | cons c cs =>
    have hpos := c.utf8Size_pos
    simp only [byteSize, reduceCtorEq, iff_false]
    omega

/-- The bytes of a text are those of its characters. -/
theorem utf8ByteSize_ofList (cs : List Char) : (String.ofList cs).utf8ByteSize = byteSize cs := by
  induction cs with
  | nil => rfl
  | cons c cs ih =>
    rw [String.ofList_cons, String.utf8ByteSize_append, String.utf8ByteSize_singleton, ih,
      byteSize]

theorem utf8ByteSize_eq (s : String) : s.utf8ByteSize = byteSize s.toList := by
  rw [← utf8ByteSize_ofList, String.ofList_toList]

/-- As many bytes as the first of two texts has are filled by just that text. -/
theorem takeBytes_append (xs ys : List Char) : takeBytes (byteSize xs) (xs ++ ys) = xs := by
  induction xs with
  | nil => cases ys <;> simp [byteSize, takeBytes]
  | cons c xs ih =>
    have hpos : c.utf8Size ≠ 0 := Nat.ne_of_gt c.utf8Size_pos
    simp [byteSize, takeBytes, hpos, ih]

/-- The byte offset of the character of index `i`. -/
def byteAt (cs : List Char) (i : Nat) : Nat := byteSize (cs.take i)

theorem byteAt_length (cs : List Char) : byteAt cs cs.length = byteSize cs := by
  rw [byteAt, List.take_length]

/-- A stretch of characters fills the bytes between the offsets of its ends. -/
theorem byteAt_add (cs : List Char) (i n : Nat) :
    byteAt cs (i + n) = byteAt cs i + byteSize ((cs.drop i).take n) := by
  rw [byteAt, byteAt, List.take_add, byteSize_append]

/-- A character takes up its own bytes. -/
theorem byteAt_succ {cs : List Char} {i : Nat} {c : Char} (h : cs[i]? = some c) :
    byteAt cs (i + 1) = byteAt cs i + c.utf8Size := by
  obtain ⟨hi, rfl⟩ := List.getElem?_eq_some_iff.1 h
  rw [byteAt, List.take_succ_eq_append_getElem hi, byteSize_append]
  simp [byteSize, byteAt]

/-- Bytes go up with the places. -/
theorem byteAt_le {cs : List Char} {i j : Nat} (h : i ≤ j) : byteAt cs i ≤ byteAt cs j := by
  obtain ⟨n, rfl⟩ := Nat.exists_eq_add_of_le h
  rw [byteAt_add]
  exact Nat.le_add_right _ _

/-- Bytes strictly go up with the places, as long as there are characters. -/
theorem byteAt_lt {cs : List Char} {i j : Nat} (h : i < j) (hj : j ≤ cs.length) :
    byteAt cs i < byteAt cs j := by
  have hi : i < cs.length := by omega
  have hsucc := byteAt_succ (List.getElem?_eq_getElem hi)
  have hpos := (cs[i]).utf8Size_pos
  have hle : byteAt cs (i + 1) ≤ byteAt cs j := byteAt_le h
  omega

/-! ## lines and columns -/

namespace Text

/-- The line of the place behind some characters, from one. -/
def lineBehind (before : List Char) : Nat := 1 + before.count '\n'

/-- The characters between the place behind some characters and the last line feed among
them. -/
def columnBehind (before : List Char) : Nat := (before.reverse.takeWhile (· != '\n')).length

/-- The bytes up to the last line feed among some characters, which is where the line of the
place behind them begins. -/
def lineStartBehind (before : List Char) : Nat :=
  byteSize (before.reverse.dropWhile (· != '\n'))

/-- A line begins as many bytes before a place as the characters between fill. -/
theorem lineStartBehind_add (before : List Char) :
    lineStartBehind before + byteSize (before.reverse.takeWhile (· != '\n')) =
      byteSize before := by
  rw [lineStartBehind, Nat.add_comm, ← byteSize_append, List.takeWhile_append_dropWhile,
    byteSize_reverse]

/-- A line starts behind a line feed, and is the same line behind anything else. -/
theorem lineStartBehind_concat (before : List Char) (c : Char) :
    lineStartBehind (before ++ [c]) =
      if c = '\n' then byteSize before + c.utf8Size else lineStartBehind before := by
  unfold lineStartBehind
  rw [List.reverse_append, List.reverse_singleton, List.singleton_append, List.dropWhile_cons]
  by_cases hc : c = '\n'
  · simp [hc, byteSize, byteSize_reverse, Nat.add_comm]
  · simp [hc]

/-- The lines of what is added are counted on top of those before. -/
theorem lineBehind_append (before cs : List Char) :
    lineBehind (before ++ cs) = lineBehind before + cs.count '\n' := by
  rw [lineBehind, lineBehind, List.count_append, Nat.add_assoc]

/-- A line feed leads to the next line. -/
theorem lineBehind_concat (before : List Char) (c : Char) :
    lineBehind (before ++ [c]) = if c = '\n' then lineBehind before + 1 else lineBehind before := by
  rw [lineBehind_append, List.count_singleton]
  split <;> simp_all

/-- A line feed leads to the first column, anything else to the next one. -/
theorem columnBehind_concat (before : List Char) (c : Char) :
    columnBehind (before ++ [c]) = if c = '\n' then 0 else columnBehind before + 1 := by
  unfold columnBehind
  rw [List.reverse_append, List.reverse_singleton, List.singleton_append, List.takeWhile_cons]
  by_cases hc : c = '\n' <;> simp [hc]

/-- A place is the first of its line if it is the first of the text or behind a line feed. -/
theorem columnBehind_eq_zero_iff {before : List Char} :
    columnBehind before = 0 ↔ before = [] ∨ before.getLast? = some '\n' := by
  cases List.eq_nil_or_concat before with
  | inl hnil => simp [hnil, columnBehind]
  | inr hconcat =>
    obtain ⟨first, c, rfl⟩ := hconcat
    rw [List.concat_eq_append, columnBehind_concat]
    by_cases hc : c = '\n' <;> simp [hc]

end Text

/-! ## places -/

namespace Cursor

/-- The place behind the first `i` characters of a text. -/
def place (cs : List Char) (i : Nat) : Cursor where
  feed := .ofList (cs.drop i)
  before := (cs.take i).reverse
  offset := byteAt cs i
  line := Text.lineBehind (cs.take i)
  lineStart := Text.lineStartBehind (cs.take i)
  column := Text.columnBehind (cs.take i)

@[simp]
theorem rest_place (cs : List Char) (i : Nat) : (place cs i).rest = cs.drop i := rfl

@[simp]
theorem offset_place (cs : List Char) (i : Nat) : (place cs i).offset = byteAt cs i := rfl

@[simp]
theorem left_place (cs : List Char) (i : Nat) : (place cs i).left = cs.length - i := by
  rw [left_eq_length, rest_place, List.length_drop]

theorem ofSource_eq_place (source : String) : ofSource source = place source.toList 0 := rfl

/-- All places beyond the end of a text are its end. -/
theorem place_min (cs : List Char) (i : Nat) : place cs (min i cs.length) = place cs i := by
  by_cases h : i ≤ cs.length
  · rw [Nat.min_eq_left h]
  · have hle : cs.length ≤ i := Nat.le_of_not_le h
    rw [Nat.min_eq_right hle]
    simp [place, byteAt, List.take_of_length_le hle, List.drop_of_length_le hle]

/-- Passing a character leads to the next place. -/
theorem past_place {cs : List Char} {i : Nat} {c : Char} (h : cs[i]? = some c) :
    (place cs i).past c (.ofList (cs.drop (i + 1))) = place cs (i + 1) := by
  obtain ⟨hi, hc⟩ := List.getElem?_eq_some_iff.1 h
  have htake : cs.take (i + 1) = cs.take i ++ [c] := by
    rw [List.take_succ_eq_append_getElem hi, hc]
  unfold past place
  rw [byteAt_succ h, htake, Text.lineBehind_concat, Text.lineStartBehind_concat,
    Text.columnBehind_concat, List.reverse_concat]
  split <;> rfl

/-- Reading a character goes on to the next place. -/
theorem next?_place {cs : List Char} {i : Nat} {c : Char} (h : cs[i]? = some c) :
    (place cs i).next? = some (c, place cs (i + 1)) := by
  obtain ⟨hi, hc⟩ := List.getElem?_eq_some_iff.1 h
  have hfeed : (place cs i).feed.next? = some (c, .ofList (cs.drop (i + 1))) := by
    rw [Feed.next?_eq_some_iff]
    change cs.drop i = c :: cs.drop (i + 1)
    rw [List.drop_eq_getElem_cons hi, hc]
  unfold next?
  rw [hfeed]
  simp only [past_place h]

/-- The next character of a place is that of the source. -/
theorem next?_place_eq_some {cs : List Char} {i : Nat} {c : Char} {k : Cursor}
    (h : (place cs i).next? = some (c, k)) : cs[i]? = some c ∧ k = place cs (i + 1) := by
  have hrest := (next?_eq_some h).1
  rw [rest_place] at hrest
  have hc : cs[i]? = some c := by
    rw [← List.head?_drop, hrest, List.head?_cons]
  rw [next?_place hc] at h
  simp only [Option.some.injEq, Prod.mk.injEq, true_and] at h
  exact ⟨hc, h.symm⟩

/-- There is no next character at the end. -/
theorem next?_place_eq_none {cs : List Char} {i : Nat} (h : cs.length ≤ i) :
    (place cs i).next? = none := by
  rw [next?_eq_none_iff, rest_place, List.drop_of_length_le h]

/-- Advancing goes on by as many places, and not beyond the end. -/
theorem advance_place (cs : List Char) (i n : Nat) :
    (place cs i).advance n = place cs (i + n) := by
  induction n generalizing i with
  | zero => rfl
  | succ n ih =>
    unfold advance
    by_cases hi : i < cs.length
    · rw [next?_place (List.getElem?_eq_getElem hi)]
      simp only
      rw [ih, Nat.add_right_comm, Nat.add_assoc]
    · have hle : cs.length ≤ i := Nat.le_of_not_lt hi
      rw [next?_place_eq_none hle]
      simp only
      rw [← place_min cs i, ← place_min cs (i + (n + 1)), Nat.min_eq_right hle,
        Nat.min_eq_right (by omega)]

/-- The text between two places is made of the characters between them. -/
theorem textTo_place {cs : List Char} {i j : Nat} (h : i ≤ j) :
    (place cs i).textTo (place cs j) = String.ofList ((cs.drop i).take (j - i)) := by
  obtain ⟨n, rfl⟩ := Nat.exists_eq_add_of_le h
  have hsplit : cs.drop i = (cs.drop i).take n ++ (cs.drop i).drop n :=
    (List.take_append_drop n _).symm
  unfold textTo
  rw [offset_place, offset_place, rest_place, byteAt_add, Nat.add_sub_cancel_left,
    Nat.add_sub_cancel_left]
  nth_rewrite 2 [hsplit]
  rw [takeBytes_append]

/-- A line begins where there is nothing before the place on it. -/
theorem atLineStart_place {cs : List Char} {i : Nat} :
    (place cs i).atLineStart = true ↔ (place cs i).column = 0 := by
  have hstart := Text.lineStartBehind_add (cs.take i)
  rw [atLineStart, beq_iff_eq]
  change byteSize (cs.take i) = Text.lineStartBehind (cs.take i) ↔
    ((cs.take i).reverse.takeWhile (· != '\n')).length = 0
  rw [List.length_eq_zero_iff, ← byteSize_eq_zero_iff]
  omega

/-- A place is at the start of a line if it is the first, or if it is behind a line feed. -/
theorem atLineStart_place_iff {cs : List Char} {i : Nat} :
    (place cs i).atLineStart = true ↔ cs.take i = [] ∨ (cs.take i).getLast? = some '\n' :=
  atLineStart_place.trans Text.columnBehind_eq_zero_iff

/-- A place is where it is counted to be from any place before it. -/
theorem locate_place_of_le {cs : List Char} {i j : Nat} (h : i ≤ j) :
    (place cs i).locate (place cs j) = place cs j := by
  have hlines : Text.lineBehind (cs.take i) + ((cs.drop i).take (j - i)).count '\n' =
      Text.lineBehind (cs.take j) := by
    obtain ⟨n, rfl⟩ := Nat.exists_eq_add_of_le h
    rw [Nat.add_sub_cancel_left, List.take_add, Text.lineBehind_append]
  have hstart := Text.lineStartBehind_add (cs.take j)
  have hahead : (place cs j).left ≤ (place cs i).left := by
    rw [left_place, left_place]
    omega
  unfold locate
  rw [if_pos hahead, textTo_place h, String.toList_ofList]
  ext1
  · rfl
  · rfl
  · rfl
  · exact hlines
  · change byteAt cs j - byteSize ((cs.take j).reverse.takeWhile (· != '\n')) =
      Text.lineStartBehind (cs.take j)
    rw [byteAt]
    omega
  · rfl

/-- Looking a place up from another gives the place. -/
theorem locate_place (cs : List Char) (i j : Nat) :
    (place cs i).locate (place cs j) = place cs j := by
  rw [← place_min cs i, ← place_min cs j]
  by_cases h : min i cs.length ≤ min j cs.length
  · exact locate_place_of_le h
  · rw [locate, left_place, left_place, if_neg (by omega)]

/-- A place is found again, from any place before it, by its byte offset. -/
theorem seek_place {cs : List Char} {i j : Nat} (h : i ≤ j) (hj : j ≤ cs.length) :
    (place cs i).seek (byteAt cs j) = some (place cs j) := by
  induction hn : j - i generalizing i with
  | zero =>
    obtain rfl : i = j := by omega
    unfold seek
    simp
  | succ n ih =>
    have hlt : byteAt cs i < byteAt cs j := byteAt_lt (by omega) hj
    have hi : i < cs.length := by omega
    unfold seek
    rw [offset_place, if_neg (by omega), if_neg (by omega)]
    split
    · next hnone =>
      rw [next?_place (List.getElem?_eq_getElem hi)] at hnone
      cases hnone
    · next d k hsome =>
      obtain ⟨-, rfl⟩ := next?_place_eq_some hsome
      exact ih (by omega) (by omega)

/-- The cursor at the byte of a place is the place. -/
theorem at?_place {source : String} {i : Nat} (h : i ≤ source.toList.length) :
    at? source (byteAt source.toList i) = some (place source.toList i) := by
  rw [at?, ofSource_eq_place, seek_place (Nat.zero_le i) h, Option.map_some,
    locate_place]

end Cursor

end ConnectorAudit
