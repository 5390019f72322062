import Mathlib.Data.List.Forall2
import Mathlib.Data.List.Induction
import Mathlib.Data.Nat.Find
import ConnectorAudit.Proofs.MethodIssues
import ConnectorAudit.Proofs.Outlines

/-!
# The parts of a section

No name that a section declares is lost, whatever is declared under it.  The pairs
of a section are told by their numbers: one that repeats the literal key of an
earlier pair gives a warning, and every other one a part of the outline, which is
where the last pair with its key has its value.

* `SectionEntries.Reads.put`, `SectionEntries.reads_putAll`: what the entries of a section stand for
  and where its keys have their places, after one more pair and after all;
* `Section.forall₂_warnsOf`: which keys are reported;
* `Section.parts_and_duplicates`: the parts of a section and the warnings about it.
-/

namespace ConnectorAudit

theorem map_eq_map_of_forall₂ {α β γ : Type} {R : α → β → Prop} {f : α → γ} {g : β → γ}
    {as : List α} {bs : List β} (h : List.Forall₂ R as bs) (hR : ∀ {a b}, R a b → g b = f a) :
    bs.map g = as.map f := by
  induction h with
  | nil => rfl
  | cons hab _ ih => rw [List.map_cons, List.map_cons, hR hab, ih]

/-! ## pairs by their numbers -/

namespace Pairs

variable {pairs : List (Tree × Tree)} {pair : Tree × Tree} {i last : Nat} {name : String}

/-- The literal key of a pair. -/
def keyAt (pairs : List (Tree × Tree)) (i : Nat) : Option String :=
  pairs[i]?.bind (·.1.literalName?)

/-- The pair has a literal key that an earlier pair has too. -/
def Repeats (pairs : List (Tree × Tree)) (i : Nat) : Prop :=
  (keyAt pairs i).isSome ∧ ∃ j < i, keyAt pairs j = keyAt pairs i

instance : DecidablePred (Repeats pairs) := fun i =>
  inferInstanceAs (Decidable ((keyAt pairs i).isSome ∧ ∃ j < i, keyAt pairs j = keyAt pairs i))

/-- The last pair with the literal key of a pair; one with a computed key has no other. -/
def IsLast (pairs : List (Tree × Tree)) (i last : Nat) : Prop :=
  match keyAt pairs i with
  | none => last = i
  | some name => keyAt pairs last = some name ∧ ∀ j, last < j → keyAt pairs j ≠ some name

/-- The pairs that repeat no key, in order. -/
def firsts (pairs : List (Tree × Tree)) : List Nat :=
  (List.range pairs.length).filter fun i => ¬ Repeats pairs i

/-- The pairs that repeat a key, in order. -/
def repeats (pairs : List (Tree × Tree)) : List Nat :=
  (List.range pairs.length).filter fun i => Repeats pairs i

/-- The last pair of a name is the one that no pair of that name follows. -/
theorem isLast_iff_of_some (h : keyAt pairs i = some name) :
    IsLast pairs i last ↔
      keyAt pairs last = some name ∧ ∀ j, last < j → keyAt pairs j ≠ some name := by
  simp only [IsLast, h]

/-- A pair without a name is its own last. -/
theorem isLast_iff_of_none (h : keyAt pairs i = none) : IsLast pairs i last ↔ last = i := by
  simp only [IsLast, h]

/-- A pair has the name of its key. -/
theorem keyAt_eq_some_iff :
    keyAt pairs i = some name ↔ ∃ pair, pairs[i]? = some pair ∧ pair.1.literalName? = some name :=
  Option.bind_eq_some_iff

theorem lt_length_of_keyAt (h : keyAt pairs i = some name) : i < pairs.length := by
  obtain ⟨pair, hpair, -⟩ := keyAt_eq_some_iff.1 h
  exact (List.getElem?_eq_some_iff.1 hpair).1

/-! ### one more pair -/

/-- A pair more leaves the names of those before it. -/
theorem keyAt_concat_of_lt (h : i < pairs.length) :
    keyAt (pairs ++ [pair]) i = keyAt pairs i := by
  rw [keyAt, keyAt, List.getElem?_append_left h]

theorem keyAt_concat_length : keyAt (pairs ++ [pair]) pairs.length = pair.1.literalName? := by
  simp [keyAt]

theorem lt_of_keyAt_concat (h : keyAt (pairs ++ [pair]) i = some name) :
    i < pairs.length ∨ i = pairs.length := by
  have hlt := lt_length_of_keyAt h
  rw [List.length_append, List.length_singleton] at hlt
  omega

theorem repeats_concat_iff_of_lt (h : i < pairs.length) :
    Repeats (pairs ++ [pair]) i ↔ Repeats pairs i := by
  simp only [Repeats, keyAt_concat_of_lt h]
  refine and_congr_right fun _ => exists_congr fun j => and_congr_right fun hj => ?_
  rw [keyAt_concat_of_lt (Nat.lt_trans hj h)]

/-- A pair more repeats a name if one before it has that name. -/
theorem repeats_concat_length_iff :
    Repeats (pairs ++ [pair]) pairs.length ↔
      ∃ name, pair.1.literalName? = some name ∧ ∃ j, keyAt pairs j = some name := by
  rw [Repeats, keyAt_concat_length, Option.isSome_iff_exists]
  constructor
  · rintro ⟨⟨name, hname⟩, j, hj, hkey⟩
    exact ⟨name, hname, j, by rw [← keyAt_concat_of_lt hj, hkey, hname]⟩
  · rintro ⟨name, hname, j, hj⟩
    have hlt := lt_length_of_keyAt hj
    exact ⟨⟨name, hname⟩, j, hlt, by rw [keyAt_concat_of_lt hlt, hj, hname]⟩

/-- What one more pair adds to the pairs of a kind. -/
theorem filter_range_concat {p q : Nat → Prop} [DecidablePred p] [DecidablePred q]
    (h : ∀ i < pairs.length, (p i ↔ q i)) :
    (List.range (pairs ++ [pair]).length).filter (fun i => p i) =
      (List.range pairs.length).filter (fun i => q i) ++
        if p pairs.length then [pairs.length] else [] := by
  have hold : (List.range pairs.length).filter (fun i => p i) =
      (List.range pairs.length).filter (fun i => q i) :=
    List.filter_congr fun i hi => decide_eq_decide.2 (h i (List.mem_range.1 hi))
  rw [List.length_append, List.length_singleton, List.range_succ, List.filter_append, hold,
    List.filter_singleton]
  simp

/-- A pair more is a first one unless it repeats a name. -/
theorem firsts_concat :
    firsts (pairs ++ [pair]) =
      firsts pairs ++ if Repeats (pairs ++ [pair]) pairs.length then [] else [pairs.length] := by
  rw [firsts, filter_range_concat fun _ hi => not_congr (repeats_concat_iff_of_lt hi), ite_not]
  rfl

/-- A pair more is a repetition if it repeats a name. -/
theorem repeats_concat :
    repeats (pairs ++ [pair]) =
      repeats pairs ++ if Repeats (pairs ++ [pair]) pairs.length then [pairs.length] else [] :=
  filter_range_concat fun _ hi => repeats_concat_iff_of_lt hi

/-- The first pair with a key repeats none. -/
theorem mem_map_firsts_iff :
    some name ∈ (firsts pairs).map (keyAt pairs) ↔ ∃ j, keyAt pairs j = some name := by
  rw [List.mem_map]
  constructor
  · rintro ⟨i, -, hi⟩
    exact ⟨i, hi⟩
  · -- Of the pairs with the key, the one with the least number.
    intro h
    refine ⟨Nat.find h, ?_, Nat.find_spec h⟩
    refine List.mem_filter.2 ⟨List.mem_range.2 (lt_length_of_keyAt (Nat.find_spec h)), ?_⟩
    simp only [decide_eq_true_eq]
    rintro ⟨-, j, hj, hkey⟩
    exact Nat.find_min h hj (hkey.trans (Nat.find_spec h))

end Pairs

/-! ## entries -/

namespace SectionEntry

open Pairs

variable {pairs : List (Tree × Tree)} {pair : Tree × Tree} {i : Nat} {e : SectionEntry}

/-- The entry has the key of a pair for its name and the value of the last pair with that key. -/
structure StandsFor (pairs : List (Tree × Tree)) (i : Nat) (e : SectionEntry) : Prop where
  lt_length : i < pairs.length
  name_eq : e.name = (keyAt pairs i).getD dynamicName
  body_eq : ∃ last key, IsLast pairs i last ∧ pairs[last]? = some (key, e.body)

/-- A pair with another key changes nothing. -/
theorem StandsFor.concat (h : StandsFor pairs i e)
    (hne : ∀ name, pair.1.literalName? = some name → keyAt pairs i ≠ some name) :
    StandsFor (pairs ++ [pair]) i e := by
  obtain ⟨hi, hkey, last, key, hlast, hbody⟩ := h
  have hlt : last < pairs.length := (List.getElem?_eq_some_iff.1 hbody).1
  have hkey' : keyAt (pairs ++ [pair]) i = keyAt pairs i := keyAt_concat_of_lt hi
  refine ⟨by simp; omega, hkey'.symm ▸ hkey, last, key, ?_,
    (List.getElem?_append_left hlt).trans hbody⟩
  cases hname : keyAt pairs i with
  | none =>
    rw [isLast_iff_of_none hname] at hlast
    exact (isLast_iff_of_none (hkey'.trans hname)).2 hlast
  | some name =>
    rw [isLast_iff_of_some hname] at hlast
    refine (isLast_iff_of_some (hkey'.trans hname)).2
      ⟨(keyAt_concat_of_lt hlt).trans hlast.1, fun j hj heq => ?_⟩
    rcases lt_of_keyAt_concat heq with hlt' | rfl
    · exact hlast.2 j hj ((keyAt_concat_of_lt hlt').symm.trans heq)
    · exact hne name (keyAt_concat_length.symm.trans heq) hname

/-- A pair with the same key brings its value. -/
theorem StandsFor.concat_same {name : String} (h : StandsFor pairs i e)
    (hpair : pair.1.literalName? = some name) (hname : keyAt pairs i = some name) :
    StandsFor (pairs ++ [pair]) i { e with body := pair.2 } := by
  have hkey : keyAt (pairs ++ [pair]) i = keyAt pairs i := keyAt_concat_of_lt h.lt_length
  have hlt := h.lt_length
  refine ⟨by simp; omega, hkey.symm ▸ h.name_eq, pairs.length, pair.1, ?_, by simp⟩
  refine (isLast_iff_of_some (hkey.trans hname)).2
    ⟨keyAt_concat_length.trans hpair, fun j hj heq => ?_⟩
  have := lt_of_keyAt_concat heq
  omega

/-- A pair that repeats no key stands for itself. -/
theorem standsFor_length :
    StandsFor (pairs ++ [pair]) pairs.length
      ⟨pair.1.literalName?.getD dynamicName, pair.2⟩ := by
  refine ⟨by simp, congrArg (·.getD dynamicName) keyAt_concat_length.symm, pairs.length, pair.1,
    ?_, by simp⟩
  cases hname : pair.1.literalName? with
  | none => exact (isLast_iff_of_none (keyAt_concat_length.trans hname)).2 rfl
  | some name =>
    have hlast : keyAt (pairs ++ [pair]) pairs.length = some name :=
      keyAt_concat_length.trans hname
    refine (isLast_iff_of_some hlast).2 ⟨hlast, fun j hj heq => ?_⟩
    have := lt_of_keyAt_concat heq
    omega

end SectionEntry

namespace SectionEntries

open Pairs SectionEntry

variable {pairs : List (Tree × Tree)} {pair : Tree × Tree} {es : SectionEntries} {name : String}
  {k : Nat}

/-- The entries are those of the pairs, one for each that repeats no key, and the places are those
of the fixed keys among them. -/
structure Reads (pairs : List (Tree × Tree)) (es : SectionEntries) : Prop where
  entries : List.Forall₂ (StandsFor pairs) (firsts pairs) es.entries.toList
  places : ∀ name k,
    es.places.get? name = some k ↔ (firsts pairs)[k]?.bind (keyAt pairs) = some name

namespace Reads

/-- A key has a place if an earlier pair has it. -/
theorem isSome_places_iff (h : Reads pairs es) :
    (es.places.get? name).isSome ↔ ∃ j, keyAt pairs j = some name := by
  rw [← mem_map_firsts_iff, List.mem_iff_getElem?, Option.isSome_iff_exists]
  refine exists_congr fun k => ?_
  rw [h.places, List.getElem?_map, Option.map_eq_some_iff, Option.bind_eq_some_iff]

/-- A name was read before if one of the pairs has it. -/
theorem repeated?_eq_some_iff (h : Reads pairs es) :
    es.repeated? pair.1 = some name ↔
      pair.1.literalName? = some name ∧ ∃ j, keyAt pairs j = some name := by
  rw [repeated?, Option.filter_eq_some_iff, h.isSome_places_iff]

/-- The keys of the earlier pairs are what they were. -/
theorem bind_keyAt_concat {k : Nat} :
    (firsts pairs)[k]?.bind (keyAt (pairs ++ [pair])) = (firsts pairs)[k]?.bind (keyAt pairs) := by
  cases hk : (firsts pairs)[k]? with
  | none => rfl
  | some i =>
    have hi := List.mem_filter.1 (List.mem_of_getElem? hk)
    exact keyAt_concat_of_lt (List.mem_range.1 hi.1)

/-- A pair that repeats no key brings an entry of its own, behind all. -/
theorem entries_concat (h : Reads pairs es)
    (hnew : ∀ name, pair.1.literalName? = some name → ¬∃ j, keyAt pairs j = some name) :
    firsts (pairs ++ [pair]) = firsts pairs ++ [pairs.length] ∧
      List.Forall₂ (StandsFor (pairs ++ [pair])) (firsts (pairs ++ [pair]))
        (es.entries.push ⟨pair.1.literalName?.getD dynamicName, pair.2⟩).toList := by
  have hrepeats : ¬Repeats (pairs ++ [pair]) pairs.length := fun hrepeats => by
    obtain ⟨name, hname, hj⟩ := repeats_concat_length_iff.1 hrepeats
    exact hnew name hname hj
  have hfirsts : firsts (pairs ++ [pair]) = firsts pairs ++ [pairs.length] := by
    rw [firsts_concat, if_neg hrepeats]
  refine ⟨hfirsts, ?_⟩
  rw [hfirsts, Array.toList_push]
  refine List.rel_append (h.entries.imp fun i e he => ?_) (.cons standsFor_length .nil)
  exact he.concat fun name hname hkey => hnew name hname ⟨i, hkey⟩

/-- A pair with a computed key. -/
theorem put_computed (h : Reads pairs es) (hkey : pair.1.literalName? = none) :
    Reads (pairs ++ [pair]) (es.put pair.1 pair.2) := by
  have hnew : ∀ name, pair.1.literalName? = some name → ¬∃ j, keyAt pairs j = some name := by
    simp [hkey]
  obtain ⟨hfirsts, hentries⟩ := h.entries_concat hnew
  rw [put_of_computed hkey]
  refine ⟨by simpa [hkey] using hentries, fun name k => ?_⟩
  rw [h.places, hfirsts]
  rcases Nat.lt_trichotomy k (firsts pairs).length with hk | rfl | hk
  · rw [List.getElem?_append_left hk, bind_keyAt_concat]
  · simp [keyAt_concat_length, hkey]
  · rw [List.getElem?_eq_none (Nat.le_of_lt hk), List.getElem?_eq_none (by simp; omega)]
    rfl

/-- A pair with a new key. -/
theorem put_new (h : Reads pairs es) (hkey : pair.1.literalName? = some name)
    (hplace : es.places.get? name = none) : Reads (pairs ++ [pair]) (es.put pair.1 pair.2) := by
  have hnone : ¬∃ j, keyAt pairs j = some name := by
    rw [← h.isSome_places_iff, hplace]
    exact Bool.false_ne_true
  obtain ⟨hfirsts, hentries⟩ := h.entries_concat fun other hother => by
    rwa [← Option.some.inj (hkey.symm.trans hother)]
  have hsize : es.entries.size = (firsts pairs).length := h.entries.length_eq.symm
  rw [put_of_new hkey hplace]
  refine ⟨by simpa [hkey] using hentries, fun other k => ?_⟩
  rw [Table.get?_insert, hfirsts, hsize]
  rcases Nat.lt_trichotomy k (firsts pairs).length with hk | rfl | hk
  · rw [List.getElem?_append_left hk, bind_keyAt_concat, ← h.places]
    split
    · next heq => simp [heq, hplace, Nat.ne_of_gt hk]
    · rfl
  · have hlast := h.places other (firsts pairs).length
    rw [List.getElem?_eq_none (Nat.le_refl _)] at hlast
    split
    · next heq => simp [keyAt_concat_length, hkey, heq]
    · next hne =>
      rw [hlast]
      simp [keyAt_concat_length, hkey, Ne.symm hne]
  · have hbeyond := h.places other k
    rw [List.getElem?_eq_none (Nat.le_of_lt hk)] at hbeyond
    rw [List.getElem?_eq_none (by simp; omega)]
    split
    · simp [Nat.ne_of_lt hk]
    · exact hbeyond

/-- A pair with a key that has a place: the entry there gets the value, and the others stay. -/
theorem put_place (h : Reads pairs es) (hkey : pair.1.literalName? = some name)
    (hplace : es.places.get? name = some k) : Reads (pairs ++ [pair]) (es.put pair.1 pair.2) := by
  have hrepeats : Repeats (pairs ++ [pair]) pairs.length :=
    repeats_concat_length_iff.2 ⟨name, hkey, h.isSome_places_iff.1 (hplace ▸ rfl)⟩
  have hfirsts : firsts (pairs ++ [pair]) = firsts pairs := by
    rw [firsts_concat, if_pos hrepeats, List.append_nil]
  obtain ⟨hlength, hall⟩ := List.forall₂_iff_get.1 h.entries
  rw [put_of_place hkey hplace]
  refine ⟨?_, fun other j => ?_⟩
  · rw [hfirsts, Array.toList_modify]
    refine List.forall₂_iff_get.2 ⟨by rw [List.length_modify, hlength], fun j hj hj' => ?_⟩
    have hold := hall j hj (hlength ▸ hj)
    have hplace' := h.places name j
    rw [List.getElem?_eq_getElem hj, Option.bind_some] at hplace'
    simp only [List.get_eq_getElem, List.getElem_modify] at hold ⊢
    split
    · next heq => exact hold.concat_same hkey (hplace'.1 (heq ▸ hplace))
    · next hne =>
      refine hold.concat fun other hother hj => hne ?_
      rw [← Option.some.inj (hkey.symm.trans hother)] at hj
      exact Option.some.inj (hplace.symm.trans (hplace'.2 hj))
  · rw [h.places, hfirsts, bind_keyAt_concat]

/-- One more pair. -/
theorem put (h : Reads pairs es) : Reads (pairs ++ [pair]) (es.put pair.1 pair.2) := by
  cases hkey : pair.1.literalName? with
  | none => exact h.put_computed hkey
  | some name =>
    cases hplace : es.places.get? name with
    | none => exact h.put_new hkey hplace
    | some k => exact h.put_place hkey hplace

end Reads

/-- All pairs. -/
theorem reads_putAll (pairs : List (Tree × Tree)) : Reads pairs (putAll {} pairs) := by
  induction pairs using List.reverseRecOn with
  | nil => exact ⟨.nil, fun name k => by simp [firsts, putAll]⟩
  | append_singleton pairs pair ih =>
    rw [putAll, List.foldl_concat]
    exact ih.put

/-! ## repeated keys -/

/-- One more pair. -/
theorem duplicates_concat (singular : String) (es : SectionEntries) (pairs : List (Tree × Tree))
    (pair : Tree × Tree) :
    es.duplicates singular (pairs ++ [pair]) = es.duplicates singular pairs ++
      (((es.putAll pairs).repeated? pair.1).map fun name =>
        duplicateIssue singular name pair.1).toList := by
  induction pairs generalizing es with
  | nil => simp [duplicates, putAll]
  | cons first pairs ih =>
    rw [List.cons_append, duplicates, ih, duplicates, List.append_assoc]
    rfl

end SectionEntries

/-! ## the value of a section -/

namespace Tree

variable {document value : Tree} {key : String}

/-- The first pair with the literal key has the value. -/
def Holds (document : Tree) (key : String) (value : Tree) : Prop :=
  ∃ before k after, document.pairs = before ++ (k, value) :: after ∧
    k.literalName? = some key ∧ ∀ pair ∈ before, pair.1.literalName? ≠ some key

/-- No pair has the literal key. -/
def Lacks (document : Tree) (key : String) : Prop :=
  ∀ pair ∈ document.pairs, pair.1.literalName? ≠ some key

/-- A key that a document holds has its value. -/
theorem get?_of_holds (h : document.Holds key value) : document.get? key = some value := by
  obtain ⟨before, k, after, hpairs, hkey, hbefore⟩ := h
  have hnone : before.find? (·.1.literalName? == some key) = none :=
    List.find?_eq_none.2 fun pair hpair => by simpa using hbefore pair hpair
  rw [get?, hpairs, List.find?_append, hnone]
  simp [hkey]

/-- A key that a document lacks has no value. -/
theorem get?_of_lacks (h : document.Lacks key) : document.get? key = none := by
  have hnone : document.pairs.find? (·.1.literalName? == some key) = none :=
    List.find?_eq_none.2 fun pair hpair => by simpa using h pair hpair
  rw [get?, hnone, Option.map_none]

end Tree

namespace Section

variable {s : Section} {kind : Outline.Kind} {document value : Tree}

/-- The value of a section in a document: that of the first pair with its key or, where pick lists
lack theirs, with the other one. -/
def ValueIn (s : Section) (document value : Tree) : Prop :=
  document.Holds s.key value ∨
    s = .pickLists ∧ document.Lacks "pick_lists" ∧ document.Holds "picklists" value

/-- A section that a document has is found in it. -/
theorem value?_of_valueIn (h : s.ValueIn document value) : s.value? document = some value := by
  rcases h with h | ⟨rfl, hlacks, h⟩
  · have hget := Tree.get?_of_holds h
    cases s <;> simp [value?, hget]
  · have hnone := Tree.get?_of_lacks hlacks
    have hget := Tree.get?_of_holds h
    simp only [value?, key, pickListsAlias, hnone, hget]
    rfl

/-! ## outlines -/

/-- The outline of a section has the name of its key as kind. -/
theorem name_kind_of_outline? {o : Outline} (h : s.outline? value = some o) :
    o.kind.name = s.key := by
  cases s with
  | connection =>
    obtain rfl := Option.some.inj h
    rw [(Connection.outline_eq value).1]
    rfl
  | test =>
    obtain rfl := Option.some.inj h
    rw [(ConnectionTest.outline_eq value).1]
    rfl
  | methods | objectDefinitions | actions | triggers | pickLists =>
    obtain rfl := Option.some.inj h
    rfl
  | _ => cases h

/-- A section of parts has one for each of its entries. -/
theorem exists_outline?_eq (hs : s.part? = some kind) (value : Tree) :
    ∃ group f, s.outline? value = some group ∧ group.children = value.sectionEntries.map f ∧
      ∀ e : SectionEntry, (f e).kind = kind ∧ (f e).name = e.name ∧
        (f e).loc = e.body.span.location := by
  have hoperated : ∀ rules : OperationRules, ∀ e, (rules.operationOutline e).kind = rules.kind ∧
      (rules.operationOutline e).name = e.name ∧
      (rules.operationOutline e).loc = e.body.span.location := fun rules e =>
    ⟨(rules.operationOutline_eq e).1, (rules.operationOutline_eq e).2.1,
      rules.loc_operationOutline e⟩
  cases s with
  | methods =>
    obtain rfl := Option.some.inj hs
    exact ⟨_, Methods.methodOutline, rfl, rfl, fun e => ⟨(Methods.methodOutline_eq e).1,
      (Methods.methodOutline_eq e).2.1, Methods.loc_methodOutline e⟩⟩
  | objectDefinitions | pickLists =>
    obtain rfl := Option.some.inj hs
    exact ⟨_, _, rfl, rfl, fun e => ⟨rfl, rfl, rfl⟩⟩
  | actions =>
    obtain rfl := Option.some.inj hs
    exact ⟨_, _, rfl, rfl, hoperated .actions⟩
  | triggers =>
    obtain rfl := Option.some.inj hs
    exact ⟨_, _, rfl, rfl, hoperated .triggers⟩
  | _ => cases hs

/-- Two sections have two keys. -/
theorem key_injective {s s' : Section} (h : s.key = s'.key) : s = s' := by
  have hkeys := congrArg ofKey? h
  rw [ofKey?_key, ofKey?_key] at hkeys
  exact Option.some.inj hkeys

/-- A document has one part for a section. -/
theorem filter_children_ofDocument {group : Outline} (hs : s.part? = some kind)
    (hvalue : s.value? document = some value) (hgroup : s.outline? value = some group)
    (filename : String) :
    (Outline.ofDocument filename document).children.filter (·.kind.name = s.key) = [group] := by
  have hone : ∀ s' : Section, ((s'.value? document).bind s'.outline?).filter
      (fun o => decide (o.kind.name = s.key)) = if s' = s then some group else none := by
    intro s'
    split
    · next heq =>
      subst heq
      rw [hvalue, Option.bind_some, hgroup]
      simp [name_kind_of_outline? hgroup]
    · next hne =>
      refine Option.filter_eq_none_iff.2 fun o ho hkind => hne ?_
      obtain ⟨v, -, hv⟩ := Option.bind_eq_some_iff.1 ho
      exact key_injective ((name_kind_of_outline? hv).symm.trans (of_decide_eq_true hkind))
  have hchildren : (Outline.ofDocument filename document).children =
      outlinedSections.filterMap fun s' => (s'.value? document).bind s'.outline? := rfl
  rw [hchildren, List.filter_filterMap]
  simp only [hone]
  cases s <;> cases hs <;> rfl

/-! ## findings -/

/-- The warnings about repeated keys are told by their code. -/
theorem withCode_entriesFindings {singular plural : String} {f : SectionEntry → List Finding}
    {codes : List String} (hf : ∀ e, CodedIn codes (f e))
    (hcode : "duplicate_" ++ singular ∉ codes) (hhash : value.isHash) :
    Issue.withCode ((entriesFindings plural singular f value).filterMap Finding.issue?)
      ("duplicate_" ++ singular) = value.duplicateIssues singular := by
  have hentries : CodedIn codes (value.sectionEntries.flatMap f) := .flatMap fun e _ => hf e
  have hown : Issue.withCode (value.duplicateIssues singular) ("duplicate_" ++ singular) =
      value.duplicateIssues singular :=
    List.filter_eq_self.2 fun i hi => by simp [SectionEntries.code_of_mem_duplicates hi]
  rw [entriesFindings, if_pos hhash, List.filterMap_append, List.filterMap_append,
    Issue.withCode_append, Issue.withCode_append, Finding.filterMap_issue?,
    hentries.withCode_eq_nil hcode, hown, List.append_nil]
  exact List.append_nil _

/-- The duplicates found in a section are those of its entries. -/
theorem withCode_findings (hs : s.part? = some kind) (hhash : value.isHash) :
    Issue.withCode ((s.findings value).filterMap Finding.issue?) ("duplicate_" ++ kind.name) =
      value.duplicateIssues kind.name := by
  cases s with
  | methods =>
    obtain rfl := Option.some.inj hs
    exact withCode_entriesFindings CodedIn.methodFindings (by decide) hhash
  | objectDefinitions | pickLists =>
    obtain rfl := Option.some.inj hs
    exact withCode_entriesFindings (CodedIn.declarationFindings _) List.not_mem_nil hhash
  | actions | triggers =>
    obtain rfl := Option.some.inj hs
    exact withCode_entriesFindings (CodedIn.operationFindings _) (by decide) hhash
  | _ => cases hs

/-- No other section has the code of the warnings about a section. -/
theorem not_mem_codes_of_ne {s' : Section} (hs : s.part? = some kind) (hne : s' ≠ s) :
    "duplicate_" ++ kind.name ∉ s'.codes := by
  cases s <;> cases hs <;> cases s' <;> first | exact absurd rfl hne | decide

/-- The duplicates found in a document are those of the entries of the section. -/
theorem withCode_documentFindings (hs : s.part? = some kind)
    (hvalue : s.value? document = some value) (hhash : value.isHash) :
    Issue.withCode (document.documentFindings.filterMap Finding.issue?)
      ("duplicate_" ++ kind.name) = value.duplicateIssues kind.name := by
  have hsections : ∀ s' : Section, Issue.withCode
      (((s'.value? document).elim [] s'.findings).filterMap Finding.issue?)
        ("duplicate_" ++ kind.name) = if s' = s then value.duplicateIssues kind.name else [] := by
    intro s'
    split
    · next heq =>
      subst heq
      rw [hvalue]
      exact withCode_findings hs hhash
    · next hne =>
      cases s'.value? document with
      | none => rfl
      | some v => exact (CodedIn.ofSection s' v).withCode_eq_nil (not_mem_codes_of_ne hs hne)
  have hcode : "duplicate_" ++ kind.name ∉
      ["unknown_root_key", "missing_object_definition", "missing_pick_list"] := by
    cases s <;> cases hs <;> decide
  have hother : ∀ {fs : List Finding} {code : String}, CodedIn [code] fs →
      code ∈ ["unknown_root_key", "missing_object_definition", "missing_pick_list"] →
      Issue.withCode (fs.filterMap Finding.issue?) ("duplicate_" ++ kind.name) = [] :=
    fun hfs hmem => hfs.withCode_eq_nil fun heq => hcode (List.mem_singleton.1 heq ▸ hmem)
  rw [Tree.documentFindings]
  simp only [List.filterMap_append, Issue.withCode_append, List.filterMap_flatMap,
    Issue.withCode_flatMap, hsections]
  rw [hother (.unknownKeys document) (by simp), hother (.objects document _) (by simp),
    hother (.pickLists document _) (by simp)]
  cases s <;> cases hs <;> simp [outlinedSections]

/-- Commands have another code. -/
theorem withCode_findingsWith (hs : s.part? = some kind) (hvalue : s.value? document = some value)
    (hhash : value.isHash) (program : Tree) :
    Issue.withCode ((program.findingsWith (some document)).filterMap Finding.issue?)
      ("duplicate_" ++ kind.name) = value.duplicateIssues kind.name := by
  have hcode : "duplicate_" ++ kind.name ∉ ["dangerous_xstr"] := by
    cases s <;> cases hs <;> decide
  rw [Tree.findingsWith, List.filterMap_append, Issue.withCode_append,
    (CodedIn.commands program).withCode_eq_nil hcode, List.nil_append]
  exact withCode_documentFindings hs hvalue hhash

/-! ## parts and warnings -/

/-- A part of an outline that shows a pair: it is of the kind, has the key of the pair for its name
and is where the value of the last pair with that key is. -/
structure Shows (kind : Outline.Kind) (pairs : List (Tree × Tree)) (i : Nat) (part : Outline) :
    Prop where
  kind_eq : part.kind = kind
  name_eq : part.name = (Pairs.keyAt pairs i).getD "(dynamic)"
  loc_eq : ∃ last key value, Pairs.IsLast pairs i last ∧ pairs[last]? = some (key, value) ∧
    part.loc = value.span.location

/-- A warning about a pair: it has the name of the key and is where the key is. -/
structure WarnsOf (pairs : List (Tree × Tree)) (i : Nat) (issue : Issue) : Prop where
  severity_eq : issue.severity = .warning
  name_eq : issue.text? "name" = Pairs.keyAt pairs i
  loc_eq : ∃ key value, pairs[i]? = some (key, value) ∧ issue.loc = key.span.location

/-- A duplicate warns of the pair that it was raised for. -/
theorem warnsOf_duplicateIssue {pairs : List (Tree × Tree)} {pair : Tree × Tree} {i : Nat}
    {name : String} (hi : pairs[i]? = some pair) (hname : pair.1.literalName? = some name)
    (singular : String) : WarnsOf pairs i (duplicateIssue singular name pair.1) where
  severity_eq := rfl
  name_eq := by
    rw [duplicateIssue, Issue.text?_about, if_pos rfl, Pairs.keyAt_eq_some_iff.2 ⟨pair, hi, hname⟩]
  loc_eq := ⟨pair.1, pair.2, hi, rfl⟩

/-- A pair more leaves the warnings for those before it. -/
theorem WarnsOf.concat {pairs : List (Tree × Tree)} {i : Nat} {issue : Issue}
    (h : WarnsOf pairs i issue) (pair : Tree × Tree) : WarnsOf (pairs ++ [pair]) i issue := by
  obtain ⟨key, value, hi, hloc⟩ := h.loc_eq
  have hlt : i < pairs.length := (List.getElem?_eq_some_iff.1 hi).1
  exact ⟨h.severity_eq, h.name_eq.trans (Pairs.keyAt_concat_of_lt hlt).symm, key, value,
    (List.getElem?_append_left hlt).trans hi, hloc⟩

/-- There is a warning for each pair that repeats a key. -/
theorem forall₂_warnsOf (singular : String) (pairs : List (Tree × Tree)) :
    List.Forall₂ (WarnsOf pairs) (Pairs.repeats pairs)
      (SectionEntries.duplicates singular {} pairs) := by
  induction pairs using List.reverseRecOn with
  | nil => exact .nil
  | append_singleton pairs pair ih =>
    have hreads := SectionEntries.reads_putAll pairs
    rw [Pairs.repeats_concat, SectionEntries.duplicates_concat]
    refine List.rel_append (ih.imp fun i issue h => h.concat pair) ?_
    cases hrepeated : (SectionEntries.putAll {} pairs).repeated? pair.1 with
    | none =>
      have hnot : ¬Pairs.Repeats (pairs ++ [pair]) pairs.length := fun h => by
        obtain ⟨name, hname⟩ := Pairs.repeats_concat_length_iff.1 h
        exact Option.some_ne_none name ((hreads.repeated?_eq_some_iff.2 hname).symm.trans hrepeated)
      rw [if_neg hnot]
      exact .nil
    | some name =>
      have hname := hreads.repeated?_eq_some_iff.1 hrepeated
      rw [if_pos (Pairs.repeats_concat_length_iff.2 ⟨name, hname⟩)]
      exact .cons (warnsOf_duplicateIssue (by simp) hname.1 singular) .nil

/-- **Parts of sections.** Where the value of a section is a hash, the outline has one part for each
of its pairs that repeats no key, in order, and one warning is raised for each pair that repeats
one; neither depends on what the survey holds before, or on what the values of the pairs are. -/
theorem parts_and_duplicates (hs : s.part? = some kind) (hvalue : s.ValueIn document value)
    (hhash : value.kind = .hash) (filename : String) (program : Tree) :
    ∃ root raised,
      (∀ before : Survey, ∃ after,
        (Outline.survey filename program (some document)).run before = (root, after) ∧
          after.log = before.log.append raised) ∧
      (∃ group, root.children.filter (·.kind.name = s.key) = [group] ∧
        List.Forall₂ (Shows kind value.pairs)
          ((List.range value.pairs.length).filter fun i => ¬ Pairs.Repeats value.pairs i)
          group.children) ∧
      List.Forall₂ (WarnsOf value.pairs)
        ((List.range value.pairs.length).filter fun i => Pairs.Repeats value.pairs i)
        (Issue.withCode raised ("duplicate_" ++ kind.name)) := by
  have hvalue? := value?_of_valueIn hvalue
  have hisHash : value.isHash = true := by simp [Tree.isHash, hhash]
  obtain ⟨group, f, hgroup, hchildren, hf⟩ := exists_outline?_eq hs value
  refine ⟨.ofDocument filename document,
    (program.findingsWith (some document)).flatMap Finding.issues,
    fun before => ⟨_, (Outline.finds_survey filename program (some document)).run_eq before,
      before.log_addAll _⟩,
    ⟨group, filter_children_ofDocument hs hvalue? hgroup filename, ?_⟩, ?_⟩
  · rw [hchildren, List.forall₂_map_right_iff]
    refine (SectionEntries.reads_putAll value.pairs).entries.imp fun i e he => ?_
    obtain ⟨hkind, hname, hloc⟩ := hf e
    obtain ⟨last, key, hlast, hpair⟩ := he.body_eq
    exact ⟨hkind, hname.trans he.name_eq, last, key, e.body, hlast, hpair, hloc⟩
  · have hcode : "duplicate_" ++ kind.name ≠ "dangerous_call" := by
      cases s <;> cases hs <;> decide
    rw [Finding.withCode_flatMap_issues hcode, withCode_findingsWith hs hvalue? hisHash program]
    exact forall₂_warnsOf kind.name value.pairs

/-- Pick lists with two names that are repeated and two computed ones, of which none is a hash. -/
def tangledLists : Tree :=
  let name (s : String) : Tree := .leaf (.literal (.symbol s)) {}
  let computed : Tree := .leaf (.literal .dynamicString) {}
  let number (text : String) : Tree := .leaf (.literal (.number text)) {}
  ⟨.hash, {}, [.ofPair (name "a") (number "0"), .ofPair computed (number "1"),
    .ofPair (.leaf (.literal (.string "b")) {}) (number "2"), .ofPair (name "b") (number "3"),
    .ofPair computed (number "4"), .ofPair (.leaf (.literal (.string "a")) {}) (number "5"),
    .ofPair (name "b") (number "6")]⟩

/-- A document with pick lists under their second key. -/
def tangledDocument : Tree :=
  ⟨.hash, {}, [.ofPair (.leaf (.literal (.symbol "picklists")) {}) tangledLists]⟩

/-- Four parts are shown, and three warnings are raised. -/
theorem parts_and_duplicates_tangledLists :
    Section.pickLists.ValueIn tangledDocument tangledLists ∧ tangledLists.kind = .hash ∧
    ∃ root raised,
      (∀ before : Survey, ∃ after,
        (Outline.survey "" tangledDocument (some tangledDocument)).run before = (root, after) ∧
          after.log = before.log.append raised) ∧
      (∃ group, root.children.filter (·.kind.name = Section.pickLists.key) = [group] ∧
        group.children.map Outline.name = ["a", "(dynamic)", "b", "(dynamic)"]) ∧
      (Issue.withCode raised ("duplicate_" ++ Outline.Kind.name .pickList)).map (·.text? "name") =
        [some "b", some "a", some "b"] := by
  have hlacks : tangledDocument.Lacks "pick_lists" := by
    intro pair hpair
    obtain rfl := List.mem_singleton.1 hpair
    decide
  have hvalue : Section.pickLists.ValueIn tangledDocument tangledLists :=
    .inr ⟨rfl, hlacks, [], _, [], rfl, rfl, by simp⟩
  obtain ⟨root, raised, hrun, ⟨group, hgroup, hparts⟩, hwarned⟩ :=
    parts_and_duplicates (rfl : part? .pickLists = some .pickList) hvalue rfl "" tangledDocument
  refine ⟨hvalue, rfl, root, raised, hrun, ⟨group, hgroup, ?_⟩, ?_⟩
  · rw [map_eq_map_of_forall₂ hparts fun h => h.name_eq]
    decide
  · rw [map_eq_map_of_forall₂ hwarned fun h => h.name_eq]
    decide

end Section

end ConnectorAudit
