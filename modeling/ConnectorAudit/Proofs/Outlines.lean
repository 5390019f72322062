import ConnectorAudit.Proofs.Findings

/-!
# The names that an outline shows

The sections of methods, actions, triggers, object definitions and pick lists
each show parts of a kind of their own, one for each entry and without parts
below.  `Outline.namesOf_part` says so of the outline of a whole document: the
names of a kind of parts are those of the entries of its section.
-/

namespace ConnectorAudit

namespace Outline

variable {kind : Kind}

/-- Of parts that have no parts, those of the kind. -/
theorem descendantsAll_flat {os : List Outline} (h : ∀ o ∈ os, o.children = []) :
    descendantsAll kind os = os.filter (·.kind = kind) := by
  induction os with
  | nil => rfl
  | cons o os ih =>
    obtain ⟨ho, hos⟩ := List.forall_mem_cons.1 h
    rw [descendantsAll, descendants_eq, ho, ih hos, descendantsAll, List.append_nil,
      List.filter_cons]
    by_cases hk : o.kind = kind <;> simp [hk]

/-- The names in a part that has one part for each entry, all of the same kind. -/
theorem namesOf_entries {α : Type} {o : Outline} {entries : List α} {f : α → Outline}
    {entryName : α → String} {part : Kind} (hchildren : o.children = entries.map f)
    (hf : ∀ e, (f e).kind = part ∧ (f e).name = entryName e ∧ (f e).children = [])
    (hne : o.kind ≠ kind) :
    o.namesOf kind = if part = kind then entries.map entryName else [] := by
  have hflat : ∀ p ∈ entries.map f, p.children = [] := by simp [hf]
  rw [namesOf, descendants_eq, if_neg hne, List.nil_append, hchildren, descendantsAll_flat hflat,
    List.filter_map, List.map_map]
  by_cases hpart : part = kind
  · have hall : entries.filter ((fun o => decide (o.kind = kind)) ∘ f) = entries :=
      List.filter_eq_self.2 fun e _ => by simp [hf, hpart]
    simp [hall, hpart, hf]
  · simp [hpart, hf]

/-- A part without parts shows its own kind only. -/
theorem namesOf_leaf {o : Outline} (hchildren : o.children = []) (hne : o.kind ≠ kind) :
    o.namesOf kind = [] := by
  rw [namesOf, descendants_eq, if_neg hne, hchildren]
  rfl

end Outline

/-! ## sections -/

/-- The outline of the connection is one part without parts. -/
theorem Connection.outline_eq (value : Tree) :
    (outline value).kind = .connection ∧ (outline value).children = [] := by
  unfold outline
  split
  · unfold describe
    cases ((value.get? "base_uri").bind Tree.stringValue?) <;>
      cases ((authorization? value).bind fun a => (a.get? "type").bind Tree.stringValue?) <;>
        exact ⟨rfl, rfl⟩
  · exact ⟨rfl, rfl⟩

/-- So is that of the test. -/
theorem ConnectionTest.outline_eq (value : Tree) :
    (outline value).kind = .test ∧ (outline value).children = [] := by
  unfold outline
  split <;> exact ⟨rfl, rfl⟩

/-- The outline of a method has its name and no children. -/
theorem Methods.methodOutline_eq (e : SectionEntry) :
    (methodOutline e).kind = .method ∧ (methodOutline e).name = e.name ∧
      (methodOutline e).children = [] := by
  unfold methodOutline
  split <;> exact ⟨rfl, rfl, rfl⟩

/-- The outline of a method is where its body is. -/
theorem Methods.loc_methodOutline (e : SectionEntry) :
    (methodOutline e).loc = e.body.span.location := by
  unfold methodOutline
  split <;> rfl

/-- The outline of an operation has its kind, its name and no children. -/
theorem OperationRules.operationOutline_eq (rules : OperationRules) (e : SectionEntry) :
    (rules.operationOutline e).kind = rules.kind ∧ (rules.operationOutline e).name = e.name ∧
      (rules.operationOutline e).children = [] := by
  unfold operationOutline
  split <;> exact ⟨rfl, rfl, rfl⟩

/-- The outline of an operation is where its body is. -/
theorem OperationRules.loc_operationOutline (rules : OperationRules) (e : SectionEntry) :
    (rules.operationOutline e).loc = e.body.span.location := by
  unfold operationOutline
  split <;> rfl

namespace Section

/-- The kind of the parts that a section has in an outline, if it has any. -/
def part? : Section → Option Outline.Kind
  | methods => some .method
  | objectDefinitions => some .objectDefinition
  | actions => some .action
  | triggers => some .trigger
  | pickLists => some .pickList
  | _ => none

/-- The names of a kind that the outline of a section shows. -/
def shown (s : Section) (kind : Outline.Kind) (value : Tree) : List String :=
  (s.outline? value).elim [] (·.namesOf kind)

/-- Of the kinds of parts, a section shows its own. -/
theorem shown_eq {kind : Outline.Kind} (hkind : ∃ s : Section, s.part? = some kind) (s : Section)
    (value : Tree) :
    s.shown kind value =
      if s.part? = some kind then value.sectionEntries.map SectionEntry.name else [] := by
  -- No section is of a kind of parts itself.
  have hne : kind ≠ .connection ∧ kind ≠ .test ∧ kind ≠ .methods ∧ kind ≠ .objectDefinitions ∧
      kind ≠ .actions ∧ kind ≠ .triggers ∧ kind ≠ .pickLists := by
    obtain ⟨s, hs⟩ := hkind
    cases s <;> cases hs <;> decide
  obtain ⟨hconnection, htest, hmethods, hobjects, hactions, htriggers, hlists⟩ := hne
  have hdeclared : ∀ (rules : DeclarationRules), rules.group ≠ kind →
      (rules.outline value).namesOf kind =
        if rules.kind = kind then value.sectionEntries.map SectionEntry.name else [] :=
    fun rules hgroup => Outline.namesOf_entries rfl (fun e => ⟨rfl, rfl, rfl⟩) hgroup
  have hoperated : ∀ (rules : OperationRules), rules.group ≠ kind →
      (rules.outline value).namesOf kind =
        if rules.kind = kind then value.sectionEntries.map SectionEntry.name else [] :=
    fun rules hgroup => Outline.namesOf_entries rfl rules.operationOutline_eq hgroup
  cases s with
  | connection =>
    obtain ⟨ho, hchildren⟩ := Connection.outline_eq value
    exact Outline.namesOf_leaf hchildren (ho ▸ hconnection.symm)
  | test =>
    obtain ⟨ho, hchildren⟩ := ConnectionTest.outline_eq value
    exact Outline.namesOf_leaf hchildren (ho ▸ htest.symm)
  | methods =>
    simp only [part?, Option.some.injEq]
    exact Outline.namesOf_entries (o := Methods.outline value) rfl Methods.methodOutline_eq
      hmethods.symm
  | objectDefinitions =>
    simp only [part?, Option.some.injEq]
    exact hdeclared .objectDefinitions hobjects.symm
  | actions =>
    simp only [part?, Option.some.injEq]
    exact hoperated .actions hactions.symm
  | triggers =>
    simp only [part?, Option.some.injEq]
    exact hoperated .triggers htriggers.symm
  | pickLists =>
    simp only [part?, Option.some.injEq]
    exact hdeclared .pickLists hlists.symm
  | _ => rfl

end Section

namespace Outline

/-- The names of a kind in the outline of a document are those that its sections show, in the order
of the outline. -/
theorem namesOf_ofDocument {kind : Kind} (hkind : kind ≠ .connector) (filename : String)
    (document : Tree) :
    (ofDocument filename document).namesOf kind =
      outlinedSections.flatMap fun s => (s.value? document).elim [] (s.shown kind) := by
  have hall : ∀ sections : List Section,
      (descendantsAll kind (sections.filterMap fun s => (s.value? document).bind s.outline?)).map
        name = sections.flatMap fun s => (s.value? document).elim [] (s.shown kind) := by
    intro sections
    induction sections with
    | nil => rfl
    | cons s sections ih =>
      rw [List.flatMap_cons, ← ih, List.filterMap_cons]
      cases hvalue : s.value? document with
      | none => simp
      | some value =>
        cases houtline : s.outline? value with
        | none => simp [Section.shown, houtline]
        | some o => simp [Section.shown, houtline, descendantsAll, namesOf]
  have hroot : (ofDocument filename document).kind ≠ kind := fun h => hkind h.symm
  rw [namesOf, descendants_eq, if_neg hroot, List.nil_append]
  exact hall outlinedSections

/-- The names of a kind of parts in the outline of a document are those of the entries of its
section. -/
theorem namesOf_part {s : Section} {kind : Kind} (hs : s.part? = some kind) (filename : String)
    (document : Tree) :
    (ofDocument filename document).namesOf kind =
      (s.value? document).elim [] fun value => value.sectionEntries.map SectionEntry.name := by
  have hkind : kind ≠ .connector := by
    cases s <;> cases hs <;> decide
  have hshown : ∀ s' : Section, (s'.value? document).elim [] (s'.shown kind) =
      if s'.part? = some kind then
        (s'.value? document).elim [] fun value => value.sectionEntries.map SectionEntry.name
      else [] := by
    intro s'
    cases s'.value? document with
    | none => simp
    | some value => exact Section.shown_eq ⟨s, hs⟩ s' value
  rw [namesOf_ofDocument hkind]
  simp only [hshown]
  cases s <;> cases hs <;> simp [outlinedSections, Section.part?]

end Outline

end ConnectorAudit
