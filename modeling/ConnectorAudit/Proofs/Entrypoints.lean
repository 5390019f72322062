import ConnectorAudit.Proofs.Outlines
import ConnectorAudit.Proofs.Results

/-!
# Where calls start

Everything in the graph of a document hangs on what was registered: an edge
starts at a callable, and a node is a callable or what one calls.  A callable is
an entrypoint, or the body of a declared method.

* `Survey.Rooted`: that, kept by every finding that is taken in;
* `Tree.filterMap_method?_findings`: the methods declared are those that the outline shows;
* `Audit.rooted_ofSource`: hence, in the audit of a source, what a report calls unreachable is a
  declared method or called by one that is unreachable itself.
-/

namespace ConnectorAudit

/-! ## surveys -/

namespace Survey

/-- Entrypoints are nodes, edges start at an entrypoint or at a `home`, and every node is either of
these or the end of an edge. -/
structure Rooted (home : String → Prop) (s : Survey) : Prop where
  wellFormed : s.graph.WellFormed
  nodup : s.entrypoints.Nodup
  entry_mem : ∀ id ∈ s.entrypoints, id ∈ s.graph.ids
  source : ∀ e ∈ s.graph.edges, e.source ∈ s.entrypoints ∨ home e.source
  node : ∀ id ∈ s.graph.ids,
    id ∈ s.entrypoints ∨ home id ∨ ∃ e ∈ s.graph.edges, e.target = id

@[simp]
theorem entrypoints_addCall (owner : String) (s : Survey) (call : Call × Location) :
    (addCall owner s call).entrypoints = s.entrypoints := by
  obtain ⟨call, loc⟩ := call
  cases call <;> rfl

@[simp]
theorem methods_addCall (owner : String) (s : Survey) (call : Call × Location) :
    (addCall owner s call).methods = s.methods := by
  obtain ⟨call, loc⟩ := call
  cases call <;> rfl

namespace Rooted

variable {home : String → Prop} {s : Survey} {owner : String}

/-- A new survey has a root and nothing else. -/
theorem newSurvey (home : String → Prop) (parsed : Parsed) (cap : Nat) :
    Rooted home (Audit.newSurvey parsed cap) where
  wellFormed := Graph.wellFormed_ofChanges []
  nodup := List.nodup_nil
  entry_mem _ h := by cases h
  source _ h := by cases h
  node _ h := by cases h

/-- A wider choice of homes is met as well. -/
theorem mono {home' : String → Prop} (h : s.Rooted home) (hhome : ∀ id, home id → home' id) :
    s.Rooted home' where
  wellFormed := h.wellFormed
  nodup := h.nodup
  entry_mem := h.entry_mem
  source e he := (h.source e he).imp_right (hhome e.source)
  node id hid := (h.node id hid).imp_right (Or.imp_left (hhome id))

/-- Only the graph and the entrypoints matter. -/
theorem congr {s' : Survey} (h : s.Rooted home) (hgraph : s'.graph = s.graph)
    (hentry : s'.entrypoints = s.entrypoints) : s'.Rooted home where
  wellFormed := hgraph ▸ h.wellFormed
  nodup := hentry ▸ h.nodup
  entry_mem := hgraph ▸ hentry ▸ h.entry_mem
  source := hgraph ▸ hentry ▸ h.source
  node := hgraph ▸ hentry ▸ h.node

/-- A home may be described. -/
theorem addNode (h : s.Rooted home) {n : Graph.Node} (hn : home n.id) :
    { s with graph := s.graph.addNode n }.Rooted home where
  wellFormed := h.wellFormed.addNode n
  nodup := h.nodup
  entry_mem id hid := Graph.mem_ids_addNode.2 (.inl (h.entry_mem id hid))
  source e he := h.source e (Graph.edges_addNode s.graph n ▸ he)
  node id hid := by
    rw [Graph.edges_addNode]
    rcases Graph.mem_ids_addNode.1 hid with hid | rfl
    · exact h.node id hid
    · exact .inr (.inl hn)

/-- A home that is a node may call anything. -/
theorem addCall (h : s.Rooted home) (hhome : home owner) (howner : owner ∈ s.graph.ids)
    (call : Call × Location) :
    (addCall owner s call).Rooted home ∧ owner ∈ (Survey.addCall owner s call).graph.ids := by
  have hgraph : (Survey.addCall owner s call).graph = _ := graph_addCall call
  cases htarget : call.1.target? owner with
  | none =>
    rw [htarget] at hgraph
    exact ⟨h.congr hgraph (entrypoints_addCall ..), by rw [hgraph]; exact howner⟩
  | some n =>
    rw [htarget, Option.elim_some] at hgraph
    have hsource : owner ∈ (s.graph.addNode n).ids := Graph.mem_ids_addNode.2 (.inl howner)
    have hends : n.id ∈ (s.graph.addNode n).ids := Graph.mem_ids_addNode.2 (.inr rfl)
    have hids : (Survey.addCall owner s call).graph.ids = (s.graph.addNode n).ids := by
      rw [hgraph, Graph.ids, Graph.nodes_addEdge_of_mem hsource hends, Graph.ids]
    have hedge : callEdge owner n.id ∈ (Survey.addCall owner s call).graph.edges := by
      rw [hgraph]
      exact Graph.mem_edges_addEdge.2 (.inr rfl)
    have hold : ∀ e ∈ s.graph.edges, e ∈ (Survey.addCall owner s call).graph.edges := by
      intro e he
      rw [hgraph]
      exact Graph.mem_edges_addEdge.2 (.inl (by rwa [Graph.edges_addNode]))
    refine ⟨⟨?_, ?_, fun id hid => ?_, fun e he => ?_, fun id hid => ?_⟩, hids ▸ hsource⟩
    · rw [hgraph]
      exact (h.wellFormed.addNode n).addEdge _
    · rw [entrypoints_addCall]
      exact h.nodup
    · rw [entrypoints_addCall] at hid
      rw [hids]
      exact Graph.mem_ids_addNode.2 (.inl (h.entry_mem id hid))
    · rw [entrypoints_addCall]
      rw [hgraph, Graph.mem_edges_addEdge, Graph.edges_addNode] at he
      rcases he with he | rfl
      · exact h.source e he
      · exact .inr hhome
    · rw [entrypoints_addCall]
      rw [hids] at hid
      rcases Graph.mem_ids_addNode.1 hid with hid | rfl
      · refine (h.node id hid).imp_right (Or.imp_right ?_)
        rintro ⟨e, he, htarget⟩
        exact ⟨e, hold e he, htarget⟩
      · exact .inr (.inr ⟨_, hedge, rfl⟩)

/-- A callable that is registered at home keeps a survey rooted. -/
theorem register (h : s.Rooted home) (hhome : home owner) (kind : Graph.Kind) (body : Tree) :
    (s.register owner kind body).Rooted home ∧ owner ∈ (s.register owner kind body).graph.ids := by
  have hrun : ∀ (calls : List (Call × Location)) (s : Survey), s.Rooted home → owner ∈ s.graph.ids →
      (calls.foldl (Survey.addCall owner) s).Rooted home ∧
        owner ∈ (calls.foldl (Survey.addCall owner) s).graph.ids := by
    intro calls
    induction calls with
    | nil => exact fun s h howner => ⟨h, howner⟩
    | cons call calls ih =>
      intro s h howner
      obtain ⟨hnext, hmem⟩ := h.addCall hhome howner call
      exact ih _ hnext hmem
  rw [register_eq]
  exact hrun body.calls _ (h.addNode hhome) (Graph.mem_ids_addNode.2 (.inr rfl))

/-- A home that is a node may become an entrypoint, and is no longer needed as a home. -/
theorem addEntrypoint (h : s.Rooted fun id => home id ∨ id = owner) (howner : owner ∈ s.graph.ids) :
    (s.addEntrypoint owner).Rooted home := by
  have hentry (id : String) :
      id ∈ (s.addEntrypoint owner).entrypoints ↔ id ∈ s.entrypoints ∨ id = owner := by
    unfold Survey.addEntrypoint
    split
    · next hmem =>
      have hmem : owner ∈ s.entrypoints := by simpa using hmem
      rw [iff_self_or]
      rintro rfl
      exact hmem
    · simp
  have hgraph : (s.addEntrypoint owner).graph = s.graph := by
    unfold Survey.addEntrypoint
    split <;> rfl
  have hnodup : (s.addEntrypoint owner).entrypoints.Nodup := by
    unfold Survey.addEntrypoint
    split
    · exact h.nodup
    · next hnot =>
      have hnot : owner ∉ s.entrypoints := by simpa using hnot
      rw [List.nodup_append]
      refine ⟨h.nodup, by simp, ?_⟩
      rintro a ha b hb rfl
      exact hnot (List.mem_singleton.1 hb ▸ ha)
  refine ⟨hgraph ▸ h.wellFormed, hnodup, fun id hid => ?_, fun e he => ?_, fun id hid => ?_⟩
  · rw [hgraph]
    rcases (hentry id).1 hid with hid | rfl
    · exact h.entry_mem id hid
    · exact howner
  · rw [hgraph] at he
    rw [hentry]
    rcases h.source e he with hs | hs | hs
    · exact .inl (.inl hs)
    · exact .inr hs
    · exact .inl (.inr hs)
  · rw [hgraph] at hid ⊢
    rw [hentry]
    rcases h.node id hid with hs | (hs | hs) | hs
    · exact .inl (.inl hs)
    · exact .inr (.inl hs)
    · exact .inl (.inr hs)
    · exact .inr (.inr hs)

/-- A finding keeps a survey rooted if a callable that is no entrypoint has a home. -/
theorem add (h : s.Rooted home) {f : Finding}
    (hf : ∀ owner kind body, f = .callable owner kind body false → home owner) :
    (s.add f).Rooted home := by
  cases f with
  | issue i => exact h.congr rfl rfl
  | method name => exact h.congr rfl rfl
  | tally name count => exact h.congr rfl rfl
  | callable owner kind body entry =>
    cases entry with
    | false => exact (h.register (hf owner kind body rfl) kind body).1
    | true =>
      have hwider : s.Rooted fun id => home id ∨ id = owner := h.mono fun id => .inl
      obtain ⟨hrooted, howner⟩ := hwider.register (.inr rfl) kind body
      exact hrooted.addEntrypoint howner

/-- Findings keep a survey rooted if all their callables are at home. -/
theorem addAll (h : s.Rooted home) {fs : List Finding}
    (hfs : ∀ owner kind body, .callable owner kind body false ∈ fs → home owner) :
    (s.addAll fs).Rooted home := by
  induction fs generalizing s with
  | nil => exact h
  | cons f fs ih =>
    refine ih (h.add ?_) fun owner kind body hmem =>
      hfs owner kind body (List.mem_cons_of_mem f hmem)
    rintro owner kind body rfl
    exact hfs owner kind body List.mem_cons_self

end Rooted

end Survey

/-! ## findings -/

/-- The method that a finding declares. -/
def Finding.method? : Finding → Option String
  | .method name => some name
  | _ => none

/-- The methods are those there were, and those that are found. -/
theorem Survey.methods_addAll (s : Survey) (fs : List Finding) :
    (s.addAll fs).methods = s.methods ++ fs.filterMap Finding.method? := by
  have hcalls : ∀ (owner : String) (calls : List (Call × Location)) (s : Survey),
      (calls.foldl (addCall owner) s).methods = s.methods := by
    intro owner calls
    induction calls with
    | nil => exact fun s => rfl
    | cons call calls ih => exact fun s => (ih _).trans (methods_addCall owner s call)
  have hadd : ∀ (s : Survey) (f : Finding), (s.add f).methods = s.methods ++ f.method?.toList := by
    intro s f
    cases f with
    | issue i => exact (List.append_nil _).symm
    | method name => rfl
    | tally name count => exact (List.append_nil _).symm
    | callable owner kind body entry =>
      obtain ⟨entrypoints, hregister⟩ := s.exists_add_callable_eq owner kind body entry
      simp only [hregister, register_eq, Finding.method?, Option.toList_none, List.append_nil]
      exact hcalls ..
  induction fs generalizing s with
  | nil => simp [addAll]
  | cons f fs ih =>
    rw [addAll, List.foldl_cons, ← addAll, ih, hadd, List.append_assoc]
    cases hf : f.method? <;> simp [hf]

/-- A finding that declares no method and, if it is a callable, is an entrypoint. -/
def Finding.isPlain : Finding → Bool
  | .issue _ | .callable _ _ _ true | .tally _ _ => true
  | .callable _ _ _ false | .method _ => false

/-- What is plain is no method. -/
theorem Finding.method?_of_isPlain {f : Finding} (h : f.isPlain = true) : f.method? = none := by
  cases f with
  | method name => cases h
  | _ => rfl

def Plain (findings : List Finding) : Prop := ∀ f ∈ findings, f.isPlain = true

namespace Plain

variable {fs gs : List Finding}

/-- Two lists of plain findings are plain together. -/
theorem append (hfs : Plain fs) (hgs : Plain gs) : Plain (fs ++ gs) :=
  List.forall_mem_append.2 ⟨hfs, hgs⟩

theorem ofIssues (issues : List Issue) : Plain (issues.map .issue) := by
  intro f hf
  obtain ⟨i, -, rfl⟩ := List.mem_map.1 hf
  rfl

/-- Plain findings tell of no method. -/
theorem filterMap_method? (h : Plain fs) : fs.filterMap Finding.method? = [] :=
  List.filterMap_eq_nil_iff.2 fun f hf => Finding.method?_of_isPlain (h f hf)

/-- Plain findings tell of no callable without an entry. -/
theorem not_mem (h : Plain fs) (owner : String) (kind : Graph.Kind) (body : Tree) :
    .callable owner kind body false ∉ fs := by
  intro hmem
  cases h _ hmem

/-- A section of entries. -/
theorem entries {singular plural : String} {f : SectionEntry → List Finding}
    (hf : ∀ e, Plain (f e)) (value : Tree) : Plain (entriesFindings plural singular f value) := by
  unfold entriesFindings
  split
  · refine ((ofIssues _).append fun g hg => ?_).append (by simp [Plain, Finding.isPlain])
    obtain ⟨e, -, hg⟩ := List.mem_flatMap.1 hg
    exact hf e g hg
  · exact ofIssues [_]

/-- What is found in operations is plain. -/
theorem operations (rules : OperationRules) (value : Tree) : Plain (rules.findings value) := by
  refine entries (fun e => ?_) value
  unfold OperationRules.operationFindings
  split
  · refine append ?_ fun f hf => ?_
    · unfold OperationRules.requiredFindings
      split
      · exact ofIssues []
      · exact ofIssues [_]
    · obtain ⟨key, -, hkey⟩ := List.mem_flatMap.1 hf
      unfold OperationRules.callableFindings at hkey
      cases hbody : e.body.get? key with
      | none => simp [hbody] at hkey
      | some body =>
        simp only [hbody, Option.elim_some] at hkey
        split at hkey <;> exact List.mem_singleton.1 hkey ▸ rfl
  · exact ofIssues [_]

/-- What is found in declarations is plain. -/
theorem declarations (rules : DeclarationRules) (value : Tree) : Plain (rules.findings value) := by
  refine entries (fun e f hf => ?_) value
  obtain ⟨c, -, hc⟩ := List.mem_flatMap.1 hf
  exact List.mem_singleton.1 hc ▸ rfl

/-- The methods are the only section whose findings are not plain. -/
theorem ofSection {s : Section} (hs : s ≠ .methods) (value : Tree) : Plain (s.findings value) := by
  cases s with
  | methods => exact absurd rfl hs
  | connection =>
    intro f hf
    change f ∈ Connection.findings value at hf
    unfold Connection.findings at hf
    split at hf
    · obtain ⟨c, -, hc⟩ := List.mem_flatMap.1 hf
      exact List.mem_singleton.1 hc ▸ rfl
    · obtain rfl := List.mem_singleton.1 hf
      rfl
  | test =>
    intro f hf
    change f ∈ ConnectionTest.findings value at hf
    unfold ConnectionTest.findings at hf
    split at hf
    · obtain rfl := List.mem_singleton.1 hf
      rfl
    · obtain rfl := List.mem_singleton.1 hf
      rfl
  | objectDefinitions => exact declarations _ value
  | actions => exact operations _ value
  | triggers => exact operations _ value
  | pickLists => exact declarations _ value
  | _ =>
    intro f hf
    cases hf

end Plain

/-! ## the methods declared -/

/-- The methods declared in a section are the entries of the methods. -/
theorem Section.filterMap_method?_findings (s : Section) (value : Tree) :
    (s.findings value).filterMap Finding.method? =
      if s = .methods then value.sectionEntries.map SectionEntry.name else [] := by
  by_cases hs : s = .methods
  · subst hs
    have hentries : ∀ entries : List SectionEntry,
        (entries.flatMap Methods.methodFindings).filterMap Finding.method? =
          entries.map SectionEntry.name := by
      intro entries
      induction entries with
      | nil => rfl
      | cons e entries ih =>
        rw [List.flatMap_cons, List.filterMap_append, ih, Methods.methodFindings]
        split <;> rfl
    have hissues : ∀ issues : List Issue,
        (issues.map Finding.issue).filterMap Finding.method? = [] :=
      fun issues => (Plain.ofIssues issues).filterMap_method?
    change (entriesFindings "methods" "method" Methods.methodFindings value).filterMap
      Finding.method? = _
    unfold entriesFindings
    split
    · simp only [List.filterMap_append, hentries, hissues, List.nil_append, if_true]
      exact List.append_nil _
    · next hhash =>
      rw [Tree.sectionEntries_eq_nil hhash]
      rfl
  · rw [if_neg hs]
    exact (Plain.ofSection hs value).filterMap_method?

/-- The methods that are declared in a source are those that its outline shows. -/
theorem Tree.filterMap_method?_findings (filename : String) (program : Tree) :
    program.findings.filterMap Finding.method? =
      (Outline.ofProgram filename program.document?).namesOf .method := by
  have hissues : ∀ issues : List Issue,
      (issues.map Finding.issue).filterMap Finding.method? = [] :=
    fun issues => (Plain.ofIssues issues).filterMap_method?
  rw [findings, findingsWith, List.filterMap_append, hissues, List.nil_append, Outline.ofProgram]
  cases program.document? with
  | none => rfl
  | some document =>
    have hsection : ∀ s : Section,
        ((s.value? document).elim [] s.findings).filterMap Finding.method? =
          if s = .methods then
            (s.value? document).elim [] fun value => value.sectionEntries.map SectionEntry.name
          else [] := by
      intro s
      cases s.value? document with
      | none => simp
      | some value => exact s.filterMap_method?_findings value
    simp only [documentFindings, List.filterMap_append, hissues, List.nil_append,
      List.append_nil, Option.elim_some, List.filterMap_flatMap, hsection]
    rw [Outline.namesOf_part (s := .methods) rfl]
    simp [outlinedSections]

/-- A callable of a section that is no entrypoint is a method that the section declares. -/
theorem Section.exists_method_of_callable {s : Section} {value : Tree} {owner : String}
    {kind : Graph.Kind} {body : Tree} (h : .callable owner kind body false ∈ s.findings value) :
    ∃ name, .method name ∈ s.findings value ∧ owner = methodId name := by
  by_cases hs : s = .methods
  · subst hs
    change _ ∈ entriesFindings "methods" "method" Methods.methodFindings value at h
    change ∃ name, .method name ∈
      entriesFindings "methods" "method" Methods.methodFindings value ∧ _
    unfold entriesFindings at h ⊢
    split at h
    · next hhash =>
      rw [if_pos hhash]
      simp only [List.mem_append, List.mem_flatMap, List.mem_singleton, reduceCtorEq,
        or_false] at h ⊢
      rcases h with h | ⟨e, he, h⟩
      · exact absurd h ((Plain.ofIssues _).not_mem owner kind body)
      · refine ⟨e.name, .inr ⟨e, he, List.mem_cons_self⟩, ?_⟩
        unfold Methods.methodFindings at h
        split at h
        · simp only [List.mem_cons, reduceCtorEq, Finding.callable.injEq, List.not_mem_nil,
            or_false, false_or] at h
          exact h.1
        · simp at h
    · simp at h
  · exact absurd h ((Plain.ofSection hs value).not_mem owner kind body)

/-- A callable of a source that is no entrypoint is a method that the source declares. -/
theorem Tree.exists_method_of_callable {program : Tree} {owner : String} {kind : Graph.Kind}
    {body : Tree} (h : .callable owner kind body false ∈ program.findings) :
    ∃ name, .method name ∈ program.findings ∧ owner = methodId name := by
  have hissues : ∀ issues : List Issue,
      .callable owner kind body false ∉ issues.map Finding.issue :=
    fun issues => (Plain.ofIssues issues).not_mem owner kind body
  unfold Tree.findings Tree.findingsWith at h ⊢
  cases hdocument : program.document? with
  | none =>
    rw [hdocument] at h
    simp at h
  | some document =>
    rw [hdocument] at h
    simp only [Option.elim_some, Tree.documentFindings, List.mem_append, hissues, false_or,
      or_false, List.mem_flatMap] at h ⊢
    obtain ⟨s, hs, h⟩ := h
    cases hvalue : s.value? document with
    | none =>
      rw [hvalue] at h
      cases h
    | some value =>
      rw [hvalue] at h
      obtain ⟨name, hname, howner⟩ := s.exists_method_of_callable h
      refine ⟨name, .inr (.inl (.inl (.inr ⟨s, hs, ?_⟩))), howner⟩
      rw [hvalue]
      exact hname

/-! ## reports -/

namespace Report

variable {home : String → Prop} {s : Survey}

/-- An entry point has the complexity of its paths, and nothing else has one. -/
theorem get?_complexities (graph : Graph) (entrypoints : List String) (limits : PathLimits)
    (id : String) :
    (complexities graph entrypoints limits).get? id =
      if id ∈ entrypoints then some (graph.complexity (graph.paths id limits)) else none := by
  rw [complexities, Table.get?_ofList_map]
  rfl

/-- All entrypoints of a rooted survey are nodes, so that its report has them all. -/
theorem entrypoints_ofSurvey (h : s.Rooted home) (limits : PathLimits) :
    (ofSurvey s limits).entrypoints = s.entrypoints :=
  List.filter_eq_self.2 fun id hid => Graph.contains_iff.2 (h.entry_mem id hid)

/-- What cannot be reached is what no entry point leads to. -/
theorem mem_unreachable_iff (h : s.Rooted home) (limits : PathLimits) {id : String} :
    id ∈ (ofSurvey s limits).unreachable ↔
      id ∈ s.graph.ids ∧ ∀ entry ∈ s.entrypoints, ¬s.graph.Reaches entry id := by
  have hentries : s.entrypoints.filter s.graph.contains = s.entrypoints :=
    entrypoints_ofSurvey h limits
  simp only [ofSurvey, hentries, List.mem_filter, Bool.not_eq_true', List.contains_eq_mem,
    decide_eq_false_iff_not, h.wellFormed.mem_reachable_iff, not_exists, not_and]
  refine and_congr_right fun _ => forall_congr' fun entry => forall_congr' fun hentry => ?_
  simp [h.entry_mem entry hentry]

/-- What is unreachable is a home, or is called from one that is unreachable. -/
theorem home_of_mem_unreachable (h : s.Rooted home) (limits : PathLimits) {id : String}
    (hid : id ∈ (ofSurvey s limits).unreachable) :
    home id ∨ ∃ e ∈ s.graph.edges, e.target = id ∧ home e.source ∧
      e.source ∈ (ofSurvey s limits).unreachable := by
  obtain ⟨hnode, hnot⟩ := (mem_unreachable_iff h limits).1 hid
  rcases h.node id hnode with hentry | hhome | ⟨e, he, rfl⟩
  · exact absurd Relation.ReflTransGen.refl (hnot id hentry)
  · exact .inl hhome
  · refine .inr ⟨e, he, rfl, ?_⟩
    have hjoins : s.graph.Joins e.source e.target := ⟨e, he, rfl, rfl⟩
    have hsource : ∀ entry ∈ s.entrypoints, ¬s.graph.Reaches entry e.source :=
      fun entry hentry hreach => hnot entry hentry (hreach.tail hjoins)
    rcases h.source e he with hentry | hhome
    · exact absurd Relation.ReflTransGen.refl (hsource e.source hentry)
    · exact ⟨hhome, (mem_unreachable_iff h limits).2 ⟨(h.wellFormed.ends e he).1, hsource⟩⟩

end Report

/-! ## audits -/

namespace Audit

/-- The survey of a parsed source is rooted in its entrypoints and the methods it declares. -/
theorem rooted_gathered (parsed : Parsed) :
    (gathered parsed).Rooted fun id => ∃ m ∈ (gathered parsed).methods, id = methodId m := by
  refine (Survey.Rooted.newSurvey _ parsed 0).addAll fun owner kind body hmem => ?_
  obtain ⟨name, hname, howner⟩ := Tree.exists_method_of_callable hmem
  refine ⟨name, ?_, howner⟩
  rw [gathered, Survey.methods_addAll]
  exact List.mem_append_right _ (List.mem_filterMap.2 ⟨_, hname, rfl⟩)

/-- The methods of the root are those that were gathered. -/
theorem namesOf_root_ofParsed (parsed : Parsed) (settings : Settings) :
    (ofParsed parsed settings).root.namesOf .method = (gathered parsed).methods := by
  rw [ofParsed_eq, gathered, Survey.methods_addAll,
    Tree.filterMap_method?_findings settings.filename]
  rfl

/-- **Entrypoints.** In the audit of a source that parses, each entrypoint is a node, listed once,
with a record of what it sets in motion, and none is unreachable; an edge starts at an entrypoint or
at a declared method; and what is unreachable is a declared method, or an edge leads to it from one
that is unreachable. -/
theorem rooted_ofSource {source : String} {parsed : Parsed}
    (h : Parsed.ofSource source = .ok parsed) (settings : Settings) :
    let audit := ofSource source settings
    let declared := audit.root.namesOf .method
    audit.report.entrypoints.Nodup ∧
      (∀ id ∈ audit.report.entrypoints, id ∈ audit.graph.ids ∧
        audit.report.complexity.get? id =
          some (audit.graph.complexity (audit.graph.paths id settings.limits)) ∧
        id ∉ audit.report.unreachable) ∧
      (∀ e ∈ audit.graph.edges, e.source ∈ audit.report.entrypoints ∨
        ∃ m ∈ declared, e.source = methodId m) ∧
      ∀ id ∈ audit.report.unreachable, (∃ m ∈ declared, id = methodId m) ∨
        ∃ e ∈ audit.graph.edges, e.target = id ∧ ∃ m ∈ declared, e.source = methodId m ∧
          methodId m ∈ audit.report.unreachable := by
  intro audit declared
  have hrooted := rooted_gathered parsed
  have haudit : audit = ofParsed parsed settings := by
    simp only [audit, ofSource, h]
  have hdeclared : declared = (gathered parsed).methods := by
    rw [← namesOf_root_ofParsed parsed settings, ← haudit]
  have hentrypoints : audit.report.entrypoints =
      (gathered parsed).entrypoints := by
    rw [haudit, ofParsed_eq]
    exact Report.entrypoints_ofSurvey hrooted settings.limits
  rw [hdeclared, hentrypoints, haudit, ofParsed_eq]
  refine ⟨hrooted.nodup, fun id hid => ⟨hrooted.entry_mem id hid, ?_, ?_⟩, hrooted.source, ?_⟩
  · have hmem : id ∈ (Report.ofSurvey _ settings.limits).entrypoints :=
      (Report.entrypoints_ofSurvey hrooted settings.limits).symm ▸ hid
    exact (Report.get?_complexities ..).trans (if_pos hmem)
  · intro hnot
    have hunreached := ((Report.mem_unreachable_iff hrooted settings.limits).1 hnot).2
    exact hunreached id hid Relation.ReflTransGen.refl
  · intro id hid
    refine (Report.home_of_mem_unreachable hrooted settings.limits hid).imp_right ?_
    rintro ⟨e, he, htarget, ⟨m, hm, hsource⟩, hunreached⟩
    exact ⟨e, he, htarget, m, hm, hsource, hsource ▸ hunreached⟩

/-- A test that calls one method, and a method that nothing calls and that calls another one, which
sends a request. -/
def deadMethods : String :=
  "\x7b test: lambda do call('c') end, methods: \x7b a: lambda do call('b') end, " ++
    "b: lambda do get('/u') end, c: 1 \x7d \x7d"

/-- The request is unreachable and no declared method, so that an edge leads to it from a declared
method that is unreachable too. -/
theorem rooted_deadMethods :
    ∃ parsed, Parsed.ofSource deadMethods = .ok parsed ∧
      (ofSource deadMethods {}).report.entrypoints = ["connector#test"] ∧
      (ofSource deadMethods {}).root.namesOf .method = ["a", "b", "c"] ∧
      "method:b::http#get(/u)" ∈ (ofSource deadMethods {}).report.unreachable ∧
      ∃ e ∈ (ofSource deadMethods {}).graph.edges, e.target = "method:b::http#get(/u)" ∧
        ∃ m ∈ ["a", "b", "c"], e.source = methodId m ∧
          methodId m ∈ (ofSource deadMethods {}).report.unreachable := by
  have hfound : (Parsed.ofSource deadMethods).toOption.map (fun parsed =>
      let s := gathered parsed
      (s.entrypoints, s.methods, s.graph.ids, s.graph.edges.map fun e => (e.source, e.target))) =
        some (["connector#test"], ["a", "b", "c"],
          ["connector#test", "method:c", "method:a", "method:b", "method:b::http#get(/u)"],
          [("connector#test", "method:c"), ("method:a", "method:b"),
            ("method:b", "method:b::http#get(/u)")]) := by
    decide +kernel
  obtain ⟨parsed, hparse, hfound⟩ := exists_of_map_toOption hfound
  simp only [Prod.mk.injEq] at hfound
  obtain ⟨hentries, hmethods, hids, hedges⟩ := hfound
  have hrooted := rooted_gathered parsed
  have hall := rooted_ofSource hparse {}
  have haudit : ofSource deadMethods {} = ofParsed parsed {} := by
    simp only [ofSource, hparse]
  have hreported : (ofSource deadMethods {}).report.entrypoints = ["connector#test"] := by
    rw [haudit, ofParsed_eq, ← hentries]
    exact Report.entrypoints_ofSurvey hrooted _
  have hdeclared : (ofSource deadMethods {}).root.namesOf .method = ["a", "b", "c"] := by
    rw [haudit, namesOf_root_ofParsed, hmethods]
  -- No edge leads out of what the test reaches.
  have hclosed : ∀ id,
      (gathered parsed).graph.Reaches "connector#test" id →
        id = "connector#test" ∨ id = "method:c" := by
    intro id hreach
    induction hreach with
    | refl => exact .inl rfl
    | tail _ hstep ih =>
      obtain ⟨e, he, rfl, rfl⟩ := hstep
      have hmem := List.mem_map_of_mem (f := fun e : Graph.Edge => (e.source, e.target)) he
      rw [hedges] at hmem
      simp only [List.mem_cons, Prod.mk.injEq, List.not_mem_nil, or_false] at hmem
      rcases hmem with ⟨hs, ht⟩ | ⟨hs, ht⟩ | ⟨hs, ht⟩ <;> simp_all
  have hdead : "method:b::http#get(/u)" ∈ (ofSource deadMethods {}).report.unreachable := by
    rw [haudit, ofParsed_eq]
    refine (Report.mem_unreachable_iff hrooted _).2
      ⟨hids ▸ by simp, fun entry hentry hreach => ?_⟩
    rw [hentries] at hentry
    obtain rfl := List.mem_singleton.1 hentry
    exact absurd (hclosed _ hreach) (by decide)
  refine ⟨parsed, hparse, hreported, hdeclared, hdead, ?_⟩
  rw [← hdeclared]
  refine (hall.2.2.2 _ hdead).resolve_left ?_
  rw [hdeclared]
  decide

end Audit

end ConnectorAudit
