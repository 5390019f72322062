import Mathlib.Data.List.Induction
import ConnectorAudit.Proofs.MethodIssues

/-!
# References to names that nothing declares

A document refers to an object definition by looking up its name in
`object_definitions`, and to a pick list by a pair with the key `pick_list`; both
may stand anywhere in it.  What is declared is read off the outline.  The names
that are referred to and not declared are reported once each, in the order in
which a walk through the document meets them first, at the node that it meets.

* `Tree.refersToObject_iff`, `Tree.refersToPickList_iff`: what a reference looks like;
* `Tree.FirstReferences.concat_of_mem`, `Tree.FirstReferences.concat_of_not_mem`: one node more;
* `Tree.firstReferences_collect`: a whole walk;
* `Tree.withCode_buildFindings`: nothing else that building an outline finds has these codes;
* `Audit.checksReferences`: hence the issues of a build and of an audit.
-/

namespace ConnectorAudit

/-! ## what a reference looks like -/

namespace Tree

/-- The node is a string or a symbol with this fixed text. -/
def Literally (t : Tree) (text : String) : Prop :=
  t.kind = .literal (.string text) ∨ t.kind = .literal (.symbol text)

/-- The node looks a name up in the object definitions: it is a call of `[]` on the bare name
`object_definitions`, and its first argument is the literal name. -/
def RefersToObject (t : Tree) (name : String) : Prop :=
  ∃ more block receiver arg rest, t.kind = .call "[]" true (more + 1) block ∧
    t.children = receiver :: arg :: rest ∧ receiver.kind = .identifier "object_definitions" ∧
    arg.Literally name

/-- The node is a pair of the key `pick_list` and the literal name. -/
def RefersToPickList (t : Tree) (name : String) : Prop :=
  ∃ key value, t.kind = .pair ∧ t.children = [key, value] ∧ key.Literally "pick_list" ∧
    value.Literally name

/-- What is literally a text is its name. -/
theorem literally_iff {t : Tree} {text : String} :
    t.Literally text ↔ t.literalName? = some text := by
  unfold Literally literalName?
  split <;> simp_all

/-- The first argument of a call that has a receiver. -/
theorem head?_args {t : Tree} {name : String} {n : Nat} {block : Bool}
    (hkind : t.kind = .call name true n block) (arg : Tree) :
    t.args.head? = some arg ↔ n ≠ 0 ∧ t.children[1]? = some arg := by
  have hargs : t.args = (t.children.drop 1).take n := by
    rw [args, hkind]
    rfl
  rw [hargs, List.head?_take]
  by_cases hn : n = 0 <;> simp [hn]

/-- A node refers to an object where one is read off it. -/
theorem refersToObject_iff (t : Tree) (name : String) :
    t.RefersToObject name ↔ t.objectReference? = some name := by
  constructor
  · rintro ⟨more, block, receiver, arg, rest, hkind, hchildren, hreceiver, harg⟩
    simpa [objectReference?, receiver?, args, hkind, hchildren, hreceiver] using
      literally_iff.1 harg
  · intro h
    unfold objectReference? at h
    split at h
    · next receiver n block hkind =>
      split at h
      · next hobjects =>
        obtain ⟨r, hr, hname⟩ := (Option.any_eq_true _ _).1 hobjects
        obtain ⟨arg, harg, htext⟩ := Option.bind_eq_some_iff.1 h
        cases receiver with
        | false => simp [receiver?, hkind] at hr
        | true =>
          obtain ⟨hn, harg⟩ := (head?_args hkind arg).1 harg
          obtain ⟨more, rfl⟩ := Nat.exists_eq_succ_of_ne_zero hn
          have hchildren : ∃ rest, t.children = r :: arg :: rest := by
            simp only [receiver?, hkind] at hr
            match hall : t.children, hr, harg with
            | _ :: _ :: rest, rfl, rfl => exact ⟨rest, rfl⟩
          obtain ⟨rest, hchildren⟩ := hchildren
          exact ⟨more, block, r, arg, rest, hkind, hchildren, beq_iff_eq.1 hname,
            literally_iff.2 htext⟩
      · cases h
    · cases h

/-- A node refers to a pick list where one is read off it. -/
theorem refersToPickList_iff (t : Tree) (name : String) :
    t.RefersToPickList name ↔ t.pickListReference? = some name := by
  constructor
  · rintro ⟨key, value, hkind, hchildren, hkey, hvalue⟩
    simp [pickListReference?, keyValue?, hkind, hchildren, literally_iff.1 hkey,
      literally_iff.1 hvalue]
  · intro h
    unfold pickListReference? keyValue? at h
    split at h
    · next key value hpair =>
      split at hpair
      · next hkind hchildren =>
        obtain ⟨rfl, rfl⟩ := Prod.mk.inj (Option.some.inj hpair)
        split at h
        · next hkey =>
          exact ⟨_, _, hkind, hchildren, literally_iff.2 hkey, literally_iff.2 h⟩
        · cases h
      · cases hpair
    · cases h

/-! ## first references -/

/-- A node among others is the first that refers to a name. -/
def IsFirst (Refers : Tree → String → Prop) (nodes : List Tree) (name : String) (t : Tree) : Prop :=
  ∃ before after, nodes = before ++ t :: after ∧ Refers t name ∧ ∀ u ∈ before, ¬Refers u name

/-- Of the names that nodes refer to, those in a class: each once, with the place of the first node
that refers to it, in the order of these nodes. -/
structure FirstReferences (Refers : Tree → String → Prop) (nodes : List Tree)
    (Among : String → Prop) (found : List (String × Location)) : Prop where
  nodup : (found.map Prod.fst).Nodup
  mem_iff : ∀ name loc, (name, loc) ∈ found ↔
    Among name ∧ ∃ t, IsFirst Refers nodes name t ∧ t.span.location = loc
  /-- Some front of the nodes refers to the one name and not yet to the other. -/
  ordered : found.Pairwise fun e e' => ∃ front, front <+: nodes ∧
    (∃ t ∈ front, Refers t e.1) ∧ ∀ t ∈ front, ¬Refers t e'.1

section FirstReferences

variable {Refers : Tree → String → Prop} {nodes : List Tree} {found : List (String × Location)}
  {name : String}

/-- There is a first node for what some node refers to. -/
theorem exists_isFirst_iff : (∃ t, IsFirst Refers nodes name t) ↔ ∃ t ∈ nodes, Refers t name := by
  classical
  constructor
  · rintro ⟨t, before, after, rfl, ht, -⟩
    exact ⟨t, by simp, ht⟩
  · rintro ⟨t, ht, hname⟩
    have hsome : (nodes.find? fun u => decide (Refers u name)).isSome :=
      List.find?_isSome.2 ⟨t, ht, decide_eq_true hname⟩
    obtain ⟨u, hu⟩ := Option.isSome_iff_exists.1 hsome
    obtain ⟨hrefers, before, after, rfl, hbefore⟩ := List.find?_eq_some_iff_append.1 hu
    exact ⟨u, before, after, rfl, by simpa using hrefers, fun v hv => by simpa using hbefore v hv⟩

/-- With one node more, it is the first if no node before it is. -/
theorem isFirst_concat_iff {t u : Tree} :
    IsFirst Refers (nodes ++ [t]) name u ↔
      IsFirst Refers nodes name u ∨ (u = t ∧ Refers t name ∧ ∀ v ∈ nodes, ¬Refers v name) := by
  constructor
  · rintro ⟨before, after, heq, hu, hbefore⟩
    rcases List.eq_nil_or_concat after with rfl | ⟨after, last, rfl⟩
    · obtain ⟨rfl, hlast⟩ := List.append_inj' heq rfl
      obtain rfl : t = u := by simpa using hlast
      exact .inr ⟨rfl, hu, hbefore⟩
    · rw [List.concat_eq_append, ← List.cons_append, ← List.append_assoc] at heq
      exact .inl ⟨before, after, (List.append_inj' heq rfl).1, hu, hbefore⟩
  · rintro (⟨before, after, rfl, hu, hbefore⟩ | ⟨rfl, hu, hbefore⟩)
    · exact ⟨before, after ++ [t], by simp, hu, hbefore⟩
    · exact ⟨nodes, [], rfl, hu, hbefore⟩

/-- A class of names leaves out the names that are not in it. -/
theorem FirstReferences.filter (h : FirstReferences Refers nodes (fun _ => True) found)
    (p : String → Bool) :
    FirstReferences Refers nodes (fun name => p name = true) (found.filter fun e => p e.1) where
  nodup := h.nodup.sublist (List.filter_sublist.map Prod.fst)
  mem_iff name loc := by
    rw [List.mem_filter, h.mem_iff, true_and, and_comm]
  ordered := h.ordered.sublist List.filter_sublist

/-- One node more adds its reference, unless a node before it has the name. -/
theorem FirstReferences.concat_of_mem (h : FirstReferences Refers nodes (fun _ => True) found)
    {t : Tree} (ht : ∀ name, Refers t name → ∃ u ∈ nodes, Refers u name) :
    FirstReferences Refers (nodes ++ [t]) (fun _ => True) found where
  nodup := h.nodup
  mem_iff name loc := by
    have hsame : ∀ u, IsFirst Refers (nodes ++ [t]) name u ↔ IsFirst Refers nodes name u := by
      intro u
      rw [isFirst_concat_iff]
      refine or_iff_left ?_
      rintro ⟨-, hname, hnone⟩
      obtain ⟨v, hv, hrefers⟩ := ht name hname
      exact hnone v hv hrefers
    simp only [h.mem_iff, hsame]
  ordered := h.ordered.imp fun ⟨front, hfront, hrefers⟩ =>
    ⟨front, hfront.trans (List.prefix_append ..), hrefers⟩

/-- A node that refers to something new adds it at the end. -/
theorem FirstReferences.concat_of_not_mem (h : FirstReferences Refers nodes (fun _ => True) found)
    {t : Tree} (ht : ∀ other, Refers t other ↔ other = name)
    (hnew : ∀ u ∈ nodes, ¬Refers u name) :
    FirstReferences Refers (nodes ++ [t]) (fun _ => True)
      (found ++ [(name, t.span.location)]) where
  nodup := by
    rw [List.map_append, List.nodup_append]
    refine ⟨h.nodup, by simp, ?_⟩
    rintro other hother last hlast rfl
    obtain rfl : other = name := by simpa using hlast
    obtain ⟨⟨_, loc⟩, hmem, rfl⟩ := List.mem_map.1 hother
    obtain ⟨-, u, hfirst, -⟩ := (h.mem_iff _ _).1 hmem
    obtain ⟨v, hv, hrefers⟩ := exists_isFirst_iff.1 ⟨u, hfirst⟩
    exact hnew v hv hrefers
  mem_iff other loc := by
    rw [List.mem_append, h.mem_iff]
    simp only [isFirst_concat_iff, ht, true_and, List.mem_singleton, Prod.mk.injEq]
    constructor
    · rintro (⟨u, hfirst, rfl⟩ | ⟨rfl, rfl⟩)
      · exact ⟨u, .inl hfirst, rfl⟩
      · exact ⟨t, .inr ⟨rfl, rfl, hnew⟩, rfl⟩
    · rintro ⟨u, hfirst | ⟨rfl, rfl, -⟩, rfl⟩
      · exact .inl ⟨u, hfirst, rfl⟩
      · exact .inr ⟨rfl, rfl⟩
  ordered := by
    refine List.pairwise_append.2 ⟨?_, List.pairwise_singleton .., ?_⟩
    · exact h.ordered.imp fun ⟨front, hfront, hrefers⟩ =>
        ⟨front, hfront.trans (List.prefix_append ..), hrefers⟩
    · rintro ⟨other, loc⟩ hother last hlast
      obtain rfl := List.mem_singleton.1 hlast
      obtain ⟨-, u, hfirst, -⟩ := (h.mem_iff _ _).1 hother
      exact ⟨nodes, List.prefix_append .., exists_isFirst_iff.1 ⟨u, hfirst⟩, hnew⟩

end FirstReferences

/-! ## collecting references -/

section Collecting

variable {Refers : Tree → String → Prop} {reference? : Tree → Option String}

/-- A node more is noted if what it refers to is new. -/
theorem collect_concat (nodes : List Tree) (t : Tree) :
    collect reference? (nodes ++ [t]) = (reference? t).elim (collect reference? nodes) fun name =>
      noteFirst (collect reference? nodes) name t.span.location :=
  List.foldl_concat ..

/-- A walk collects first references, whatever nodes it meets. -/
theorem firstReferences_collect (hrefers : ∀ t name, Refers t name ↔ reference? t = some name)
    (nodes : List Tree) :
    FirstReferences Refers nodes (fun _ => True) (collect reference? nodes) := by
  -- The walk adds nodes at the end, so the induction is on the nodes met so far.
  induction nodes using List.reverseRecOn with
  | nil => exact ⟨.nil, by simp [collect, IsFirst], .nil⟩
  | append_singleton nodes t ih =>
    rw [collect_concat]
    cases ht : reference? t with
    | none => exact ih.concat_of_mem fun name h => by simp [hrefers, ht] at h
    | some name =>
      have hone : ∀ other, Refers t other ↔ other = name := by simp [hrefers, ht, eq_comm]
      have hmet : (collect reference? nodes).any (name == ·.1) = true ↔
          ∃ u ∈ nodes, Refers u name := by
        rw [← exists_isFirst_iff]
        simp [List.any_eq_true, ih.mem_iff]
      by_cases h : (collect reference? nodes).any (name == ·.1) = true
      · rw [Option.elim_some, noteFirst, if_pos h]
        exact ih.concat_of_mem fun other hother => (hone other).1 hother ▸ hmet.1 h
      · rw [Option.elim_some, noteFirst, if_neg h]
        exact ih.concat_of_not_mem hone (by simpa using mt hmet.2 h)

/-- The references that are not declared. -/
theorem firstReferences_undeclared
    (hrefers : ∀ t name, Refers t name ↔ reference? t = some name) (document : Tree)
    (declared : List String) :
    FirstReferences Refers document.preorder (· ∉ declared)
      ((collect reference? document.preorder).filter fun e => !declared.contains e.1) := by
  simpa using
    (firstReferences_collect hrefers document.preorder).filter fun name => !declared.contains name

end Collecting

end Tree

/-! ## issues -/

/-- The issues of a document account for its references: those of both kinds are the issues of the
first references to names that the outline does not declare. -/
structure ChecksReferences (document : Tree) (outline : Outline) (issues : List Issue) : Prop where
  objects : ∃ found, Issue.withCode issues "missing_object_definition" =
      found.map Issue.missingObject ∧
    Tree.FirstReferences Tree.RefersToObject document.preorder
      (· ∉ outline.namesOf .objectDefinition) found
  pickLists : ∃ found, Issue.withCode issues "missing_pick_list" =
      found.map Issue.missingPickList ∧
    Tree.FirstReferences Tree.RefersToPickList document.preorder
      (· ∉ outline.namesOf .pickList) found

namespace Tree

/-- What the passes over a source and its document give and gather under a cap. -/
def build (filename : String) (cap : Nat) (program document : Tree) : Outline × Survey :=
  (Outline.survey filename program (some document)).run (.ofCap cap)

def buildLog (cap : Nat) (program document : Tree) : IssueLog :=
  (build "" cap program document).2.log

/-- A document is built by adding its findings to an empty survey. -/
theorem build_eq (filename : String) (cap : Nat) (program document : Tree) :
    build filename cap program document = (.ofDocument filename document,
      (Survey.ofCap cap).addAll (program.findingsWith (some document))) :=
  (Outline.finds_survey filename program (some document)).run_eq (.ofCap cap)

/-- The log of a build is that of the issues of its findings. -/
theorem buildLog_eq (cap : Nat) (program document : Tree) :
    buildLog cap program document =
      .ofIssues cap ((program.findingsWith (some document)).flatMap Finding.issues) := by
  rw [buildLog, build_eq]
  exact Survey.log_addAll ..

/-- The codes of what is found before the references are looked at. -/
def earlierCodes : List String :=
  "dangerous_xstr" :: "dangerous_call" :: "unknown_root_key" ::
    outlinedSections.flatMap Section.codes

/-- What is found before the references has codes of its own. -/
theorem withCode_findingsWith {code : String} (hcode : code ∉ earlierCodes) (filename : String)
    (program document : Tree) :
    Issue.withCode ((program.findingsWith (some document)).flatMap Finding.issues) code =
      Issue.withCode (document.objectIssues
          ((Outline.ofDocument filename document).namesOf .objectDefinition)) code ++
        Issue.withCode (document.pickListIssues
          ((Outline.ofDocument filename document).namesOf .pickList)) code := by
  have hcommands : CodedIn earlierCodes (program.commandIssues.map .issue) :=
    (CodedIn.commands program).mono (by simp [earlierCodes])
  have hkeys : CodedIn earlierCodes (document.unknownKeyIssues.map .issue) :=
    (CodedIn.unknownKeys document).mono (by simp [earlierCodes])
  have hsections : CodedIn earlierCodes
      (outlinedSections.flatMap fun s => (s.value? document).elim [] s.findings) := by
    refine CodedIn.flatMap fun s hs => ?_
    cases s.value? document with
    | none => exact CodedIn.none (by simp)
    | some value =>
      refine (CodedIn.ofSection s value).mono fun code hcode => ?_
      exact List.mem_cons_of_mem _ (List.mem_cons_of_mem _ (List.mem_cons_of_mem _
        (List.mem_flatMap.2 ⟨s, hs, hcode⟩)))
  have hearlier := ((hcommands.append hkeys).append hsections).withCode_eq_nil hcode
  have hcall : code ≠ "dangerous_call" := by
    rintro rfl
    exact hcode (by simp [earlierCodes])
  -- The name of the file is kept in the outline, and has no part in what is declared.
  have hobjects : (Outline.ofDocument filename document).namesOf .objectDefinition =
      (Outline.ofDocument "" document).namesOf .objectDefinition := by
    rw [Outline.namesOf_part (s := .objectDefinitions) rfl,
      Outline.namesOf_part (s := .objectDefinitions) rfl]
  have hlists : (Outline.ofDocument filename document).namesOf .pickList =
      (Outline.ofDocument "" document).namesOf .pickList := by
    rw [Outline.namesOf_part (s := .pickLists) rfl, Outline.namesOf_part (s := .pickLists) rfl]
  rw [Finding.withCode_flatMap_issues hcall, findingsWith, Option.elim_some, documentFindings,
    hobjects, hlists]
  simp only [List.filterMap_append, Issue.withCode_append, Finding.filterMap_issue?,
    List.append_eq_nil_iff] at hearlier ⊢
  obtain ⟨⟨hcommands, hkeys⟩, hsections⟩ := hearlier
  rw [hcommands, hkeys, hsections]
  rfl

end Tree

/-- Issues account for the references of a document if they have those issues about references that
are raised while its outline is built. -/
theorem checksReferences_of_withCode {document : Tree} {issues : List Issue} (filename : String)
    (program : Tree)
    (h : ∀ code ∈ ["missing_object_definition", "missing_pick_list"],
      Issue.withCode issues code =
        Issue.withCode ((program.findingsWith (some document)).flatMap Finding.issues) code) :
    ChecksReferences document (.ofDocument filename document) issues where
  objects := by
    refine ⟨_, ?_, Tree.firstReferences_undeclared Tree.refersToObject_iff document _⟩
    rw [h _ (by simp), Tree.withCode_findingsWith (by decide) filename, Tree.objectIssues,
      Tree.pickListIssues, Tree.undeclaredIssues, Tree.undeclaredIssues,
      Issue.withCode_map "missing_object_definition" (fun _ => rfl),
      Issue.withCode_map "missing_pick_list" (fun _ => rfl)]
    simp
  pickLists := by
    refine ⟨_, ?_, Tree.firstReferences_undeclared Tree.refersToPickList_iff document _⟩
    rw [h _ (by simp), Tree.withCode_findingsWith (by decide) filename, Tree.objectIssues,
      Tree.pickListIssues, Tree.undeclaredIssues, Tree.undeclaredIssues,
      Issue.withCode_map "missing_object_definition" (fun _ => rfl),
      Issue.withCode_map "missing_pick_list" (fun _ => rfl)]
    simp

/-! ## audits -/

/-- If nothing is suppressed the log has the issues of all findings. -/
theorem Tree.toList_buildLog {cap : Nat} {program document : Tree}
    (h : (buildLog cap program document).suppressed = 0) :
    (buildLog cap program document).issues.toList =
      (program.findingsWith (some document)).flatMap Finding.issues := by
  rw [buildLog_eq] at h ⊢
  rw [IssueLog.suppressed_ofIssues] at h
  exact IssueLog.issues_ofIssues (Nat.le_of_sub_eq_zero h)

namespace Audit

variable {parsed : Parsed} {document : Tree}

/-- An audit has what is logged while the outline is built, and then some of the report. -/
theorem exists_issues_ofParsed (settings : Settings)
    (hdocument : parsed.tree.document? = some document) :
    ∃ rest, rest.Sublist (Report.issues (gathered parsed)) ∧
      (ofParsed parsed settings).issues =
        (Tree.buildLog settings.maxWarnings parsed.tree document).issues.toList ++ rest := by
  have hfindings : parsed.tree.findings = parsed.tree.findingsWith (some document) :=
    congrArg _ hdocument
  have hrun : (ofParsed parsed settings).issues =
      ((Tree.buildLog settings.maxWarnings parsed.tree document).append
        (Report.issues (gathered parsed))).issues.toList := by
    rw [ofParsed_eq, Tree.buildLog_eq, ← hfindings, ← IssueLog.ofIssues_append]
    rfl
  rw [hrun, IssueLog.toList_append]
  exact ⟨_, IssueLog.kept_sublist .., rfl⟩

/-- The root of an audit is the outline of its document. -/
theorem root_ofParsed (settings : Settings) (hdocument : parsed.tree.document? = some document) :
    (ofParsed parsed settings).root = .ofDocument settings.filename document := by
  rw [ofParsed_eq, hdocument]
  rfl

/-- A report says nothing about references. -/
theorem withCode_append_report {issues rest : List Issue} {s : Survey}
    (hrest : rest.Sublist (Report.issues s)) {code : String}
    (hcode : code ∈ ["missing_object_definition", "missing_pick_list"]) :
    Issue.withCode (issues ++ rest) code = Issue.withCode issues code := by
  have hnone : Issue.withCode (Report.issues s) code = [] := by
    rw [Report.withCode_issues]
    rcases List.mem_pair.1 hcode with rfl | rfl <;> simp
  have hsub : (Issue.withCode rest code).Sublist (Issue.withCode (Report.issues s) code) :=
    hrest.filter _
  rw [hnone, List.sublist_nil] at hsub
  rw [Issue.withCode_append, hsub, List.append_nil]

/-- **References.** While the outline of a document is built, and nothing is suppressed, the issues
about object definitions are one for each name that some node of the document, at any depth, looks
up in `object_definitions` and that is not the name of an object definition in the outline; those
about pick lists are one for each name that some pair with the key `pick_list` has as its value and
that is not the name of a pick list in the outline.  Each stands at the first such node, in the
order of these nodes.  So it is in the whole audit of a source that holds the document. -/
theorem checksReferences (program document : Tree) (cap : Nat)
    (h : (Tree.buildLog cap program document).suppressed = 0) :
    (∀ filename, ChecksReferences document (Tree.build filename cap program document).1
      (Tree.buildLog cap program document).issues.toList) ∧
    ∀ parsed settings, parsed.tree = program → program.document? = some document →
      settings.maxWarnings = cap →
        ChecksReferences document (ofParsed parsed settings).root
          (ofParsed parsed settings).issues := by
  refine ⟨fun filename => ?_, ?_⟩
  · rw [Tree.build_eq]
    exact checksReferences_of_withCode filename program fun code _ => by
      rw [Tree.toList_buildLog h]
  · rintro parsed settings rfl hdocument rfl
    obtain ⟨rest, hrest, hissues⟩ := exists_issues_ofParsed settings hdocument
    rw [root_ofParsed settings hdocument]
    refine checksReferences_of_withCode settings.filename parsed.tree fun code hcode => ?_
    rw [hissues, withCode_append_report hrest hcode, Tree.toList_buildLog h]

/-- References in a hash, in an interpolation, among keyword arguments and in a block, one of them
repeated and one to a definition that is declared. -/
def scatteredReferences : String :=
  "\x7bobject_definitions: \x7ba: \x7bpick_list: :k\x7d\x7d, test: lambda do " ++
    "\"#\x7bobject_definitions[:b]\x7d\".f(pick_list: 'k') \x7b object_definitions[:a] \x7d end\x7d"

/-- What is missing there. -/
def scatteredIssues : List Issue :=
  [.missingObject ("b", ⟨some 1, some 62, some 22⟩),
    .missingPickList ("k", ⟨some 1, some 26, some 13⟩)]

/-- One object definition and one pick list are missing, and a cap of one warning suffices. -/
theorem checksReferences_scatteredReferences :
    ∃ parsed document, Parsed.ofSource scatteredReferences = .ok parsed ∧
      parsed.tree.document? = some document ∧
      (Tree.buildLog 1 parsed.tree document).suppressed = 0 ∧
      (Tree.buildLog 1 parsed.tree document).issues.toList = scatteredIssues ∧
      ChecksReferences document (Tree.build "" 1 parsed.tree document).1 scatteredIssues ∧
      ChecksReferences document (ofParsed parsed { maxWarnings := 1 }).root
        (ofParsed parsed { maxWarnings := 1 }).issues := by
  have hfound : ((Parsed.ofSource scatteredReferences).toOption.bind fun parsed =>
      parsed.tree.document?.map fun document =>
        (parsed.tree.findingsWith (some document)).flatMap Finding.issues) =
      some scatteredIssues := by
    decide +kernel
  obtain ⟨parsed, hparsed, hfound⟩ := Option.bind_eq_some_iff.1 hfound
  obtain ⟨document, hdocument, hissues⟩ := Option.map_eq_some_iff.1 hfound
  have hkept : (Tree.buildLog 1 parsed.tree document).suppressed = 0 := by
    rw [Tree.buildLog_eq, hissues]
    rfl
  have hlog : (Tree.buildLog 1 parsed.tree document).issues.toList = scatteredIssues := by
    rw [Tree.toList_buildLog hkept, hissues]
  obtain ⟨hbuilt, haudited⟩ := checksReferences parsed.tree document 1 hkept
  exact ⟨parsed, document, eq_ok_of_toOption hparsed, hdocument, hkept, hlog, hlog ▸ hbuilt "",
    haudited parsed { maxWarnings := 1 } rfl hdocument rfl⟩

end Audit

end ConnectorAudit
