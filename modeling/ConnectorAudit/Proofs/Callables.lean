import ConnectorAudit.Proofs.Growth
import ConnectorAudit.Proofs.Traversals
import ConnectorAudit.Survey

/-!
# What a survey records of its callables

A survey takes in callables one after the other and keeps several records at once:
call sites and counts that repeat, and a graph that does not.  Each record is a
function of the calls made: one lemma says what a single call adds to it, and a run
over a body, and then over all callables, adds this for each call.

`Survey.records_ofCallables` puts the records side by side, stated over the nodes of
the trees and without the classification of calls that the survey goes by.
-/

namespace ConnectorAudit

/-! ## one call -/

namespace Call

/-- The node that a call of a callable leads to. -/
def target? (owner : String) : Call → Option Graph.Node
  | .http verb url => some (Survey.requestNode owner verb url)
  | .method name => some ⟨methodId name, methodId name, .method⟩
  | .dynamicMethod | .dangerous _ => none

/-- What a call is counted as. -/
def counter? : Call → Option String
  | .http verb _ => some ("http_" ++ verb)
  | .method _ => some "method_calls"
  | .dynamicMethod => some "dynamic_method_calls"
  | .dangerous _ => none

/-- The name of the method that a call is a site of. -/
def method? : Call → Option String
  | .method name => some name
  | .http _ _ | .dynamicMethod | .dangerous _ => none

/-- The issue that a call at a place brings. -/
def issue? (owner : String) : Call × Location → Option Issue
  | (.dangerous name, loc) => some (Survey.dangerousCallIssue owner name loc)
  | (.http _ _, _) | (.method _, _) | (.dynamicMethod, _) => none

/-- What a call leads to is described. -/
theorem kind_ne_other_of_target? {owner : String} {call : Call} {n : Graph.Node}
    (h : call.target? owner = some n) : n.kind ≠ .other := by
  cases call with
  | http verb url =>
    obtain rfl := Option.some.inj h
    simp [Survey.requestNode]
  | method name =>
    obtain rfl := Option.some.inj h
    simp
  | dynamicMethod => cases h
  | dangerous name => cases h

theorem method?_eq_some_iff {call : Call} {name : String} :
    call.method? = some name ↔ call = .method name := by
  cases call <;> simp [method?]

/-- A call leads to the method or to the request that it names. -/
theorem target?_eq_some_iff {owner : String} {call : Call} {n : Graph.Node} :
    call.target? owner = some n ↔
      (∃ name, call = .method name ∧ n = ⟨methodId name, methodId name, .method⟩) ∨
        ∃ verb url, call = .http verb url ∧ n = Survey.requestNode owner verb url := by
  cases call <;> simp only [target?] <;> grind

/-- The counter of a verb is none of the others. -/
theorem httpCounter_ne {name : String} (verb : String) (h : name.toList.head? ≠ some 'h') :
    "http_" ++ verb ≠ name := by
  rintro rfl
  simp at h

/-- Requests are counted by their verbs. -/
theorem counter?_eq_http_iff {call : Call} {verb : String} :
    call.counter? = some ("http_" ++ verb) ↔ ∃ url, call = .http verb url := by
  have hmethod : "http_" ++ verb ≠ "method_calls" := httpCounter_ne verb (by decide)
  have hdynamic : "http_" ++ verb ≠ "dynamic_method_calls" := httpCounter_ne verb (by decide)
  cases call <;> simp [counter?, hmethod.symm, hdynamic.symm]

/-- All calls of methods are counted under one name. -/
theorem counter?_eq_methodCalls_iff {call : Call} :
    call.counter? = some "method_calls" ↔ call.method?.isSome := by
  cases call with
  | http verb url =>
    have hne : "http_" ++ verb ≠ "method_calls" := httpCounter_ne verb (by decide)
    simp [counter?, method?, hne]
  | method name => simp [counter?, method?]
  | dynamicMethod => simp [counter?, method?]
  | dangerous name => simp [counter?, method?]

end Call

/-! ## calls in trees -/

namespace Tree

/-- The name of a call without a receiver. -/
def callee? (t : Tree) : Option String :=
  match t.kind with
  | .call name false _ _ => some name
  | _ => none

/-- The method that a node calls by a fixed name. -/
def calledMethod? (t : Tree) : Option String :=
  if t.callee? = some "call" then t.args.head?.bind literalName? else none

/-- What a request shows of its URL. -/
def shownUrl (t : Tree) : String :=
  (t.args.head?.bind stringValue?).elim "..." fun url => String.ofList (url.toList.take 50)

/-- A node is one of three kinds of calls, by the name that it calls. -/
theorem call?_eq (t : Tree) :
    t.call? = t.callee?.bind fun name =>
      if name ∈ httpVerbs then some (.http name (t.args.head?.bind stringValue?))
      else if name = "call" then
        some ((t.args.head?.bind literalName?).elim .dynamicMethod .method)
      else if name ∈ dangerousCalls then some (.dangerous name)
      else none := by
  obtain ⟨kind, span, children⟩ := t
  cases kind with
  | call name receiver args block => cases receiver <;> simp [call?, callee?]
  | _ => rfl

/-- A request is a call of one of the verbs, with its first argument as its address if that is a
string. -/
theorem call?_eq_http_iff {t : Tree} {verb : String} {url : Option String} :
    t.call? = some (.http verb url) ↔
      verb ∈ httpVerbs ∧ t.callee? = some verb ∧ url = t.args.head?.bind stringValue? := by
  rw [call?_eq]
  cases t.callee? with
  | none => simp
  | some name =>
    by_cases hverb : name ∈ httpVerbs
    · grind
    · cases t.args.head?.bind literalName? <;> grind

/-- A call of a method is a call by `call`, with the method's name as its argument. -/
theorem call?_eq_method_iff {t : Tree} {name : String} :
    t.call? = some (.method name) ↔ t.calledMethod? = some name := by
  rw [call?_eq, calledMethod?]
  have hcall : "call" ∉ httpVerbs := by decide
  cases t.callee? with
  | none => simp
  | some callee =>
    by_cases hcallee : callee = "call"
    · cases t.args.head?.bind literalName? <;> simp [hcallee, hcall]
    · grind

/-- The calls in a body, each with its place, in the order of the source. -/
def calls (body : Tree) : List (Call × Location) :=
  body.preorder.filterMap fun t => t.call?.map fun call => (call, t.span.location)

/-- The calls of a body are those of the nodes in it. -/
theorem mem_calls_iff {body : Tree} {call : Call} {loc : Location} :
    (call, loc) ∈ body.calls ↔
      ∃ t ∈ body.preorder, t.call? = some call ∧ t.span.location = loc := by
  simp only [calls, List.mem_filterMap, Option.map_eq_some_iff, Prod.mk.injEq]
  grind

/-- The calls of methods by a fixed name, read off the nodes. -/
theorem filterMap_method?_calls (body : Tree) (owner : String) :
    (body.calls.filterMap fun call =>
        call.1.method?.map fun name => CallSite.mk owner name call.2) =
      body.preorder.filterMap fun t =>
        t.calledMethod?.map fun name => ⟨owner, name, t.span.location⟩ := by
  rw [calls, List.filterMap_filterMap]
  congr 1
  funext t
  have hmethod : t.call?.bind Call.method? = t.calledMethod? := by
    refine Option.ext fun name => ?_
    simp [← call?_eq_method_iff, Option.bind_eq_some_iff, Call.method?_eq_some_iff]
  rw [← hmethod]
  cases t.call? <;> rfl

/-- The requests counted under a verb, read off the nodes. -/
theorem countP_counter?_calls (body : Tree) {verb : String} (hverb : verb ∈ httpVerbs) :
    (body.calls.countP fun call => call.1.counter? = some ("http_" ++ verb)) =
      body.preorder.countP fun t => t.callee? = some verb := by
  rw [calls, List.countP_filterMap]
  congr 1
  funext t
  have hcounted : (∃ call, t.call? = some call ∧ call.counter? = some ("http_" ++ verb)) ↔
      t.callee? = some verb := by
    constructor
    · rintro ⟨call, hcall, hcounter⟩
      obtain ⟨url, rfl⟩ := Call.counter?_eq_http_iff.1 hcounter
      exact (call?_eq_http_iff.1 hcall).2.1
    · intro hcallee
      exact ⟨_, call?_eq_http_iff.2 ⟨hverb, hcallee, rfl⟩, Call.counter?_eq_http_iff.2 ⟨_, rfl⟩⟩
  rw [Bool.eq_iff_iff, decide_eq_true_eq, ← hcounted]
  cases t.call? <;> simp

end Tree

namespace Survey

variable {owner : String} {s : Survey}

/-- A call site is kept for a call of a method, and for no other. -/
theorem callSites_addCall (call : Call × Location) :
    (addCall owner s call).callSites =
      s.callSites ++ (call.1.method?.map fun name => ⟨owner, name, call.2⟩).toList := by
  obtain ⟨call, loc⟩ := call
  cases call <;> simp [addCall, Call.method?, link, count, addIssue]

/-- A call is counted under its own name. -/
theorem counts_addCall (call : Call × Location) (name : String) :
    ((addCall owner s call).counts.get? name).getD 0 =
      (s.counts.get? name).getD 0 + if call.1.counter? = some name then 1 else 0 := by
  obtain ⟨call, loc⟩ := call
  cases call <;>
    simp [addCall, Call.counter?, link, count, addIssue, Table.getD_get?_count, eq_comm]

/-- A call adds what it leads to, and an edge to it. -/
theorem graph_addCall (call : Call × Location) :
    (addCall owner s call).graph =
      (call.1.target? owner).elim s.graph fun n =>
        (s.graph.addNode n).addEdge (callEdge owner n.id) := by
  obtain ⟨call, loc⟩ := call
  cases call <;> rfl

/-! ## the calls of a body -/

/-- A callable is registered by adding its node and then its calls. -/
theorem register_eq (s : Survey) (owner : String) (kind : Graph.Kind) (body : Tree) :
    s.register owner kind body =
      body.calls.foldl (addCall owner)
        { s with graph := s.graph.addNode ⟨owner, owner, kind⟩ } := by
  rw [register, Tree.fold_eq, Tree.calls, List.foldl_filterMap]
  congr 1
  funext s t
  cases t.call? <;> rfl

/-- The call sites of calls come in the order of the calls. -/
theorem callSites_foldl_addCall (calls : List (Call × Location)) :
    (calls.foldl (addCall owner) s).callSites =
      s.callSites ++ calls.filterMap fun call =>
        call.1.method?.map fun name => ⟨owner, name, call.2⟩ := by
  induction calls generalizing s with
  | nil => simp
  | cons call calls ih =>
    rw [List.foldl_cons, ih, callSites_addCall, List.append_assoc, List.filterMap_cons]
    cases call.1.method? <;> simp

/-- The counters go up by the calls of their kind. -/
theorem counts_foldl_addCall (calls : List (Call × Location)) (name : String) :
    ((calls.foldl (addCall owner) s).counts.get? name).getD 0 =
      (s.counts.get? name).getD 0 + calls.countP fun call => call.1.counter? = some name := by
  induction calls generalizing s with
  | nil => simp
  | cons call calls ih =>
    rw [List.foldl_cons, ih, counts_addCall, List.countP_cons]
    simp only [decide_eq_true_eq]
    omega

/-- The edges are those there were, and one to what each call leads to. -/
theorem mem_edges_foldl_addCall {e : Graph.Edge} (calls : List (Call × Location)) :
    e ∈ (calls.foldl (addCall owner) s).graph.edges ↔
      e ∈ s.graph.edges ∨
        ∃ call ∈ calls, ∃ n, call.1.target? owner = some n ∧ e = callEdge owner n.id := by
  induction calls generalizing s with
  | nil => simp
  | cons call calls ih =>
    rw [List.foldl_cons, ih, graph_addCall]
    cases htarget : call.1.target? owner with
    | none => simp [htarget]
    | some n => simp [htarget, Graph.mem_edges_addEdge, or_assoc]

end Survey

namespace Graph

/-- A graph in which only some ids may be those of undescribed nodes. -/
structure Described (g : Graph) (exempt : String → Prop) : Prop where
  wellFormed : g.WellFormed
  exempt_of_other : ∀ n ∈ g.nodes, n.kind = .other → exempt n.id

variable {g : Graph} {exempt : String → Prop}

/-- A node that is added keeps a graph described, if its kind is known. -/
theorem Described.addNode (h : g.Described exempt) {n : Node}
    (hn : n.kind = .other → exempt n.id) : (g.addNode n).Described exempt where
  wellFormed := h.wellFormed.addNode n
  exempt_of_other m hm hkind := by
    rcases mem_of_mem_nodes_addNode hm with hm | rfl
    · exact h.exempt_of_other m hm hkind
    · exact hn hkind

/-- An edge between nodes brings nothing undescribed. -/
theorem Described.addEdge (h : g.Described exempt) {e : Edge} (hsource : e.source ∈ g.ids)
    (htarget : e.target ∈ g.ids) : (g.addEdge e).Described exempt where
  wellFormed := h.wellFormed.addEdge e
  exempt_of_other := by
    rw [nodes_addEdge_of_mem hsource htarget]
    exact h.exempt_of_other

end Graph

namespace Survey

variable {owner : String} {s : Survey} {exempt : String → Prop}

/-- A callable in the graph may call anything: what it calls is described before the edge to it
is added. -/
theorem described_addCall (h : s.graph.Described exempt) (howner : owner ∈ s.graph.ids)
    (call : Call × Location) :
    (addCall owner s call).graph.Described exempt ∧ owner ∈ (addCall owner s call).graph.ids := by
  rw [graph_addCall]
  cases htarget : call.1.target? owner with
  | none => exact ⟨h, howner⟩
  | some n =>
    have hsource : owner ∈ (s.graph.addNode n).ids := Graph.mem_ids_addNode.2 (.inl howner)
    have hends : n.id ∈ (s.graph.addNode n).ids := Graph.mem_ids_addNode.2 (.inr rfl)
    have hadded : (s.graph.addNode n).Described exempt :=
      h.addNode fun hkind => absurd hkind (Call.kind_ne_other_of_target? htarget)
    refine ⟨hadded.addEdge hsource hends, ?_⟩
    rw [Option.elim_some, Graph.ids, Graph.nodes_addEdge_of_mem hsource hends]
    exact hsource

/-- Calls keep a graph described. -/
theorem described_foldl_addCall (h : s.graph.Described exempt) (howner : owner ∈ s.graph.ids)
    (calls : List (Call × Location)) :
    (calls.foldl (addCall owner) s).graph.Described exempt := by
  induction calls generalizing s with
  | nil => exact h
  | cons call calls ih =>
    obtain ⟨hnext, hmem⟩ := described_addCall h howner call
    exact ih hnext hmem

end Survey

/-! ## callables -/

/-- A callable to be registered. -/
structure Callable where
  owner : String
  kind : Graph.Kind
  body : Tree

namespace Survey

def registerAll (s : Survey) (callables : List Callable) : Survey :=
  callables.foldl (fun s c => s.register c.owner c.kind c.body) s

variable {s : Survey}

/-- The call sites of callables come in the order of the callables. -/
theorem callSites_registerAll (callables : List Callable) :
    (s.registerAll callables).callSites =
      s.callSites ++ callables.flatMap fun c => c.body.calls.filterMap fun call =>
        call.1.method?.map fun name => ⟨c.owner, name, call.2⟩ := by
  induction callables generalizing s with
  | nil => simp [registerAll]
  | cons c callables ih =>
    rw [registerAll, List.foldl_cons, ← registerAll, ih, register_eq, callSites_foldl_addCall,
      List.flatMap_cons, List.append_assoc]

/-- The counters go up by the calls of all callables. -/
theorem counts_registerAll (callables : List Callable) (name : String) :
    ((s.registerAll callables).counts.get? name).getD 0 =
      (s.counts.get? name).getD 0 +
        (callables.flatMap (·.body.calls)).countP fun call => call.1.counter? = some name := by
  induction callables generalizing s with
  | nil => simp [registerAll]
  | cons c callables ih =>
    rw [registerAll, List.foldl_cons, ← registerAll, ih, register_eq, counts_foldl_addCall,
      List.flatMap_cons, List.countP_append, Nat.add_assoc]

/-- The edges are those there were, and those of the calls of all callables. -/
theorem mem_edges_registerAll {e : Graph.Edge} (callables : List Callable) :
    e ∈ (s.registerAll callables).graph.edges ↔
      e ∈ s.graph.edges ∨
        ∃ c ∈ callables, ∃ call ∈ c.body.calls, ∃ n,
          call.1.target? c.owner = some n ∧ e = callEdge c.owner n.id := by
  induction callables generalizing s with
  | nil => simp [registerAll]
  | cons c callables ih =>
    rw [registerAll, List.foldl_cons, ← registerAll, ih, register_eq, mem_edges_foldl_addCall]
    simp [or_assoc]

/-- Callables keep a graph described but for the exempt owners. -/
theorem described_registerAll {exempt : String → Prop} (h : s.graph.Described exempt)
    (callables : List Callable) (hexempt : ∀ c ∈ callables, c.kind = .other → exempt c.owner) :
    (s.registerAll callables).graph.Described exempt := by
  induction callables generalizing s with
  | nil => exact h
  | cons c callables ih =>
    refine ih ?_ fun d hd => hexempt d (List.mem_cons_of_mem c hd)
    simp only [register_eq]
    refine described_foldl_addCall (h.addNode (hexempt c List.mem_cons_self)) ?_ c.body.calls
    exact Graph.mem_ids_addNode.2 (.inr rfl)

/-! ## the records of a survey -/

/-- The survey of some callables that keeps so many warnings. -/
def ofCallables (cap : Nat) (callables : List Callable) : Survey :=
  (ofCap cap).registerAll callables

variable {cap : Nat}

@[simp]
theorem graph_ofCap : (ofCap cap).graph = {} := rfl

@[simp]
theorem counts_ofCap : (ofCap cap).counts = .empty := rfl

@[simp]
theorem callSites_ofCap : (ofCap cap).callSites = [] := rfl

/-- There are as many call sites as calls of methods are counted. -/
theorem length_callSites (callables : List Callable) :
    (ofCallables cap callables).callSites.length =
      (callables.flatMap (·.body.calls)).countP fun call =>
        call.1.counter? = some "method_calls" := by
  have hsite : ∀ owner, ∀ calls : List (Call × Location), (calls.filterMap fun call =>
      call.1.method?.map fun name => CallSite.mk owner name call.2).length =
        calls.countP fun call => call.1.counter? = some "method_calls" := by
    intro owner calls
    rw [List.length_filterMap_eq_countP]
    congr 1
    funext call
    rw [Option.isSome_map, Bool.eq_iff_iff, decide_eq_true_eq, Call.counter?_eq_methodCalls_iff]
  rw [ofCallables, callSites_registerAll, callSites_ofCap, List.nil_append, List.length_flatMap,
    List.countP_flatMap]
  simp only [hsite, Function.comp_def]

/-- The call sites are the calls of methods by a fixed name, in order. -/
theorem callSites_eq (callables : List Callable) :
    (ofCallables cap callables).callSites =
      callables.flatMap fun c => c.body.preorder.filterMap fun t =>
        t.calledMethod?.map fun name => ⟨c.owner, name, t.span.location⟩ := by
  rw [ofCallables, callSites_registerAll, callSites_ofCap, List.nil_append]
  simp only [Tree.filterMap_method?_calls]

/-- A call site is a call of a method that some callable makes. -/
theorem mem_callSites_iff {callables : List Callable} {site : CallSite} :
    site ∈ (ofCallables cap callables).callSites ↔
      ∃ c ∈ callables, ∃ t ∈ c.body.preorder, ∃ name, t.calledMethod? = some name ∧
        ⟨c.owner, name, t.span.location⟩ = site := by
  simp only [callSites_eq, List.mem_flatMap, List.mem_filterMap, Option.map_eq_some_iff]

/-- An edge comes from a call site or from a request. -/
theorem mem_edges_iff {callables : List Callable} {e : Graph.Edge} :
    e ∈ (ofCallables cap callables).graph.edges ↔
      (∃ site ∈ (ofCallables cap callables).callSites,
        e = callEdge site.owner (methodId site.method)) ∨
      ∃ c ∈ callables, ∃ t ∈ c.body.preorder, ∃ verb ∈ httpVerbs, t.callee? = some verb ∧
        e = callEdge c.owner
          (requestNode c.owner verb (t.args.head?.bind Tree.stringValue?)).id := by
  rw [ofCallables, mem_edges_registerAll]
  constructor
  · rintro (hnone | ⟨c, hc, ⟨call, loc⟩, hcall, n, htarget, rfl⟩)
    · cases hnone
    obtain ⟨t, ht, hnode, rfl⟩ := Tree.mem_calls_iff.1 hcall
    rcases Call.target?_eq_some_iff.1 htarget with ⟨name, rfl, rfl⟩ | ⟨verb, url, rfl, rfl⟩
    · have hmethod : t.calledMethod? = some name := Tree.call?_eq_method_iff.1 hnode
      exact .inl ⟨_, mem_callSites_iff.2 ⟨c, hc, t, ht, name, hmethod, rfl⟩, rfl⟩
    · obtain ⟨hverb, hcallee, rfl⟩ := Tree.call?_eq_http_iff.1 hnode
      exact .inr ⟨c, hc, t, ht, verb, hverb, hcallee, rfl⟩
  · rintro (⟨site, hsite, rfl⟩ | ⟨c, hc, t, ht, verb, hverb, hcallee, rfl⟩)
    · obtain ⟨c, hc, t, ht, name, hmethod, rfl⟩ := mem_callSites_iff.1 hsite
      have hcall := Tree.mem_calls_iff.2 ⟨t, ht, Tree.call?_eq_method_iff.2 hmethod, rfl⟩
      exact .inr ⟨c, hc, _, hcall, _, Call.target?_eq_some_iff.2 (.inl ⟨name, rfl, rfl⟩), rfl⟩
    · have hcall := Tree.mem_calls_iff.2
        ⟨t, ht, Tree.call?_eq_http_iff.2 ⟨hverb, hcallee, rfl⟩, rfl⟩
      exact .inr ⟨c, hc, _, hcall, _, Call.target?_eq_some_iff.2 (.inr ⟨verb, _, rfl, rfl⟩), rfl⟩

/-- What a survey records of some callables: the call sites in order, how often methods are called
and each verb is used, exactly the edges that these calls make, none of which ends in nothing, and
no node of kind `other` but callables registered as such. -/
theorem records_ofCallables (cap : Nat) (callables : List Callable) :
    (ofCallables cap callables).callSites =
        (callables.flatMap fun c => c.body.preorder.filterMap fun t =>
          t.calledMethod?.map fun name => ⟨c.owner, name, t.span.location⟩) ∧
      ((ofCallables cap callables).counts.get? "method_calls").getD 0 =
        (ofCallables cap callables).callSites.length ∧
      (∀ verb ∈ httpVerbs,
        ((ofCallables cap callables).counts.get? ("http_" ++ verb)).getD 0 =
          (callables.flatMap (·.body.preorder)).countP fun t => t.callee? = some verb) ∧
      (∀ e, e ∈ (ofCallables cap callables).graph.edges ↔
        (∃ site ∈ (ofCallables cap callables).callSites,
          e = ⟨site.owner, "method:" ++ site.method, .ofList [("label", "calls")]⟩) ∨
        ∃ c ∈ callables, ∃ t ∈ c.body.preorder, ∃ verb ∈ httpVerbs, t.callee? = some verb ∧
          e = ⟨c.owner, c.owner ++ "::http#" ++ verb ++ "(" ++ t.shownUrl ++ ")",
            .ofList [("label", "calls")]⟩) ∧
      (ofCallables cap callables).graph.dangling = [] ∧
      ∀ n ∈ (ofCallables cap callables).graph.nodes, n.kind = .other →
        ∃ c ∈ callables, c.owner = n.id ∧ c.kind = .other := by
  have hdescribed : (ofCallables cap callables).graph.Described fun id =>
      ∃ c ∈ callables, c.owner = id ∧ c.kind = .other :=
    described_registerAll ⟨Graph.wellFormed_ofChanges [], by simp⟩ callables
      fun c hc hkind => ⟨c, hc, rfl, hkind⟩
  refine ⟨callSites_eq callables, ?_, fun verb hverb => ?_, fun e => ?_, ?_,
    hdescribed.exempt_of_other⟩
  · rw [length_callSites, ofCallables, counts_registerAll]
    simp
  · rw [ofCallables, counts_registerAll, List.countP_flatMap, List.countP_flatMap]
    simp [Function.comp_def, Tree.countP_counter?_calls _ hverb]
  · exact mem_edges_iff
  · exact hdescribed.wellFormed.dangling_eq_nil

/-- A call of `name` with one argument. -/
def bareCall (name : String) (argument : Tree.Kind) : Tree :=
  .ofCall name none [.leaf argument {}] none {}

/-- An action that calls a method and sends a request twice, and a callable of no known kind whose
calls are all computed. -/
def mixedCallables : List Callable :=
  [⟨"action", .action, ⟨.program, {}, [bareCall "call" (.literal (.symbol "m")),
      bareCall "get" (.literal (.string "/u")), bareCall "get" (.literal (.string "/u"))]⟩⟩,
    ⟨"loose", .other, ⟨.group, {}, [bareCall "get" (.identifier "url"),
      bareCall "call" (.identifier "m")]⟩⟩]

/-- Every request is counted, also the repeated and the computed one, and the callable of no known
kind accounts for the node of kind `other`. -/
theorem records_mixedCallables :
    (ofCallables 0 mixedCallables).callSites = [⟨"action", "m", Span.location {}⟩] ∧
      ("get" ∈ httpVerbs ∧
        ((ofCallables 0 mixedCallables).counts.get? ("http_" ++ "get")).getD 0 = 3) ∧
      ⟨"action", "action::http#get(/u)", .ofList [("label", "calls")]⟩ ∈
        (ofCallables 0 mixedCallables).graph.edges ∧
      (ofCallables 0 mixedCallables).graph.dangling = [] ∧
      (⟨"loose", "loose", .other⟩ ∈ (ofCallables 0 mixedCallables).graph.nodes ∧
        ∃ c ∈ mixedCallables, c.owner = "loose" ∧ c.kind = .other) := by
  have hverb : "get" ∈ httpVerbs := by decide
  have hloose : ⟨"loose", "loose", .other⟩ ∈
      (ofCallables 0 mixedCallables).graph.nodes := by decide +kernel
  obtain ⟨hsites, -, hcounts, hedges, hdangling, hother⟩ := records_ofCallables 0 mixedCallables
  refine ⟨hsites.trans (by decide), ⟨hverb, (hcounts "get" hverb).trans (by decide)⟩,
    (hedges _).2 (.inr ?_), hdangling, hloose, hother _ hloose rfl⟩
  refine ⟨_, List.mem_cons_self, bareCall "get" (.literal (.string "/u")), ?_, "get", hverb, rfl,
    by decide⟩
  simp [Tree.preorder, Tree.preorderAll, bareCall, Tree.ofCall]

end Survey

end ConnectorAudit
