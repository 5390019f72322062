import Mathlib.Data.Set.Card
import ConnectorAudit.Proofs.Traversals
import ConnectorAudit.Proofs.Walks
import ConnectorAudit.Tree.Document

/-!
# The choice of the document

Which hash of a source is its document, told by the places of the hashes alone.
A node has an address: the numbers of the children through which it is reached.
In the order of addresses a node comes before what is below it, and what is below
a child before what is below a later one.

* `Tree.mem_places_iff`, `Tree.pairwise_places`: the pre-order has every address, in order;
* `Tree.Leads.betterDocument`, `Tree.leads_foldl`: what is kept of the hashes met, after one more
  and after all;
* `Tree.document?_eq_none_iff_and_eq_some_iff`: the document is the first of the hashes that name
  the most sections.
-/

namespace ConnectorAudit

namespace Tree

/-! ## addresses -/

/-- The node at an address. -/
def nodeAt? : List Nat → Tree → Option Tree
  | [], t => some t
  | i :: p, t => t.children[i]?.bind (nodeAt? p)

/-- An address comes before another. -/
def Precedes : List Nat → List Nat → Prop := List.Lex (· < ·)

mutual
/-- The nodes of a tree with their addresses, each before its children. -/
def places : Tree → List (List Nat × Tree)
  | ⟨kind, span, children⟩ => ([], ⟨kind, span, children⟩) :: placesFrom 0 children
/-- The nodes of a list of trees, the first of which is child `i`. -/
def placesFrom (i : Nat) : List Tree → List (List Nat × Tree)
  | [] => []
  | t :: ts => t.places.map (fun place => (i :: place.1, place.2)) ++ placesFrom (i + 1) ts
end

mutual
/-- The nodes at the places of a tree are its nodes, in the order in which they are met. -/
theorem map_snd_places (t : Tree) : t.places.map Prod.snd = t.preorder := by
  match t with
  | ⟨kind, span, children⟩ => simp [places, preorder, map_snd_placesFrom 0 children]
theorem map_snd_placesFrom (i : Nat) (ts : List Tree) :
    (placesFrom i ts).map Prod.snd = preorderAll ts := by
  match ts with
  | [] => rfl
  | t :: ts =>
    have ht := map_snd_places t
    have hts := map_snd_placesFrom (i + 1) ts
    simp [placesFrom, preorderAll, Function.comp_def, ht, hts]
end

mutual
/-- The traversal meets a node at an address if it is there. -/
theorem mem_places_iff (t : Tree) {p : List Nat} {k : Tree} :
    (p, k) ∈ t.places ↔ nodeAt? p t = some k := by
  match t with
  | ⟨kind, span, children⟩ =>
    rw [places, List.mem_cons, mem_placesFrom_iff 0 children]
    cases p with
    | nil => simp [nodeAt?, eq_comm]
    | cons i p => simp [nodeAt?]
/-- A place among trees is a place in one of them, numbered from `i`. -/
theorem mem_placesFrom_iff (i : Nat) (ts : List Tree) {p : List Nat} {k : Tree} :
    (p, k) ∈ placesFrom i ts ↔
      ∃ j q, p = (i + j) :: q ∧ ts[j]?.bind (nodeAt? q) = some k := by
  match ts with
  | [] => simp [placesFrom]
  | t :: ts =>
    rw [placesFrom, List.mem_append, mem_placesFrom_iff (i + 1) ts]
    constructor
    · rintro (h | ⟨j, q, rfl, hq⟩)
      · obtain ⟨⟨q, k'⟩, hmem, heq⟩ := List.mem_map.1 h
        obtain ⟨rfl, rfl⟩ := Prod.mk.inj heq
        exact ⟨0, q, rfl, (mem_places_iff t).1 hmem⟩
      · exact ⟨j + 1, q, by rw [Nat.add_right_comm, Nat.add_assoc], hq⟩
    · rintro ⟨_ | j, q, rfl, hq⟩
      · exact .inl (List.mem_map.2 ⟨(q, k), (mem_places_iff t).2 hq, rfl⟩)
      · exact .inr ⟨j, q, by rw [Nat.add_right_comm, Nat.add_assoc], hq⟩
end

mutual
/-- The traversal meets the addresses in order. -/
theorem pairwise_places (t : Tree) : t.places.Pairwise (fun a b => Precedes a.1 b.1) := by
  match t with
  | ⟨kind, span, children⟩ =>
    rw [places, List.pairwise_cons]
    refine ⟨fun place hplace => ?_, pairwise_placesFrom 0 children⟩
    obtain ⟨j, q, hq, -⟩ := (mem_placesFrom_iff 0 children).1 hplace
    exact hq ▸ .nil
/-- The places among trees come in the order of the source. -/
theorem pairwise_placesFrom (i : Nat) (ts : List Tree) :
    (placesFrom i ts).Pairwise (fun a b => Precedes a.1 b.1) := by
  match ts with
  | [] => exact .nil
  | t :: ts =>
    rw [placesFrom, List.pairwise_append, List.pairwise_map]
    refine ⟨(pairwise_places t).imp .cons, pairwise_placesFrom (i + 1) ts, ?_⟩
    intro a ha b hb
    obtain ⟨place, -, rfl⟩ := List.mem_map.1 ha
    obtain ⟨j, q, hq, -⟩ := (mem_placesFrom_iff (i + 1) ts).1 hb
    exact hq ▸ .rel (by omega)
end

instance : Std.Asymm Precedes := List.Lex.asymm (· < ·)

instance : Std.Trichotomous Precedes := List.Lex.trichotomous (· < ·)

end Tree

/-! ## sections of a hash -/

/-- A key names a section; pick lists have two keys. -/
def Section.NamedBy (s : Section) (key : String) : Prop :=
  key = s.key ∨ s = .pickLists ∧ key = "picklists"

/-- A key stands for the section that it names. -/
theorem Section.ofKey?_eq_some_iff {s : Section} {key : String} :
    ofKey? key = some s ↔ s.NamedBy key := by
  constructor
  · intro h
    rw [ofKey?] at h
    split at h
    · exact .inr ⟨(Option.some.inj h).symm, ‹_›⟩
    · have hkey := List.find?_some h
      exact .inl (beq_iff_eq.1 hkey).symm
  · rintro (rfl | ⟨rfl, rfl⟩)
    · exact ofKey?_key s
    · rfl

namespace Tree

/-- A pair among the children has the string or symbol for its key. -/
def HasKey (t : Tree) (key : String) : Prop :=
  ∃ pair ∈ t.children, ∃ k v, pair.kind = .pair ∧ pair.children = [k, v] ∧
    (k.kind = .literal (.string key) ∨ k.kind = .literal (.symbol key))

/-- The number of sections that are named by a key of the node. -/
noncomputable def sectionCount (t : Tree) : Nat :=
  {s : Section | ∃ key, t.HasKey key ∧ s.NamedBy key}.ncard

/-- A pair has a key and a value. -/
theorem keyValue?_eq_some_iff {t k v : Tree} :
    t.keyValue? = some (k, v) ↔ t.kind = .pair ∧ t.children = [k, v] := by
  unfold keyValue?
  split <;> simp_all

/-- A name is written as a string or as a symbol. -/
theorem literalName?_eq_some_iff {t : Tree} {key : String} :
    t.literalName? = some key ↔
      t.kind = .literal (.string key) ∨ t.kind = .literal (.symbol key) := by
  unfold literalName?
  split <;> simp_all

/-- The keys of a hash are the names that it has a value for. -/
theorem mem_keys_iff {t : Tree} (h : t.kind = .hash) {key : String} :
    key ∈ t.keys ↔ t.HasKey key := by
  have hhash : t.isHash = true := by simp [isHash, h]
  simp only [keys, pairs, hhash, if_true, List.mem_filterMap, Prod.exists, keyValue?_eq_some_iff,
    literalName?_eq_some_iff, HasKey]
  constructor
  · rintro ⟨k, v, ⟨pair, hmem, hkind, hchildren⟩, hkey⟩
    exact ⟨pair, hmem, k, v, hkind, hchildren, hkey⟩
  · rintro ⟨pair, hmem, k, v, hkind, hchildren, hkey⟩
    exact ⟨k, v, ⟨pair, hmem, hkind, hchildren⟩, hkey⟩

/-- The score of a hash is how many sections it names. -/
theorem score_eq_sectionCount {t : Tree} (h : t.kind = .hash) : t.score = t.sectionCount := by
  have hset : {s : Section | ∃ key, t.HasKey key ∧ s.NamedBy key} =
      (t.keys.filterMap Section.ofKey?).eraseDups.toFinset := by
    ext s
    simp [mem_keys_iff h, Section.ofKey?_eq_some_iff]
  rw [sectionCount, hset, Set.ncard_coe_finset, List.toFinset_card_of_nodup (nodup_eraseDups _),
    score]

/-! ## the best hash -/

/-- What is kept of the hashes met so far: one that names two sections, more than every hash
before it and no fewer than any hash after it; or none, if no hash names two. -/
def Leads (hashes : List Tree) : Option Tree → Prop
  | none => ∀ k ∈ hashes, k.score < documentThreshold
  | some h => documentThreshold ≤ h.score ∧ ∃ before after, hashes = before ++ h :: after ∧
      (∀ k ∈ before, k.score < h.score) ∧ ∀ k ∈ after, k.score ≤ h.score

/-- No hash has a higher score than one that leads. -/
theorem Leads.score_le {hashes : List Tree} {h k : Tree} (hleads : Leads hashes (some h))
    (hk : k ∈ hashes) : k.score ≤ h.score := by
  obtain ⟨-, before, after, rfl, hbefore, hafter⟩ := hleads
  rcases List.mem_append.1 hk with hk | hk
  · exact (hbefore k hk).le
  · rcases List.mem_cons.1 hk with rfl | hk
    · exact le_rfl
    · exact hafter k hk

/-- One more hash. -/
theorem Leads.betterDocument {hashes : List Tree} {best : Option Tree} (hleads : Leads hashes best)
    (k : Tree) : Leads (hashes ++ [k]) (betterDocument best k) := by
  cases best with
  | none =>
    by_cases hk : documentThreshold ≤ k.score
    · simp only [Tree.betterDocument, if_pos hk]
      exact ⟨hk, hashes, [], rfl, fun b hb => (hleads b hb).trans_le hk, by simp⟩
    · simp only [Tree.betterDocument, if_neg hk]
      intro b hb
      rcases List.mem_append.1 hb with hb | hb
      · exact hleads b hb
      · exact List.mem_singleton.1 hb ▸ Nat.lt_of_not_le hk
  | some h =>
    by_cases hk : h.score < k.score
    · simp only [Tree.betterDocument, if_pos hk]
      exact ⟨hleads.1.trans hk.le, hashes, [], rfl, fun b hb => (hleads.score_le hb).trans_lt hk,
        by simp⟩
    · simp only [Tree.betterDocument, if_neg hk]
      obtain ⟨htwo, before, after, rfl, hbefore, hafter⟩ := hleads
      refine ⟨htwo, before, after ++ [k], by simp, hbefore, fun b hb => ?_⟩
      rcases List.mem_append.1 hb with hb | hb
      · exact hafter b hb
      · exact List.mem_singleton.1 hb ▸ Nat.le_of_not_lt hk

/-- All hashes. -/
theorem leads_foldl (hashes : List Tree) :
    Leads hashes (hashes.foldl Tree.betterDocument none) := by
  induction hashes using List.reverseRecOn with
  | nil => exact fun k hk => nomatch hk
  | append_singleton hashes k ih =>
    rw [List.foldl_concat]
    exact ih.betterDocument k

/-! ## the document -/

/-- The hashes are looked at in pre-order. -/
theorem document?_eq (t : Tree) :
    t.document? = (t.preorder.filter Tree.isHash).foldl betterDocument none := by
  rw [document?, fold_eq, List.foldl_filter]

/-- A hash at an address is the first of those that name the most sections, and names two. -/
structure IsDocumentAt (t : Tree) (p : List Nat) (h : Tree) : Prop where
  nodeAt : nodeAt? p t = some h
  isHash : h.kind = .hash
  two_le : 2 ≤ h.sectionCount
  le : ∀ q k, nodeAt? q t = some k → k.kind = .hash → k.sectionCount ≤ h.sectionCount
  lt_of_precedes : ∀ q k, nodeAt? q t = some k → k.kind = .hash → Precedes q p →
    k.sectionCount < h.sectionCount

/-- There is one document at most. -/
theorem IsDocumentAt.unique {t h h' : Tree} {p p' : List Nat} (hp : t.IsDocumentAt p h)
    (hp' : t.IsDocumentAt p' h') : h = h' := by
  have hnot : ∀ {p p' h h'}, t.IsDocumentAt p h → t.IsDocumentAt p' h' → ¬ Precedes p p' :=
    fun hp hp' hlt => (hp'.lt_of_precedes _ _ hp.nodeAt hp.isHash hlt).not_ge
      (hp.le _ _ hp'.nodeAt hp'.isHash)
  have heq : p = p' := Std.Trichotomous.trichotomous p p' (hnot hp hp') (hnot hp' hp)
  subst heq
  exact Option.some.inj (hp.nodeAt.symm.trans hp'.nodeAt)

/-- The hashes of a tree with their addresses, in order. -/
def hashPlaces (t : Tree) : List (List Nat × Tree) := t.places.filter (·.2.isHash)

/-- The hashes at their places are the hashes that are met, in the same order. -/
theorem map_snd_hashPlaces (t : Tree) :
    t.hashPlaces.map Prod.snd = t.preorder.filter Tree.isHash := by
  rw [← map_snd_places, List.filter_map]
  rfl

/-- A place of a hash is a place where a hash stands. -/
theorem mem_hashPlaces_iff {t k : Tree} {p : List Nat} :
    (p, k) ∈ t.hashPlaces ↔ nodeAt? p t = some k ∧ k.kind = .hash := by
  simp [hashPlaces, mem_places_iff, Tree.isHash]

/-- Of places in order, those before a place stand in front of it. -/
theorem mem_of_precedes {places before after : List (List Nat × Tree)} {a b : List Nat × Tree}
    (hsorted : places.Pairwise (fun a b => Precedes a.1 b.1)) (heq : places = before ++ b :: after)
    (ha : a ∈ places) (hlt : Precedes a.1 b.1) : a ∈ before := by
  subst heq
  rcases List.mem_append.1 ha with ha | ha
  · exact ha
  · obtain ⟨hafter, -⟩ := List.pairwise_cons.1 (List.pairwise_append.1 hsorted).2.1
    rcases List.mem_cons.1 ha with rfl | ha
    · exact absurd hlt (Std.Asymm.asymm _ _ hlt)
    · exact absurd (hafter a ha) (Std.Asymm.asymm _ _ hlt)

/-- What leads the hashes of a tree is its document. -/
theorem Leads.isDocumentAt {t h : Tree} (hleads : Leads (t.preorder.filter Tree.isHash) (some h)) :
    ∃ p, t.IsDocumentAt p h := by
  rw [← map_snd_hashPlaces] at hleads
  -- The places are split where the hashes are.
  obtain ⟨htwo, before, after, hsplit, hbefore, -⟩ := id hleads
  obtain ⟨places₁, places₂, hplaces, hmap, hmap₂⟩ := List.map_eq_append_iff.1 hsplit
  obtain ⟨⟨p, h'⟩, places₃, rfl, hh, -⟩ := List.map_eq_cons_iff.1 hmap₂
  obtain rfl : h' = h := hh
  have hmem : (p, h') ∈ t.hashPlaces := by simp [hplaces]
  obtain ⟨hp, hhash⟩ := mem_hashPlaces_iff.1 hmem
  have hsorted : t.hashPlaces.Pairwise (fun a b => Precedes a.1 b.1) :=
    (pairwise_places t).filter _
  refine ⟨p, hp, hhash, score_eq_sectionCount hhash ▸ htwo, fun q k hq hk => ?_,
    fun q k hq hk hlt => ?_⟩
  all_goals
    have hmem : (q, k) ∈ t.hashPlaces := mem_hashPlaces_iff.2 ⟨hq, hk⟩
    rw [← score_eq_sectionCount hk, ← score_eq_sectionCount hhash]
  · exact hleads.score_le (List.mem_map_of_mem hmem)
  · have hfront := mem_of_precedes hsorted hplaces hmem hlt
    exact hbefore k (hmap ▸ List.mem_map_of_mem hfront)

/-- **The document.** There is none if no hash of the tree names two sections; otherwise it is the
first, in the order of addresses, of the hashes that name the most. -/
theorem document?_eq_none_iff_and_eq_some_iff (t : Tree) :
    (t.document? = none ↔
      ∀ p k, nodeAt? p t = some k → k.kind = .hash → k.sectionCount < 2) ∧
    ∀ h, t.document? = some h ↔ ∃ p, t.IsDocumentAt p h := by
  have hleads : Leads (t.preorder.filter Tree.isHash) t.document? := t.document?_eq ▸ leads_foldl _
  have hmem : ∀ {p k}, nodeAt? p t = some k → k.kind = .hash →
      k ∈ t.preorder.filter Tree.isHash := fun hp hk => by
    rw [← map_snd_hashPlaces]
    exact List.mem_map_of_mem (mem_hashPlaces_iff.2 ⟨hp, hk⟩)
  cases hdocument : t.document? with
  | none =>
    rw [hdocument] at hleads
    have hfew : ∀ p k, nodeAt? p t = some k → k.kind = .hash → k.sectionCount < 2 :=
      fun p k hp hk => score_eq_sectionCount hk ▸ hleads k (hmem hp hk)
    refine ⟨iff_of_true rfl hfew, fun h => iff_of_false nofun ?_⟩
    rintro ⟨p, hp⟩
    exact (hfew p h hp.nodeAt hp.isHash).not_ge hp.two_le
  | some h =>
    rw [hdocument] at hleads
    obtain ⟨p, hp⟩ := hleads.isDocumentAt
    refine ⟨iff_of_false nofun fun hfew => ?_, fun h' => ⟨?_, ?_⟩⟩
    · exact (hfew p h hp.nodeAt hp.isHash).not_ge hp.two_le
    · rintro ⟨⟩
      exact ⟨p, hp⟩
    · rintro ⟨p', hp'⟩
      rw [hp.unique hp']

end Tree

end ConnectorAudit
