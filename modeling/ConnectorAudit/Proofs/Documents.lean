import ConnectorAudit.Audit
import ConnectorAudit.Proofs.Data
import ConnectorAudit.Proofs.DocumentChoice
import ConnectorAudit.Proofs.Outlines

/-!
# Plain documents

Documents whose actions, triggers and methods are plain data.  The audit parses
them, picks the document by the sections it names and outlines it; the fragments
are found by counting braces on the tokens.

* `Listing.document?_of_depicted`: the document is the outermost hash, as no other hash names a
  section;
* `Datum.Skips.datum`: a pass that counts braces is where it was, behind data;
* `Listing.names_agree`: both tell the same names.
-/

namespace ConnectorAudit

/-! ## entries of the tree -/

/-- Pairs with distinct fixed keys are all kept, in order. -/
theorem SectionEntries.map_name_putAll {es : SectionEntries} {pairs : List (Tree × Tree)}
    {names : List String} (hkeys : pairs.map (·.1.literalName?) = names.map some)
    (hnames : names.Nodup) (hnew : ∀ name ∈ names, es.places.get? name = none) :
    (es.putAll pairs).entries.toList.map SectionEntry.name =
      es.entries.toList.map SectionEntry.name ++ names := by
  induction pairs generalizing es names with
  | nil =>
    obtain rfl : names = [] := by simpa using hkeys.symm
    exact (List.append_nil _).symm
  | cons pair pairs ih =>
    obtain ⟨name, rest, rfl, hname, hrest⟩ := List.map_eq_cons_iff.1 hkeys.symm
    obtain ⟨hfresh, hnodup⟩ := List.nodup_cons.1 hnames
    have hput := put_of_new hname.symm (hnew name List.mem_cons_self) pair.2
    have hlater : ∀ other ∈ rest, (es.put pair.1 pair.2).places.get? other = none := by
      intro other hother
      rw [hput, Table.get?_insert, if_neg (ne_of_mem_of_not_mem hother hfresh)]
      exact hnew other (List.mem_cons_of_mem name hother)
    have hall := ih hrest.symm hnodup hlater
    rw [hput] at hall
    rw [putAll, List.foldl_cons, ← putAll, hput, hall]
    simp

/-- A hash that names at least as many sections as all others is kept. -/
theorem Tree.foldl_betterDocument {best : Tree} {ts : List Tree}
    (h : ∀ t ∈ ts, t.score ≤ best.score) : ts.foldl betterDocument (some best) = some best := by
  induction ts with
  | nil => rfl
  | cons t ts ih =>
    obtain ⟨ht, hts⟩ := List.forall_mem_cons.1 h
    rw [List.foldl_cons, betterDocument, if_neg (by omega), ih hts]

namespace Datum

variable {entries : List (Name × Datum)} {tree : Tree} {trees : List Tree}

/-- The pairs that entries are read into have the names of the entries as keys. -/
theorem map_keyValue?_of_depictedAll (h : DepictedAll entries trees) :
    (trees.filterMap Tree.keyValue?).map (·.1.literalName?) =
      entries.map fun e => some e.1.text := by
  induction entries generalizing trees with
  | nil =>
    cases h
    rfl
  | cons e entries ih =>
    obtain ⟨span, value, rest, rfl, -, hrest⟩ := h
    simpa [keyed, Tree.keyValue?, Tree.ofPair, Tree.leaf, Tree.literalName?] using ih hrest

/-- The pairs of a hash have the names of its entries as keys. -/
theorem map_pairs_of_depicted (h : Depicted (hash entries) tree) :
    tree.pairs.map (·.1.literalName?) = entries.map fun e => some e.1.text := by
  rw [Tree.pairs, if_pos (by simp [Tree.isHash, h.1])]
  exact map_keyValue?_of_depictedAll h.2

/-- The keys of a hash are the names of its entries. -/
theorem keys_of_depicted (h : Depicted (hash entries) tree) :
    tree.keys = entries.map (·.1.text) := by
  have hpairs := congrArg (List.filterMap id) (map_pairs_of_depicted h)
  simpa [Tree.keys, List.filterMap_map, Function.comp_def] using hpairs

/-- The first entry of a name is read into the first pair of that name. -/
theorem exists_find?_of_depictedAll (h : DepictedAll entries trees) {name : String}
    {e : Name × Datum} (he : entries.find? (·.1.text == name) = some e) :
    ∃ pair, (trees.filterMap Tree.keyValue?).find? (·.1.literalName? == some name) = some pair ∧
      Depicted e.2 pair.2 := by
  induction entries generalizing trees with
  | nil => cases he
  | cons e' entries ih =>
    obtain ⟨span, value, rest, rfl, hvalue, hrest⟩ := h
    have hkey : (keyed e'.1 span value).keyValue? =
        some (.leaf (.literal (.symbol e'.1.text)) span, value) := rfl
    rw [List.filterMap_cons_some hkey]
    by_cases hname : e'.1.text = name
    · rw [List.find?_cons_of_pos (by simpa using hname), Option.some.injEq] at he
      subst he
      exact ⟨_, List.find?_cons_of_pos (by simp [Tree.literalName?, Tree.leaf, hname]), hvalue⟩
    · rw [List.find?_cons_of_neg (by simpa using hname)] at he
      rw [List.find?_cons_of_neg (by simp [Tree.literalName?, Tree.leaf, hname])]
      exact ih hrest he

/-- The value under a name is that of the first entry with it. -/
theorem exists_get?_of_depicted (h : Depicted (hash entries) tree) {name : String}
    {e : Name × Datum} (he : entries.find? (·.1.text == name) = some e) :
    ∃ value, tree.get? name = some value ∧ Depicted e.2 value := by
  obtain ⟨pair, hpair, hdepicted⟩ := exists_find?_of_depictedAll h.2 he
  refine ⟨pair.2, ?_, hdepicted⟩
  rw [Tree.get?, Tree.pairs, if_pos (by simp [Tree.isHash, h.1]), hpair]
  rfl

/-- The entries of a section with distinct names are those of the data. -/
theorem sectionEntries_of_depicted (h : Depicted (hash entries) tree)
    (hnames : (entries.map (·.1.text)).Nodup) :
    tree.sectionEntries.map SectionEntry.name = entries.map (·.1.text) := by
  have hkeys : tree.pairs.map (·.1.literalName?) = (entries.map (·.1.text)).map some := by
    rw [map_pairs_of_depicted h, List.map_map]
    rfl
  exact SectionEntries.map_name_putAll hkeys hnames fun _ _ => rfl

/-- The names that an outline shows of a section with distinct names are those of the data. -/
theorem namesOf_ofDocument_of_depicted (h : Depicted (hash entries) tree) {s : Section}
    {kind : Outline.Kind} (hs : s.part? = some kind) (hlists : s ≠ .pickLists) {name : Name}
    {value : List (Name × Datum)}
    (hvalue : entries.find? (·.1.text == s.key) = some (name, hash value))
    (hnames : (value.map (·.1.text)).Nodup) (filename : String) :
    (Outline.ofDocument filename tree).namesOf kind = value.map (·.1.text) := by
  obtain ⟨section', hget, hsection⟩ := exists_get?_of_depicted h hvalue
  have hvalue? : s.value? tree = some section' := by
    rw [← hget]
    cases s <;> first | rfl | contradiction
  rw [Outline.namesOf_part hs, hvalue?]
  exact sectionEntries_of_depicted hsection hnames

/-- Entries name no section if neither they nor what they hold do. -/
theorem nameNoSection_iff :
    nameNoSection entries = true ↔
      ∀ e ∈ entries, Section.ofKey? e.1.text = none ∧ e.2.namesNoSection = true := by
  induction entries with
  | nil => simp [nameNoSection]
  | cons e entries ih => simp [nameNoSection, ih, and_assoc]

/-- A hash of data names no section. -/
theorem score_of_depicted (h : Depicted (hash entries) tree)
    (hsections : nameNoSection entries = true) : tree.score = 0 := by
  have hnone : tree.keys.filterMap Section.ofKey? = [] := by
    rw [keys_of_depicted h, List.filterMap_eq_nil_iff]
    intro name hname
    obtain ⟨e, he, rfl⟩ := List.mem_map.1 hname
    exact (nameNoSection_iff.1 hsections e he).1
  rw [Tree.score, hnone]
  rfl

mutual
/-- Neither does any hash in it. -/
theorem score_of_mem_preorder (d : Datum) {tree : Tree} (h : Depicted d tree)
    (hsections : d.namesNoSection = true) : ∀ t ∈ tree.preorder, t.isHash = true → t.score = 0 := by
  obtain ⟨kind, span, children⟩ := tree
  rw [Tree.preorder, List.forall_mem_cons]
  match d with
  | numeral digits =>
    obtain ⟨rfl, rfl⟩ := h
    exact ⟨nofun, nofun⟩
  | quoted letters =>
    obtain ⟨rfl, rfl⟩ := h
    exact ⟨nofun, nofun⟩
  | hash entries =>
    refine ⟨fun _ => score_of_depicted h hsections, ?_⟩
    exact score_of_mem_preorderAll entries h.2 fun e he => (nameNoSection_iff.1 hsections e he).2
-- Only the values count here: the keys of a document do name sections.
/-- Inside of data that names no section no hash has a score. -/
theorem score_of_mem_preorderAll (entries : List (Name × Datum)) {trees : List Tree}
    (h : DepictedAll entries trees) (hsections : ∀ e ∈ entries, e.2.namesNoSection = true) :
    ∀ t ∈ Tree.preorderAll trees, t.isHash = true → t.score = 0 := by
  match entries with
  | [] =>
    cases h
    exact nofun
  | (name, value) :: entries =>
    obtain ⟨span, tree, rest, rfl, htree, hrest⟩ := h
    obtain ⟨hvalue, hentries⟩ := List.forall_mem_cons.1 hsections
    have hpair : Tree.preorderAll (keyed name span tree :: rest) =
        keyed name span tree :: .leaf (.literal (.symbol name.text)) span ::
          (tree.preorder ++ Tree.preorderAll rest) := by
      simp [keyed, Tree.ofPair, Tree.leaf, Tree.preorderAll, Tree.preorder]
    rw [hpair, List.forall_mem_cons, List.forall_mem_cons, List.forall_mem_append]
    exact ⟨nofun, nofun, score_of_mem_preorder value htree hvalue,
      score_of_mem_preorderAll entries hrest hentries⟩
end

/-- The key of a section. -/
def Name.ofSection (s : Section) : Name := ⟨s.key, by cases s <;> decide⟩

/-! ## fragments -/

open Fragments (Depth entryKey? entriesFrom lookAll)
open Spelling (tokens)

/-- A numeral, a string or a comma. -/
def isFlat (t : Token) : Bool := t.kind == .numeral || t.kind == .string || t.isPunct ","

/-- What is flat is a number, a string or a comma. -/
theorem kind_of_isFlat {t : Token} (ht : isFlat t = true) :
    t.kind = .numeral ∨ t.kind = .string ∨ t.kind = .punctuation ∧ t.text = "," := by
  simpa [isFlat, Token.isPunct, or_assoc] using ht

/-- A pass over tokens that counts braces: `up` is the state behind one more brace.  Inside braces
it takes no notice of keys that name no section, and nowhere of what is no key. -/
structure Skips {σ β : Type} (run : σ → List Token → β) (up : σ → σ) : Prop where
  opening (s : σ) {t : Token} (ht : t.kind = .braceOpen) (ts : List Token) :
    run s (t :: ts) = run (up s) ts
  closing (s : σ) {t : Token} (ht : t.kind = .braceClose) (ts : List Token) :
    run (up s) (t :: ts) = run s ts
  key (s : σ) {t : Token} {name : String} (ht : t.kind = .label) (hname : t.value = some name)
    (hsection : Section.ofKey? name = none) (ts : List Token) : run (up s) (t :: ts) = run (up s) ts
  flat (s : σ) {t : Token} (ht : isFlat t = true) {ts : List Token}
    (hkey : entryKey? (t :: ts) = none) : run s (t :: ts) = run s ts

/-- Looking for sections passes over data that names none. -/
theorem skips_lookAll (source : String) :
    Skips (lookAll source) fun p => { p with depth := p.depth + 1 } where
  opening p t ht ts := by simp [lookAll, Fragments.Progress.look, entryKey?, ht]
  closing p t ht ts := by simp [lookAll, Fragments.Progress.look, entryKey?, ht]
  key p t name ht hname hsection ts := by
    simp [lookAll, Fragments.Progress.look, entryKey?, ht, hname, hsection]
  flat p t ht ts hkey := by
    rcases kind_of_isFlat ht with hkind | hkind | ⟨hkind, -⟩ <;>
      simp [lookAll, Fragments.Progress.look, hkey, hkind]

/-- Looking for entries passes over data that names no section. -/
theorem skips_entriesFrom (source : String) (callable : Bool) (column : Option Nat) :
    Skips (entriesFrom source callable column) fun d => { d with braces := d.braces + 1 } where
  opening d t ht ts := by simp [entriesFrom, Depth.take, ht]
  closing d t ht ts := by simp [entriesFrom, Depth.take, entryKey?, ht]
  key d t name ht hname hsection ts := by simp [entriesFrom, Depth.take, ht]
  flat d t ht ts hkey := by
    rcases kind_of_isFlat ht with hkind | hkind | ⟨hkind, htext⟩ <;>
      simp [entriesFrom, Depth.take, *]

section skips

variable {σ β : Type} {run : σ → List Token → β} {up : σ → σ}

/-- A separator is passed over. -/
theorem Skips.separator (hrun : Skips run up) (s : σ) (entries : List (Name × Datum))
    (b : List Char) (rest : List Token) :
    run s (tokens b (separator entries) ++ rest) = run s rest := by
  cases entries with
  | nil => rfl
  | cons => exact hrun.flat s rfl rfl

mutual
/-- Behind data the pass is where it was. -/
theorem Skips.datum (hrun : Skips run up) (d : Datum) (hsections : d.namesNoSection = true) (s : σ)
    (b : List Char) {t : Token} (ht : endsDatum t = true) (rest : List Token) :
    run s (tokens b d.spellings ++ t :: rest) = run s (t :: rest) := by
  match d with
  | numeral digits => exact hrun.flat s rfl rfl
  | quoted letters =>
    -- A string is a key before an arrow only.
    have harrow : t.isPunct "=>" = false := by
      simp only [endsDatum, Token.isPunct, Bool.or_eq_true, Bool.and_eq_true, beq_iff_eq] at ht
      rcases ht with ⟨-, htext⟩ | hkind <;> simp [Token.isPunct, *]
    have hkey : entryKey? ((Spelling.quoted .spaced letters.text).token b :: t :: rest) = none :=
      if_neg (by simp [harrow])
    exact hrun.flat s rfl hkey
  | hash entries =>
    -- The entries are passed one brace up, and the closing brace leads back down.
    obtain ⟨b', u, hu, htokens⟩ := exists_tokens_braced .spaced (spellingsAll entries) b
    rw [spellings, htokens, List.cons_append, List.append_assoc, hrun.opening s rfl]
    rw [List.singleton_append, hrun.data entries hsections s b' hu, hrun.closing s hu]
/-- Entries that name no section are passed over. -/
theorem Skips.data (hrun : Skips run up) (entries : List (Name × Datum))
    (hsections : nameNoSection entries = true) (s : σ) (b : List Char) {u : Token}
    (hu : u.kind = .braceClose) (rest : List Token) :
    run (up s) (tokens b (spellingsAll entries) ++ u :: rest) = run (up s) (u :: rest) := by
  match entries with
  | [] => rfl
  | (name, value) :: entries =>
    obtain ⟨b₁, b₂, b₃, hcons⟩ := exists_tokens_spellingsAll_cons name value entries b
    obtain ⟨t, ts, hbehind, ht, -⟩ := exists_behind_value entries b₂ b₃ rest hu
    simp only [nameNoSection, Bool.and_eq_true, Option.isNone_iff_eq_none] at hsections
    obtain ⟨⟨hname, hvalue⟩, hentries⟩ := hsections
    rw [hcons, List.cons_append, hrun.key s rfl rfl hname, List.append_assoc, List.append_assoc,
      hbehind, hrun.datum value hvalue (up s) b₁ ht, ← hbehind, hrun.separator,
      hrun.data entries hentries s b₃ hu]
end

end skips

/-- The entries of a section are found by their names, in order, and nothing inside their values. -/
theorem map_name_entriesFrom (source : String) (callable : Bool) (entries : List (Name × Datum))
    (hsections : nameNoSection entries = true) (b : List Char) {u : Token}
    (hu : u.kind = .braceClose) (rest : List Token) :
    (entriesFrom source callable none {} (tokens b (spellingsAll entries) ++ u :: rest)).map
      Fragment.name = entries.map (·.1.text) := by
  have hskips := skips_entriesFrom source callable none
  induction entries generalizing b with
  | nil => simp [spellingsAll, entriesFrom, hu]
  | cons e entries ih =>
    obtain ⟨name, value⟩ := e
    obtain ⟨b₁, b₂, b₃, hcons⟩ := exists_tokens_spellingsAll_cons name value entries b
    obtain ⟨t, ts, hbehind, ht, -⟩ := exists_behind_value entries b₂ b₃ rest hu
    simp only [nameNoSection, Bool.and_eq_true] at hsections
    obtain ⟨⟨-, hvalue⟩, hentries⟩ := hsections
    have hkey : ∀ ts, ∃ loc, entriesFrom source callable none {}
        ((Spelling.key .spaced name.text).token b :: ts) =
          ⟨name.text, loc⟩ :: entriesFrom source callable none {} ts := fun ts => ⟨_, rfl⟩
    obtain ⟨loc, hfound⟩ := hkey (tokens b₁ value.spellings ++ (t :: ts))
    rw [hcons, List.cons_append, List.append_assoc, List.append_assoc, hbehind, hfound,
      hskips.datum value hvalue {} b₁ ht, ← hbehind, hskips.separator, List.map_cons,
      ih hentries, List.map_cons]

/-- The entries that are found by tokens have the names of the entries. -/
theorem map_name_sectionEntries (source : String) (callable : Bool)
    (entries : List (Name × Datum)) (hsections : nameNoSection entries = true) (b : List Char)
    (rest : List Token) :
    (Fragments.sectionEntries source callable none
      (tokens b (hash entries).spellings ++ rest)).map Fragment.name = entries.map (·.1.text) := by
  obtain ⟨b', u, hu, htokens⟩ := exists_tokens_braced .spaced (spellingsAll entries) b
  rw [spellings, htokens, List.cons_append, List.append_assoc, List.singleton_append]
  exact map_name_entriesFrom source callable entries hsections b' hu rest

/-- A section at the top level is added, with tokens that tell its names, and the pass goes on
behind it. -/
theorem exists_lookAll_section (source : String) (s : Section) {value : List (Name × Datum)}
    (hsections : nameNoSection value = true) (entries : List (Name × Datum)) (b : List Char)
    {u : Token} (hu : u.kind = .braceClose) :
    ∃ b' t ts, t.gap.newline = false ∧
      (∀ callable, (Fragments.sectionEntries source callable none ts).map Fragment.name =
        value.map (·.1.text)) ∧
      ∀ found, lookAll source { depth := 1, found }
          (tokens b (spellingsAll ((.ofSection s, hash value) :: entries)) ++ [u]) =
        lookAll source { depth := 1, found := Fragments.addSection source s s.key t ts found }
          (tokens b' (spellingsAll entries) ++ [u]) := by
  have hskips := skips_lookAll source
  obtain ⟨b₁, b₂, b₃, hcons⟩ :=
    exists_tokens_spellingsAll_cons (.ofSection s) (hash value) entries b
  obtain ⟨t, ts, hbehind, ht, -⟩ := exists_behind_value entries b₂ b₃ [] hu
  let key := (Spelling.key .spaced (Name.ofSection s).text).token b
  have hlook (found : Fragments) (ts : List Token) :
      lookAll source { depth := 1, found } (key :: ts) = lookAll source
        { depth := 1, found := Fragments.addSection source s s.key key ts found } ts := by
    have hkey : entryKey? (key :: ts) = some (s.key, ts) := rfl
    have hkind : key.kind = .label ∧ key.gap.newline = false := ⟨rfl, rfl⟩
    simp [lookAll, Fragments.Progress.look, hkey, hkind]
  refine ⟨b₃, key, tokens b₁ (hash value).spellings ++ t :: ts, rfl, fun callable =>
    map_name_sectionEntries source callable value hsections b₁ _, fun found => ?_⟩
  rw [hcons, List.cons_append, List.append_assoc, List.append_assoc, hbehind, hlook,
    hskips.datum (hash value) hsections _ b₁ ht, ← hbehind, hskips.separator]

end Datum

/-! ## documents -/

/-- The entries of a section: their names are distinct, no key in them names a section, and at most
20 hashes are open at once in a value. -/
structure Listing where
  entries : List (Datum.Name × Datum)
  distinct : (entries.map (·.1.text)).Nodup
  sectionless : Datum.nameNoSection entries = true
  shallow : Datum.depthAll entries ≤ 20

namespace Listing

/-- The names of the entries, in order. -/
def names (l : Listing) : List String := l.entries.map (·.1.text)

/-- The entries of the document with some actions, triggers and methods. -/
def sections (actions triggers methods : Listing) : List (Datum.Name × Datum) :=
  [(.ofSection .actions, .hash actions.entries), (.ofSection .triggers, .hash triggers.entries),
    (.ofSection .methods, .hash methods.entries)]

def source (actions triggers methods : Listing) : String :=
  (Datum.hash (sections actions triggers methods)).text

variable {actions triggers methods : Listing} {tree : Tree}

/-- The tree of a document is the one that is picked. -/
theorem document?_of_depicted
    (h : Datum.Depicted (.hash (sections actions triggers methods)) tree) :
    (Tree.ofStatements [tree]).document? = some tree := by
  have hscore : tree.score = 3 := by
    rw [Tree.score, Datum.keys_of_depicted h]
    rfl
  have hbelow := Datum.score_of_mem_preorderAll _ h.2 (by
    simp [sections, Datum.namesNoSection, sectionless])
  have hhash : tree.isHash = true := by simp [Tree.isHash, h.1]
  obtain ⟨kind, span, children⟩ := tree
  have hhashes : (Tree.ofStatements [⟨kind, span, children⟩]).preorder.filter Tree.isHash =
      ⟨kind, span, children⟩ :: (Tree.preorderAll children).filter Tree.isHash := by
    rw [Tree.ofStatements, Tree.preorder, Tree.preorderAll, Tree.preorderAll, Tree.preorder,
      List.append_nil, List.filter_cons_of_neg Bool.false_ne_true, List.filter_cons_of_pos hhash]
  rw [Tree.document?_eq, hhashes, List.foldl_cons, Tree.betterDocument, hscore, if_pos (by decide)]
  refine Tree.foldl_betterDocument fun t ht => ?_
  rw [List.mem_filter] at ht
  rw [hbelow t ht.1 ht.2]
  exact Nat.zero_le _

/-- A document is parsed to its tree. -/
theorem exists_parsed (actions triggers methods : Listing) :
    ∃ tree, Datum.Depicted (.hash (sections actions triggers methods)) tree ∧
      Parsed.ofSource (source actions triggers methods) = .ok ⟨.ofStatements [tree], []⟩ := by
  refine Datum.parsed_text ?_
  have hactions := actions.shallow
  have htriggers := triggers.shallow
  have hmethods := methods.shallow
  simp only [sections, Datum.depthAll, Datum.depth]
  omega

/-- The pass over the tokens of a document finds its three sections. -/
theorem exists_lookAll_source (actions triggers methods : Listing) (text : String) :
    ∃ found, Fragments.lookAll text {} (Datum.sourceTokens (sections actions triggers methods)) =
        { found } ∧
      found.actions.map Fragment.name = actions.names ∧
        found.triggers.map Fragment.name = triggers.names ∧
          found.methods.map Fragment.name = methods.names := by
  have hskips := Datum.skips_lookAll text
  obtain ⟨b, u, hu, htokens⟩ :=
    Datum.exists_tokens_braced .tight (Datum.spellingsAll (sections actions triggers methods)) []
  obtain ⟨b₁, t₁, ts₁, ht₁, hts₁, hlook₁⟩ :=
    Datum.exists_lookAll_section text .actions actions.sectionless
      [(.ofSection .triggers, .hash triggers.entries), (.ofSection .methods, .hash methods.entries)]
        b hu
  obtain ⟨b₂, t₂, ts₂, ht₂, hts₂, hlook₂⟩ :=
    Datum.exists_lookAll_section text .triggers triggers.sectionless
      [(.ofSection .methods, .hash methods.entries)] b₁ hu
  obtain ⟨b₃, t₃, ts₃, ht₃, hts₃, hlook₃⟩ :=
    Datum.exists_lookAll_section text .methods methods.sectionless [] b₂ hu
  have hclose : ∀ found, Fragments.lookAll text { depth := 1, found }
      (Spelling.tokens b₃ (Datum.spellingsAll []) ++ [u]) = { found } :=
    fun found => hskips.closing { found } hu []
  rw [Datum.sourceTokens, htokens, hskips.opening _ rfl]
  refine ⟨_, (hlook₁ {}).trans ((hlook₂ _).trans ((hlook₃ _).trans (hclose _))), ?_⟩
  simp only [Fragments.addSection, ht₁, ht₂, ht₃, Bool.false_eq_true, if_false, Fragments.keepFirst,
    List.isEmpty_nil, if_true, hts₁, hts₂, hts₃, names, and_self]

/-- The audit and the fragments tell the same names. -/
theorem names_agree (actions triggers methods : Listing) (settings : Settings) :
    let audit := Audit.ofSource (source actions triggers methods) settings
    let found := Fragments.ofSource (source actions triggers methods)
    audit.salvaged = false ∧ audit.root.namesOf .action = actions.names ∧
      audit.root.namesOf .trigger = triggers.names ∧ audit.root.namesOf .method = methods.names ∧
        found.faults = [] ∧ found.actions.map Fragment.name = actions.names ∧
          found.triggers.map Fragment.name = triggers.names ∧
            found.methods.map Fragment.name = methods.names := by
  intro audit found
  obtain ⟨tree, htree, hparsed⟩ := exists_parsed actions triggers methods
  have haudit : audit = Audit.ofParsed ⟨.ofStatements [tree], []⟩ settings := by
    simp only [audit, Audit.ofSource, hparsed]
  have hroot : audit.root = Outline.ofDocument settings.filename tree := by
    rw [haudit, Audit.ofParsed_eq, document?_of_depicted htree]
    rfl
  obtain ⟨pass, hpass, hfragments⟩ := exists_lookAll_source actions triggers methods _
  have hfound : found = { pass with faults := [] } := by
    simp only [found, Fragments.ofSource, source, Datum.scanLossy_text, Datum.filter_sourceTokens]
    rw [hpass]
  rw [hroot, haudit, hfound]
  have hnames (s : Section) {kind : Outline.Kind} (hs : s.part? = some kind)
      (hlists : s ≠ .pickLists) {l : Listing} (hvalue : (sections actions triggers methods).find?
        (·.1.text == s.key) = some (.ofSection s, .hash l.entries)) :
      (Outline.ofDocument settings.filename tree).namesOf kind = l.names :=
    Datum.namesOf_ofDocument_of_depicted htree hs hlists hvalue l.distinct settings.filename
  have hparses : (Audit.ofParsed ⟨.ofStatements [tree], []⟩ settings).salvaged = false := by
    rw [Audit.ofParsed_eq]
    rfl
  exact ⟨hparses, hnames .actions rfl nofun rfl, hnames .triggers rfl nofun rfl,
    hnames .methods rfl nofun rfl, rfl, hfragments⟩

/-- Entries with keywords for names, one of them nested. -/
def keywords : Listing where
  entries :=
    [(⟨"if", by decide⟩, .hash [(⟨"end", by decide⟩, .numeral ⟨"20", by decide, by decide⟩),
        (⟨"do", by decide⟩, .quoted ⟨"unless", by decide⟩)]),
      (⟨"begin", by decide⟩, .hash [])]
  distinct := by decide
  sectionless := by decide
  shallow := by decide

def empty : Listing where
  entries := []
  distinct := by decide
  sectionless := by decide
  shallow := by decide

theorem names_agree_keywords :
    let text := source keywords empty keywords
    let audit := Audit.ofSource text {}
    let found := Fragments.ofSource text
    text = "\x7b actions: \x7b if: \x7b end: 20, do: 'unless' \x7d, begin: \x7b \x7d \x7d, " ++
        "triggers: \x7b \x7d, " ++
          "methods: \x7b if: \x7b end: 20, do: 'unless' \x7d, begin: \x7b \x7d \x7d \x7d" ∧
      audit.salvaged = false ∧ audit.root.namesOf .action = ["if", "begin"] ∧
        audit.root.namesOf .trigger = [] ∧ audit.root.namesOf .method = ["if", "begin"] ∧
          found.faults = [] ∧ found.actions.map Fragment.name = ["if", "begin"] ∧
            found.triggers.map Fragment.name = [] ∧
              found.methods.map Fragment.name = ["if", "begin"] :=
  ⟨by decide +kernel, names_agree keywords empty keywords {}⟩

end Listing

end ConnectorAudit
