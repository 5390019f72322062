import Mathlib.Data.List.Nodup
import ConnectorAudit.Graph.Components
import ConnectorAudit.Proofs.Walks

/-!
# What low-links tell

The search keeps a stack of the items that are in no component yet, and a list of
the items that it is in.  The stack falls into one part for each of these: the item
itself and, above it, what was entered from it and left again.  `Framed` says this,
with what is known of a part (`Frame`): everything in it and its item reach each
other; the low-link of the item is the number of something on the stack that it
reaches; and no item below the part that was looked at from it has a lower number.

* `Framed.advance`, `Framed.lower`, `Framed.merge`: what looking at an item and
  leaving one do to the parts;
* `Frame.mem_class_iff`: an item that is left with its own number as its low-link has
  its class in its part;
* `Sound.step`, `Sound.search`: hence the invariant of the search, one step and all;
* `mem_component_search_iff`, `perm_flatten_search`, `pairwise_search`: the components
  are the classes, hold every item once, and do not lead to later ones.
-/

namespace ConnectorAudit

open Relation

section Mutual

variable {α : Type} {next : α → List α} {a b c : α}

def Mutual (next : α → List α) (a b : α) : Prop := Leads next a b ∧ Leads next b a

theorem Mutual.refl (next : α → List α) (a : α) : Mutual next a a :=
  ⟨ReflTransGen.refl, ReflTransGen.refl⟩

theorem Mutual.trans (hab : Mutual next a b) (hbc : Mutual next b c) : Mutual next a c :=
  ⟨ReflTransGen.trans hab.1 hbc.1, ReflTransGen.trans hbc.2 hab.2⟩

/-- No item of the first list leads to an item of the second in one step. -/
def Unled (next : α → List α) (c d : List α) : Prop := ∀ a ∈ c, ∀ b ∈ d, b ∉ next a

/-- A walk does not leave what is closed under `next`. -/
theorem Leads.mem_of_closed {closed : α → Prop} (h : Leads next a b)
    (hclosed : ∀ a, closed a → ∀ b ∈ next a, closed b) (ha : closed a) : closed b := by
  induction h with
  | refl => exact ha
  | tail _ hstep ih => exact hclosed _ ih _ hstep

end Mutual

namespace LowLinks

variable {n : Nat}

/-! ## what the parts of a step change -/

/-- The item has a number. -/
def Entered (s : LowLinks n) (v : Fin n) : Prop := (s.num v).isSome = true

/-- The number of an item that was entered. -/
def rank (s : LowLinks n) (v : Fin n) : Nat := (s.num v).getD 0

section Parts

variable {s : LowLinks n} {v w u : Fin n} {k : Nat}

theorem not_entered_iff : ¬s.Entered v ↔ s.num v = none := by
  simp [Entered]

theorem num_eq_some_rank (h : s.Entered v) : s.num v = some (s.rank v) := by
  obtain ⟨k, hk⟩ := Option.isSome_iff_exists.1 h
  rw [rank, hk, Option.getD_some]

/-- Entering an item adds it to those that were entered. -/
theorem entered_enter_iff : (s.enter v).Entered u ↔ u = v ∨ s.Entered u := by
  by_cases hu : u = v <;> simp [Entered, num_enter, hu]

/-- An item is ranked as it is entered. -/
theorem rank_enter : (s.enter v).rank u = if u = v then s.nextIndex else s.rank u := by
  by_cases hu : u = v <;> simp [rank, num_enter, hu]

/-- An item links to itself as it is entered. -/
theorem link_enter : (s.enter v).link u = if u = v then s.nextIndex else s.link u := by
  simp [link, enter, Vector.getElem_set, Fin.ext_iff, eq_comm]

/-- An item is held from when it is entered. -/
theorem held_enter : (s.enter v).held u = if u = v then true else s.held u := by
  simp [held, enter, Vector.getElem_set, Fin.ext_iff, eq_comm]

/-- A link is lowered for one item only. -/
theorem link_lower : (s.lower v k).link u = if u = v then min (s.link v) k else s.link u := by
  simp [link, lower, Vector.getElem_set, Fin.ext_iff, eq_comm]

/-- A link that is low enough is not lowered. -/
theorem lower_of_le (h : s.link v ≤ k) : s.lower v k = s := by
  have hset : s.low.set v (s.link v) = s.low := Vector.set_getElem_self v.isLt
  rw [lower, Nat.min_eq_left h, hset]

/-- Taking a mark off leaves the others. -/
theorem get_set_false (marks : Vector Bool n) (w u : Fin n) :
    (marks.set w.val false w.isLt).get u = true ↔ marks.get u = true ∧ u ≠ w := by
  have hget : ∀ xs : Vector Bool n, xs.get u = xs[u] := fun _ => rfl
  rw [hget, hget]
  by_cases hu : u = w
  · simp [hu]
  · simp [hu, Fin.val_inj, Ne.symm hu]

/-- What is taken off the stack is what stands on it up to an item, and that is no longer marked
as being on it. -/
theorem unwind_append (above below : List (Fin n)) (onStack : Vector Bool n)
    (component : List (Fin n)) (hv : v ∉ above) :
    ∃ marks : Vector Bool n,
      unwind v (above ++ v :: below) onStack component =
        (below, marks, component ++ (above ++ [v])) ∧
      ∀ u, marks.get u = true ↔ onStack.get u = true ∧ u ∉ above ++ [v] := by
  induction above generalizing onStack component with
  | nil =>
    refine ⟨onStack.set v false, by simp [unwind], fun u => ?_⟩
    rw [get_set_false, List.nil_append, List.mem_singleton]
  | cons w above ih =>
    have hne : w ≠ v := fun heq => hv (heq ▸ List.mem_cons_self)
    obtain ⟨marks, heq, hmarks⟩ :=
      ih (onStack.set w false) (component ++ [w]) fun h => hv (List.mem_cons_of_mem w h)
    refine ⟨marks, by simp [unwind, hne, heq], fun u => ?_⟩
    rw [hmarks, get_set_false, List.cons_append, List.mem_cons, not_or, and_assoc]

end Parts

/-! ## the parts of the stack -/

variable {next : Fin n → List (Fin n)} {s s' : LowLinks n}

/-- What is known of an item that the search is in, of which `i` that follow were looked at:
`above` is the rest of its part of the stack, and `below` what is under that part. -/
structure Frame (next : Fin n → List (Fin n)) (s : LowLinks n) (v : Fin n) (i : Nat)
    (above below : List (Fin n)) : Prop where
  joined : ∀ x ∈ above, Mutual next v x
  link_le : s.link v ≤ s.rank v
  /-- The low-link is the number of something that is on the stack and is reached. -/
  reached : ∃ y ∈ above ++ v :: below, s.rank y = s.link v ∧ Leads next v y
  /-- What was looked at was entered, and what of it is under this part has no lower number. -/
  looked : ∀ w ∈ above.flatMap next ++ (next v).take i,
    s.Entered w ∧ (w ∈ below → s.link v ≤ s.rank w)

/-- The stack falls into one part for each item that the search is in, and each of these items was
entered from the one before. -/
inductive Framed (next : Fin n → List (Fin n)) (s : LowLinks n) :
    List (Fin n × Nat) → List (Fin n) → Prop
  | nil : Framed next s [] []
  | cons {v : Fin n} {i : Nat} {work : List (Fin n × Nat)} {above below : List (Fin n)}
      (frame : Frame next s v i above below) (parent : ∀ f ∈ work.head?, Leads next f.1 v)
      (rest : Framed next s work below) : Framed next s ((v, i) :: work) (above ++ v :: below)

section Framed

variable {v w p : Fin n} {i j : Nat} {work : List (Fin n × Nat)} {stack above below : List (Fin n)}

/-- A frame speaks of numbers and low-links, and new items may be entered meanwhile. -/
theorem Frame.congr (h : Frame next s v i above below) (hentered : ∀ x, s.Entered x → s'.Entered x)
    (hrank : ∀ x ∈ above ++ v :: below, s'.rank x = s.rank x) (hlink : s'.link v = s.link v) :
    Frame next s' v i above below where
  joined := h.joined
  link_le := by
    rw [hlink, hrank v (by simp)]
    exact h.link_le
  reached := by
    obtain ⟨y, hy, hnum, hwalk⟩ := h.reached
    exact ⟨y, hy, by rw [hrank y hy, hnum, hlink], hwalk⟩
  looked w hw := by
    obtain ⟨hin, hlow⟩ := h.looked w hw
    refine ⟨hentered w hin, fun hbelow => ?_⟩
    rw [hlink, hrank w (by simp [hbelow])]
    exact hlow hbelow

/-- The frames depend on ranks and links of what they hold only. -/
theorem Framed.congr (h : Framed next s work stack) (hentered : ∀ x, s.Entered x → s'.Entered x)
    (hrank : ∀ x ∈ stack, s'.rank x = s.rank x)
    (hlink : ∀ f ∈ work, s'.link f.1 = s.link f.1) : Framed next s' work stack := by
  induction h with
  | nil => exact .nil
  | cons frame parent _ ih =>
    refine .cons (frame.congr hentered hrank (hlink _ List.mem_cons_self)) parent (ih ?_ ?_)
    · exact fun x hx => hrank x (List.mem_append_right _ (List.mem_cons_of_mem _ hx))
    · exact fun f hf => hlink f (List.mem_cons_of_mem _ hf)

/-- The parts of the stack do not depend on the rest of the search. -/
theorem Framed.transfer (h : Framed next s work stack) (hindex : s'.index = s.index)
    (hlow : s'.low = s.low) : Framed next s' work stack := by
  refine h.congr (fun x hx => ?_) (fun x _ => ?_) fun f _ => ?_
  · rwa [Entered, num, hindex]
  · rw [rank, rank, num, num, hindex]
  · rw [link, link, hlow]

/-- What is worked on is on the stack. -/
theorem Framed.mem_stack (h : Framed next s work stack) : ∀ f ∈ work, f.1 ∈ stack := by
  induction h with
  | nil => simp
  | cons _ _ _ ih =>
    intro f hf
    rcases List.mem_cons.1 hf with rfl | hf
    · simp
    · simp [ih f hf]

/-- Everything on the stack reaches the last item that the search is in. -/
theorem Framed.leads_head (h : Framed next s work stack) :
    ∀ f ∈ work.head?, ∀ y ∈ stack, Leads next y f.1 := by
  induction h with
  | nil => simp
  | @cons v i work above below frame parent rest ih =>
    intro f hf y hy
    obtain rfl : (v, i) = f := by simpa using hf
    rcases List.mem_append.1 hy with hy | hy
    · exact (frame.joined y hy).2
    · rcases List.mem_cons.1 hy with rfl | hy
      · exact ReflTransGen.refl
      · -- What is further down reaches the item from which this one was entered.
        cases hhead : work.head? with
        | none =>
          rw [List.head?_eq_none_iff] at hhead
          subst hhead
          cases rest
          cases hy
        | some f => exact ReflTransGen.trans (ih f hhead y hy) (parent f hhead)

/-- One more item is looked at that was entered and is not lower than the low-link. -/
theorem Framed.advance (h : Framed next s ((v, i) :: work) stack) (hw : (next v)[i]? = some w)
    (hentered : s.Entered w) (hlow : w ∈ stack → s.link v ≤ s.rank w) :
    Framed next s ((v, i + 1) :: work) stack := by
  cases h with
  | cons frame parent rest =>
    refine .cons { frame with looked := fun x hx => ?_ } parent rest
    rw [List.take_add_one, hw, Option.toList_some, ← List.append_assoc] at hx
    rcases List.mem_append.1 hx with hx | hx
    · exact frame.looked x hx
    · rw [List.mem_singleton.1 hx]
      exact ⟨hentered, fun hbelow => hlow (by simp [hbelow])⟩

/-- The last item reaches something on the stack, and its low-link is lowered to the number of
that. -/
theorem Framed.lower (h : Framed next s ((v, i) :: work) stack) (hnodup : stack.Nodup)
    (hw : w ∈ stack) (hwalk : Leads next v w) :
    Framed next (s.lower v (s.rank w)) ((v, i) :: work) stack := by
  cases h with
  | @cons _ _ _ above below frame parent rest =>
    have hlink : (s.lower v (s.rank w)).link v = min (s.link v) (s.rank w) := by simp [link_lower]
    refine .cons ⟨frame.joined, ?_, ?_, fun x hx => ?_⟩ parent ?_
    · rw [hlink]
      exact Nat.le_trans (Nat.min_le_left _ _) frame.link_le
    · rw [hlink]
      rcases Nat.le_total (s.link v) (s.rank w) with hle | hle
      · rw [Nat.min_eq_left hle]
        exact frame.reached
      · rw [Nat.min_eq_right hle]
        exact ⟨w, hw, rfl, hwalk⟩
    · obtain ⟨hin, hlow⟩ := frame.looked x hx
      rw [hlink]
      exact ⟨hin, fun hbelow => Nat.le_trans (Nat.min_le_left _ _) (hlow hbelow)⟩
    · refine rest.congr (fun _ hx => hx) (fun _ _ => rfl) fun f hf => ?_
      have hne : f.1 ≠ v := fun heq => by
        have hmem : v ∈ below := heq ▸ rest.mem_stack f hf
        exact (List.nodup_cons.1 (List.nodup_append.1 hnodup).2.1).1 hmem
      simp [link_lower, hne]

/-- What is under a part has lower numbers, and what is above its item higher ones. -/
theorem rank_lt_of_descending (h : (above ++ v :: below).Pairwise fun a b => s.rank b < s.rank a) :
    (∀ x ∈ above, s.rank v < s.rank x) ∧ ∀ x ∈ below, s.rank x < s.rank v := by
  obtain ⟨-, hbelow, hacross⟩ := List.pairwise_append.1 h
  exact ⟨fun x hx => hacross x hx v List.mem_cons_self, (List.pairwise_cons.1 hbelow).1⟩

/-- A low-link under the number of its item stands for something under the part. -/
theorem Frame.exists_below (h : Frame next s v i above below) (hlink : s.link v < s.rank v)
    (hdescending : (above ++ v :: below).Pairwise fun a b => s.rank b < s.rank a) :
    ∃ y ∈ below, s.rank y = s.link v ∧ Leads next v y := by
  obtain ⟨y, hy, hnum, hwalk⟩ := h.reached
  refine ⟨y, ?_, hnum, hwalk⟩
  rcases List.mem_append.1 hy with hy | hy
  · have := (rank_lt_of_descending hdescending).1 y hy
    omega
  · rcases List.mem_cons.1 hy with rfl | hy
    · omega
    · exact hy

/-- An item that is left with a low-link under its own number joins the part of the item from which
it was entered, which reaches what it reaches. -/
theorem Framed.merge (h : Framed next s ((v, i) :: (p, j) :: work) stack)
    (hall : (next v).length ≤ i) (hlink : s.link v < s.rank v)
    (hdescending : stack.Pairwise fun a b => s.rank b < s.rank a) (hnodup : stack.Nodup) :
    Framed next (s.lower p (s.link v)) ((p, j) :: work) stack := by
  cases h with
  | @cons _ _ _ above below frame parent rest =>
    have hpv : Leads next p v := parent (p, j) rfl
    -- What the low-link stands for leads back to `p`.
    obtain ⟨y, hbelow, hnum, hvy⟩ := frame.exists_below hlink hdescending
    have hvp : Leads next v p := ReflTransGen.trans hvy (rest.leads_head (p, j) rfl y hbelow)
    have hrest := (List.nodup_cons.1 (List.nodup_append.1 hnodup).2.1).2
    have hlowered := rest.lower hrest hbelow (ReflTransGen.trans hpv hvy)
    rw [hnum] at hlowered
    cases hlowered with
    | @cons _ _ _ above' below' frame' parent' rest' =>
      have hsplit : above ++ v :: (above' ++ p :: below') =
          (above ++ v :: above') ++ p :: below' := by simp
      rw [hsplit]
      have hmin : (s.lower p (s.link v)).link p ≤ s.link v := by
        rw [link_lower, if_pos rfl]
        exact Nat.min_le_right _ _
      refine .cons ⟨fun x hx => ?_, frame'.link_le, ?_, fun w hw => ?_⟩ parent' rest'
      · rcases List.mem_append.1 hx with hx | hx
        · exact Mutual.trans ⟨hpv, hvp⟩ (frame.joined x hx)
        · rcases List.mem_cons.1 hx with rfl | hx
          · exact ⟨hpv, hvp⟩
          · exact frame'.joined x hx
      · obtain ⟨z, hz, hlow, hwalk⟩ := frame'.reached
        exact ⟨z, by rw [← hsplit]; simp [hz], hlow, hwalk⟩
      · -- Everything that follows the part of `v` was looked at.
        have hold : w ∈ above.flatMap next ++ (next v).take i ∨
            w ∈ above'.flatMap next ++ (next p).take j := by
          rw [List.take_of_length_le hall]
          simp only [List.flatMap_append, List.flatMap_cons, List.mem_append] at hw ⊢
          tauto
        rcases hold with hw | hw
        · obtain ⟨hin, hlow⟩ := frame.looked w hw
          refine ⟨hin, fun hunder => Nat.le_trans hmin (hlow ?_)⟩
          simp [hunder]
        · exact frame'.looked w hw

/-- If an item is left with its own number as its low-link, nothing leads from its part of the stack
to what is under it. -/
theorem Frame.not_mem_below (h : Frame next s v i above below) (hall : (next v).length ≤ i)
    (hlink : s.link v = s.rank v) (hbelow : ∀ x ∈ below, s.rank x < s.rank v) {x y : Fin n}
    (hx : x ∈ above ++ [v]) (hy : y ∈ next x) : s.Entered y ∧ y ∉ below := by
  have hlooked : y ∈ above.flatMap next ++ (next v).take i := by
    rw [List.take_of_length_le hall]
    rcases List.mem_append.1 hx with hx | hx
    · exact List.mem_append_left _ (List.mem_flatMap.2 ⟨x, hx, hy⟩)
    · exact List.mem_append_right _ (List.mem_singleton.1 hx ▸ hy)
  obtain ⟨hin, hlow⟩ := h.looked y hlooked
  refine ⟨hin, fun hunder => ?_⟩
  have := hlow hunder
  have := hbelow y hunder
  omega

/-- The class of such an item is its part, since what leads out of the part leads to items of which
none leads back. -/
theorem Frame.mem_class_iff {done : Fin n → Prop} (h : Frame next s v i above below)
    (hpart : ∀ x ∈ above ++ [v], ∀ y ∈ next x, y ∈ above ++ [v] ∨ done y)
    (hdone : ∀ x, done x → ∀ y ∈ next x, done y) (hv : ¬done v) (x : Fin n) :
    x ∈ above ++ [v] ↔ Mutual next v x := by
  constructor
  · intro hx
    rcases List.mem_append.1 hx with hx | hx
    · exact h.joined x hx
    · rw [List.mem_singleton.1 hx]
      exact Mutual.refl next v
  · rintro ⟨hvx, hxv⟩
    have hclosed : ∀ x, x ∈ above ++ [v] ∨ done x → ∀ y ∈ next x, y ∈ above ++ [v] ∨ done y :=
      fun x hx y hy => hx.elim (hpart x · y hy) fun hx => .inr (hdone x hx y hy)
    refine (hvx.mem_of_closed hclosed (.inl (by simp))).resolve_right fun hx => hv ?_
    exact hxv.mem_of_closed hdone hx

end Framed

/-! ## the invariant -/

/-- What holds of the search between two steps. -/
structure Sound (next : Fin n → List (Fin n)) (s : LowLinks n) : Prop where
  framed : Framed next s s.work s.stack
  held_iff : ∀ v, s.held v = true ↔ v ∈ s.stack
  entered_iff : ∀ v, s.Entered v ↔ v ∈ s.stack ∨ v ∈ s.components.flatten
  rank_lt : ∀ v, s.Entered v → s.rank v < s.nextIndex
  descending : s.stack.Pairwise fun a b => s.rank b < s.rank a
  nodup : (s.stack ++ s.components.flatten).Nodup
  classes : ∀ c ∈ s.components, ∃ a, ∀ b, b ∈ c ↔ Mutual next a b
  closed : ∀ a ∈ s.components.flatten, ∀ b ∈ next a, b ∈ s.components.flatten
  unled : s.components.Pairwise (Unled next)

namespace Sound

variable {v w : Fin n} {i : Nat} {work : List (Fin n × Nat)}

/-- At first the search is sound. -/
theorem start (next : Fin n → List (Fin n)) : Sound next {} where
  framed := .nil
  held_iff v := by simp [held]
  entered_iff v := by simp [Entered, num]
  rank_lt v hv := by simp [Entered, num] at hv
  descending := .nil
  nodup := List.nodup_nil
  classes := by simp
  closed := by simp
  unled := .nil

theorem nodup_stack (h : Sound next s) : s.stack.Nodup := (List.nodup_append.1 h.nodup).1

/-- What is on the stack is in no component. -/
theorem not_mem_flatten (h : Sound next s) (hv : v ∈ s.stack) : v ∉ s.components.flatten :=
  fun hmem => (List.nodup_append.1 h.nodup).2.2 v hv v hmem rfl

/-- What the search is in and the low-links matter to the parts of the stack only. -/
theorem revise {low : Vector Nat n} (h : Sound next s)
    (hframed : Framed next { s with low, work } work s.stack) :
    Sound next { s with low, work } where
  framed := hframed
  held_iff := h.held_iff
  entered_iff := h.entered_iff
  rank_lt := h.rank_lt
  descending := h.descending
  nodup := h.nodup
  classes := h.classes
  closed := h.closed
  unled := h.unled

/-- An item is entered from the last one that the search is in, which has now been looked at from
there; a root is entered from nothing. -/
theorem enter (h : Sound next s) (hw : ¬s.Entered w)
    (hframed : Framed next (s.enter w) work s.stack)
    (hparent : ∀ f ∈ work.head?, Leads next f.1 w) :
    Sound next ((s.goTo work).enter w) := by
  have hnew : w ∉ s.stack := fun hmem => hw ((h.entered_iff w).2 (.inl hmem))
  have hout : w ∉ s.components.flatten := fun hmem => hw ((h.entered_iff w).2 (.inr hmem))
  have hentered : ∀ x, ((s.goTo work).enter w).Entered x ↔ x = w ∨ s.Entered x := fun x =>
    entered_enter_iff
  have hrank : ∀ x, ((s.goTo work).enter w).rank x = if x = w then s.nextIndex else s.rank x :=
    fun x => rank_enter
  have hold : ∀ x ∈ s.stack, ((s.goTo work).enter w).rank x = s.rank x := fun x hx => by
    rw [hrank, if_neg (ne_of_mem_of_not_mem hx hnew)]
  have hframe : Frame next ((s.goTo work).enter w) w 0 [] s.stack := by
    have hlink : ((s.goTo work).enter w).link w = s.nextIndex :=
      link_enter.trans (if_pos rfl)
    have hself : ((s.goTo work).enter w).rank w = s.nextIndex := (hrank w).trans (if_pos rfl)
    have hown : ((s.goTo work).enter w).rank w = ((s.goTo work).enter w).link w :=
      hself.trans hlink.symm
    exact ⟨by simp, Nat.le_of_eq hown.symm, ⟨w, by simp, hown, .refl⟩, by simp⟩
  refine ⟨?_, fun x => ?_, fun x => ?_, fun x hx => ?_, ?_, ?_, h.classes, h.closed, h.unled⟩
  · have hrest : Framed next ((s.goTo work).enter w) work s.stack := hframed.transfer rfl rfl
    exact .cons hframe hparent hrest
  · have hheld : ((s.goTo work).enter w).held x = if x = w then true else s.held x := held_enter
    rw [hheld]
    change _ ↔ x ∈ w :: s.stack
    by_cases hx : x = w
    · simp [hx]
    · simp [hx, h.held_iff]
  · rw [hentered, h.entered_iff]
    change _ ↔ x ∈ w :: s.stack ∨ x ∈ s.components.flatten
    rw [List.mem_cons, or_assoc]
  · rw [hrank]
    change _ < s.nextIndex + 1
    split
    · exact Nat.lt_succ_self _
    · next hne =>
      exact Nat.lt_succ_of_lt (h.rank_lt x (((hentered x).1 hx).resolve_left hne))
  · refine List.pairwise_cons.2 ⟨fun x hx => ?_, h.descending.imp_of_mem fun {x y} hx hy hlt => ?_⟩
    · rw [hold x hx, hrank, if_pos rfl]
      exact h.rank_lt x ((h.entered_iff x).2 (.inl hx))
    · rw [hold x hx, hold y hy]
      exact hlt
  · refine List.nodup_cons.2 ⟨fun hmem => ?_, h.nodup⟩
    exact (List.mem_append.1 hmem).elim hnew hout

/-- The search looks at an item that follows the last one that it is in. -/
theorem look (h : Sound next s) (hwork : s.work = (v, i) :: work) (hw : (next v)[i]? = some w) :
    Sound next ((s.goTo ((v, i + 1) :: work)).look v w) := by
  have hframed : Framed next s ((v, i) :: work) s.stack := hwork ▸ h.framed
  have hwalk : Leads next v w := ReflTransGen.single (List.mem_of_getElem? hw)
  unfold LowLinks.look
  split
  · next hnone =>
    have hnot : ¬s.Entered w := not_entered_iff.2 hnone
    have hnew : w ∉ s.stack := fun hmem => hnot ((h.entered_iff w).2 (.inl hmem))
    refine h.enter hnot (Framed.advance ?_ hw (entered_enter_iff.2 (.inl rfl)) (absurd · hnew)) ?_
    · have hkept : ∀ x, s.Entered x → (s.enter w).Entered x := fun x hx =>
        entered_enter_iff.2 (.inr hx)
      refine hframed.congr hkept (fun x hx => ?_) fun f hf => ?_
      · rw [rank_enter, if_neg (ne_of_mem_of_not_mem hx hnew)]
      · rw [link_enter, if_neg (ne_of_mem_of_not_mem (hframed.mem_stack f hf) hnew)]
    · intro f hf
      obtain rfl : (v, i + 1) = f := by simpa using hf
      exact hwalk
  · next k hk =>
    have hentered : s.Entered w := by
      have hk : s.num w = some k := hk
      simp [Entered, hk]
    obtain rfl : k = s.rank w := by
      have hk : s.num w = some k := hk
      simp [rank, hk]
    split
    · next hheld =>
      have hmem : w ∈ s.stack := (h.held_iff w).1 hheld
      have hlowered := hframed.lower h.nodup_stack hmem hwalk
      have hle : (s.lower v (s.rank w)).link v ≤ s.rank w := by
        rw [link_lower, if_pos rfl]
        exact Nat.min_le_right _ _
      exact h.revise ((hlowered.advance hw hentered fun _ => hle).transfer rfl rfl)
    · next hheld =>
      have hnot : w ∉ s.stack := fun hmem => hheld ((h.held_iff w).2 hmem)
      exact h.revise ((hframed.advance hw hentered (absurd · hnot)).transfer rfl rfl)

section Close

variable {above below : List (Fin n)}

/-- A component takes its part off the stack, and the marks of the part with it. -/
theorem exists_close_eq (h : Sound next s) (hstack : s.stack = above ++ v :: below)
    (work : List (Fin n × Nat)) :
    ∃ marks : Vector Bool n,
      (s.goTo work).close v =
        { s with
          work, stack := below, onStack := marks
          components := s.components ++ [above ++ [v]] } ∧
      ∀ x, marks.get x = true ↔ x ∈ below := by
  have hsplit : (above ++ [v] ++ below).Nodup := by simpa [hstack] using h.nodup_stack
  have hv : v ∉ above := fun hmem =>
    (List.nodup_append.1 (List.nodup_append.1 hsplit).1).2.2 v hmem v List.mem_cons_self rfl
  obtain ⟨marks, hunwind, hmarks⟩ := unwind_append above below s.onStack [] hv
  refine ⟨marks, ?_, fun x => ?_⟩
  · simp only [LowLinks.close, LowLinks.goTo, hstack, hunwind, List.nil_append]
  · have hheld : s.onStack.get x = true ↔ x ∈ above ++ v :: below := hstack ▸ h.held_iff x
    have hunder : x ∈ below → x ∉ above ++ [v] := fun hx hx' =>
      (List.nodup_append.1 hsplit).2.2 x hx' x hx rfl
    rw [hmarks, hheld]
    simp only [List.mem_append, List.mem_cons, List.not_mem_nil, or_false] at hunder ⊢
    tauto

/-- From the part of an item that reaches nothing lower, every step leads into the part or to a
component that is finished. -/
theorem mem_part_or_mem_flatten (h : Sound next s) (hstack : s.stack = above ++ v :: below)
    (hframe : Frame next s v i above below) (hall : (next v).length ≤ i)
    (hlink : s.link v = s.rank v) {a b : Fin n} (ha : a ∈ above ++ [v]) (hb : b ∈ next a) :
    b ∈ above ++ [v] ∨ b ∈ s.components.flatten := by
  have hbelow := (rank_lt_of_descending (hstack ▸ h.descending)).2
  obtain ⟨hin, hnot⟩ := hframe.not_mem_below hall hlink hbelow ha hb
  refine ((h.entered_iff b).1 hin).imp_left fun hmem => ?_
  rw [hstack] at hmem
  simpa [hnot] using hmem

/-- A component is made of the part of an item that reaches nothing lower. -/
theorem close (h : Sound next s) (hstack : s.stack = above ++ v :: below)
    (hframe : Frame next s v i above below) (hall : (next v).length ≤ i)
    (hlink : s.link v = s.rank v) (hframed : Framed next s work below) :
    Sound next ((s.goTo work).close v) := by
  have hout : ∀ x ∈ above ++ v :: below, x ∉ s.components.flatten := fun x hx =>
    h.not_mem_flatten (hstack ▸ hx)
  have hpart : ∀ a ∈ above ++ [v], ∀ b ∈ next a, b ∈ above ++ [v] ∨ b ∈ s.components.flatten :=
    fun a ha b hb => h.mem_part_or_mem_flatten hstack hframe hall hlink ha hb
  have hclass : ∀ x, x ∈ above ++ [v] ↔ Mutual next v x :=
    hframe.mem_class_iff hpart h.closed (hout v (by simp))
  have hflat : (s.components ++ [above ++ [v]]).flatten =
      s.components.flatten ++ (above ++ [v]) := by simp
  obtain ⟨marks, hclose, hmarks⟩ := h.exists_close_eq hstack work
  rw [hclose]
  refine ⟨hframed.transfer rfl rfl, hmarks, fun x => ?_, h.rank_lt, ?_, ?_, ?_, ?_, ?_⟩
  · change s.Entered x ↔ x ∈ below ∨ x ∈ (s.components ++ [above ++ [v]]).flatten
    rw [h.entered_iff, hstack, hflat]
    simp only [List.mem_append, List.mem_cons, List.not_mem_nil, or_false]
    tauto
  · exact (List.pairwise_cons.1 (List.pairwise_append.1 (hstack ▸ h.descending)).2.1).2
  · have hperm : (above ++ v :: below ++ s.components.flatten).Perm
        (below ++ (s.components.flatten ++ (above ++ [v]))) := by
      have hsplit : above ++ v :: below = (above ++ [v]) ++ below := by simp
      rw [hsplit, List.append_assoc, ← List.append_assoc below]
      exact List.perm_append_comm
    rw [hflat]
    exact hperm.nodup_iff.1 (hstack ▸ h.nodup)
  · intro c hc
    rcases List.mem_append.1 hc with hc | hc
    · exact h.classes c hc
    · rw [List.mem_singleton.1 hc]
      exact ⟨v, hclass⟩
  · rw [hflat]
    intro a ha b hb
    rcases List.mem_append.1 ha with ha | ha
    · exact List.mem_append_left _ (h.closed a ha b hb)
    · exact List.mem_append.2 (hpart a ha b hb).symm
  · -- What is finished leads to nothing but what is finished, so not to the new component.
    refine List.pairwise_append.2 ⟨h.unled, List.pairwise_singleton _ _, fun c hc d hd => ?_⟩
    rw [List.mem_singleton.1 hd]
    intro a ha b hb hab
    have hmem := h.closed a (List.mem_flatten_of_mem hc ha) b hab
    refine hout b ?_ hmem
    simp only [List.mem_append, List.mem_cons, List.not_mem_nil, or_false] at hb ⊢
    tauto

end Close

/-- The search leaves the last item that it is in. -/
theorem leave (h : Sound next s) (hwork : s.work = (v, i) :: work)
    (hall : (next v).length ≤ i) : Sound next (((s.goTo work).passOn v).settle v) := by
  have hframed : Framed next s ((v, i) :: work) s.stack := hwork ▸ h.framed
  have hnum : s.num v = some (s.rank v) :=
    num_eq_some_rank ((h.entered_iff v).2 (.inl (hframed.mem_stack _ List.mem_cons_self)))
  generalize hstack : s.stack = stack at hframed
  have hdescending := hstack ▸ h.descending
  have hnodup := hstack ▸ h.nodup_stack
  cases hframed with
  | @cons _ _ _ above below frame parent rest =>
    obtain ⟨-, hbelow⟩ := rank_lt_of_descending hdescending
    rcases Nat.lt_or_eq_of_le frame.link_le with hlink | hlink
    · cases work with
      | nil =>
        -- Without an item to go back to there is nothing under the part.
        obtain ⟨y, hy, -⟩ := frame.exists_below hlink hdescending
        cases rest
        cases hy
      | cons f work =>
        obtain ⟨p, j⟩ := f
        have hp : s.rank p < s.rank v := hbelow p (rest.mem_stack _ List.mem_cons_self)
        have hpv : v ≠ p := fun heq => Nat.lt_irrefl _ (heq ▸ hp)
        have hmerged := (Framed.cons frame parent rest).merge hall hlink hdescending hnodup
        have hopen : ¬(s.lower p (s.link v)).num v = some ((s.lower p (s.link v)).link v) := by
          rw [num_lower, link_lower, if_neg hpv, hnum]
          simpa using Nat.ne_of_gt hlink
        have hsettle : (((s.goTo ((p, j) :: work)).passOn v).settle v) =
            (s.goTo ((p, j) :: work)).lower p (s.link v) := if_neg hopen
        rw [hsettle]
        exact h.revise (hstack ▸ hmerged.transfer rfl rfl)
    · have hpass : (s.goTo work).passOn v = s.goTo work := by
        cases rest with
        | nil => rfl
        | @cons p _ _ _ _ frame' _ _ =>
          have hlt : s.rank p < s.rank v := hbelow p (by simp)
          exact lower_of_le (s := s.goTo _) (Nat.le_trans frame'.link_le (hlink ▸ Nat.le_of_lt hlt))
      have hsettle : (s.goTo work).settle v = (s.goTo work).close v := by
        refine if_pos ?_
        rw [num_goTo, hnum]
        exact congrArg some hlink.symm
      rw [hpass, hsettle]
      exact h.close hstack frame hall hlink rest

/-- A step keeps the invariant. -/
theorem step (h : Sound next s) (hstep : s.step next = some s') : Sound next s' := by
  unfold LowLinks.step at hstep
  cases hwork : s.work with
  | nil => simp [hwork] at hstep
  | cons f work =>
    obtain ⟨v, i⟩ := f
    simp only [hwork] at hstep
    cases hw : (next v)[i]? with
    | some w =>
      simp only [hw, Option.some.injEq] at hstep
      exact hstep ▸ h.look hwork hw
    | none =>
      simp only [hw, Option.some.injEq] at hstep
      exact hstep ▸ h.leave hwork (List.getElem?_eq_none_iff.1 hw)

end Sound

/-! ## the whole search -/

/-- The search stops when there is nothing to work on. -/
theorem work_eq_nil_of_step (h : s.step next = none) : s.work = [] := by
  unfold step at h
  cases hwork : s.work with
  | nil => rfl
  | cons f work =>
    simp only [hwork] at h
    split at h <;> cases h

/-- What was entered stays so. -/
theorem Entered.step {v : Fin n} (hv : s.Entered v) (h : s.step next = some s') : s'.Entered v := by
  unfold LowLinks.step at h
  cases hwork : s.work with
  | nil => simp [hwork] at h
  | cons f work =>
    obtain ⟨u, i⟩ := f
    simp only [hwork] at h
    cases hw : (next u)[i]? with
    | some w =>
      simp only [hw, Option.some.injEq] at h
      subst h
      unfold look
      split
      · exact entered_enter_iff.2 (.inr hv)
      · split <;> exact hv
    | none =>
      simp only [hw, Option.some.injEq] at h
      subst h
      rwa [Entered, num_settle, num_passOn]

/-- The search from an item keeps the invariant and what was entered, and ends in no item. -/
theorem Sound.run (h : Sound next s) :
    Sound next (s.run next) ∧ (s.run next).work = [] ∧
      ∀ v, s.Entered v → (s.run next).Entered v := by
  fun_induction LowLinks.run next s with
  | case1 s hstep => exact ⟨h, work_eq_nil_of_step hstep, fun _ hv => hv⟩
  | case2 s s' hstep ih =>
    obtain ⟨hsound, hend, hentered⟩ := ih (h.step hstep)
    exact ⟨hsound, hend, fun v hv => hentered v (hv.step hstep)⟩

/-- A visit keeps the search sound, finishes its work and enters its root. -/
theorem Sound.visit (h : Sound next s) (hwork : s.work = []) (root : Fin n) :
    Sound next (s.visit next root) ∧ (s.visit next root).work = [] ∧
      ∀ v, v = root ∨ s.Entered v → (s.visit next root).Entered v := by
  unfold LowLinks.visit
  split
  · next hroot =>
    refine ⟨h, hwork, ?_⟩
    rintro v (rfl | hv)
    · exact hroot
    · exact hv
  · next hroot =>
    have hframed : Framed next (s.enter root) [] s.stack := by
      have hnil := hwork ▸ h.framed
      generalize s.stack = stack at hnil
      cases hnil
      exact .nil
    have hsame : s.goTo [] = s := by rw [← hwork]; rfl
    obtain ⟨hsound, hend, hentered⟩ := (hsame ▸ h.enter hroot hframed (by simp)).run
    exact ⟨hsound, hend, fun v hv => hentered v (entered_enter_iff.2 hv)⟩

/-- When the search is over, every item was entered and the search is in none. -/
theorem sound_search (next : Fin n → List (Fin n)) :
    Sound next (search next) ∧ (search next).work = [] ∧ ∀ v, (search next).Entered v := by
  have hall : ∀ (roots : List (Fin n)) (s : LowLinks n), Sound next s → s.work = [] →
      Sound next (roots.foldl (LowLinks.visit next) s) ∧
        (roots.foldl (LowLinks.visit next) s).work = [] ∧
        ∀ v, v ∈ roots ∨ s.Entered v → (roots.foldl (LowLinks.visit next) s).Entered v := by
    intro roots
    induction roots with
    | nil => exact fun s h hwork => ⟨h, hwork, by simp⟩
    | cons root roots ih =>
      intro s h hwork
      obtain ⟨hsound, hend, hentered⟩ := h.visit hwork root
      obtain ⟨hsound, hend, hrest⟩ := ih (s.visit next root) hsound hend
      refine ⟨hsound, hend, fun v hv => hrest v ?_⟩
      rw [List.mem_cons, or_assoc] at hv
      rcases hv with hv | hv | hv
      · exact .inr (hentered v (.inl hv))
      · exact .inl hv
      · exact .inr (hentered v (.inr hv))
  obtain ⟨hsound, hend, hentered⟩ := hall (List.finRange n) {} (Sound.start next) rfl
  exact ⟨hsound, hend, fun v => hentered v (.inl (List.mem_finRange v))⟩

/-- The components hold every item once. -/
theorem perm_flatten_search (next : Fin n → List (Fin n)) :
    (search next).components.flatten.Perm (List.finRange n) := by
  obtain ⟨hsound, hend, hentered⟩ := sound_search next
  have hempty : (search next).stack = [] := by
    have hframed := hend ▸ hsound.framed
    generalize (search next).stack = stack at hframed
    cases hframed
    rfl
  have hnodup := hsound.nodup
  rw [hempty, List.nil_append] at hnodup
  refine (List.perm_ext_iff_of_nodup hnodup (List.nodup_finRange n)).2 fun v => ?_
  refine iff_of_true ?_ (List.mem_finRange v)
  simpa [hempty] using (hsound.entered_iff v).1 (hentered v)

/-- Each component is the class of one of its items. -/
theorem mem_component_search_iff {c : List (Fin n)} (hc : c ∈ (search next).components) :
    ∃ a, ∀ b, b ∈ c ↔ Mutual next a b :=
  (sound_search next).1.classes c hc

/-- No component leads to a later one. -/
theorem pairwise_search (next : Fin n → List (Fin n)) :
    (search next).components.Pairwise (Unled next) :=
  (sound_search next).1.unled

end LowLinks

end ConnectorAudit
