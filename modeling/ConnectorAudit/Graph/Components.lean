import ConnectorAudit.Graph

/-!
# Components and cycles

Two nodes belong to one component if each can be reached from the other.  One
depth-first search finds all components.  It numbers the nodes in the order in
which it enters them and keeps those that are in no component yet on a stack; the
low-link of a node is the lowest number on the stack that is known to be reached
from it.  A node that is left with its own number as its low-link is the lowest of
its component, which stands on the stack from that node up.

The search does not call itself: `work` holds the nodes that it is in, each with
the number of those following it that it has looked at.  The components come out
so that an edge between two of them leads to one that comes earlier.
-/

namespace ConnectorAudit

/-- A search among `n` items. -/
structure LowLinks (n : Nat) where
  /-- The numbers of the items entered. -/
  index : Vector (Option Nat) n := .replicate n none
  low : Vector Nat n := .replicate n 0
  onStack : Vector Bool n := .replicate n false
  /-- The items that were entered and are in no component, last one first. -/
  stack : List (Fin n) := []
  /-- The items that the search is in, last one first, with how many that follow were looked
  at. -/
  work : List (Fin n × Nat) := []
  nextIndex : Nat := 0
  components : List (List (Fin n)) := []

namespace LowLinks

variable {n : Nat}

def num (s : LowLinks n) (v : Fin n) : Option Nat := s.index[v]

def link (s : LowLinks n) (v : Fin n) : Nat := s.low[v]

def held (s : LowLinks n) (v : Fin n) : Bool := s.onStack[v]

def enter (s : LowLinks n) (v : Fin n) : LowLinks n where
  index := s.index.set v (some s.nextIndex)
  low := s.low.set v s.nextIndex
  onStack := s.onStack.set v true
  stack := v :: s.stack
  work := (v, 0) :: s.work
  nextIndex := s.nextIndex + 1
  components := s.components

def lower (s : LowLinks n) (v : Fin n) (k : Nat) : LowLinks n :=
  { s with low := s.low.set v (min (s.link v) k) }

/-- The search is in other items. -/
def goTo (s : LowLinks n) (work : List (Fin n × Nat)) : LowLinks n := { s with work }

/-- Looks at `w`, which follows `v`: enters it, or notes its number if it is on the stack. -/
def look (s : LowLinks n) (v w : Fin n) : LowLinks n :=
  match s.num w with
  | none => s.enter w
  | some k => if s.held w then s.lower v k else s

/-- Takes items off the stack and puts them into a component, up to and with `v`. -/
def unwind (v : Fin n) : (stack : List (Fin n)) → (onStack : Vector Bool n) →
    (component : List (Fin n)) → List (Fin n) × Vector Bool n × List (Fin n)
  | [], onStack, component => ([], onStack, component)
  | w :: stack, onStack, component =>
    if w = v then (stack, onStack.set w false, component ++ [w])
    else unwind v stack (onStack.set w false) (component ++ [w])

/-- Makes a component of what stands on the stack from `v` up. -/
def close (s : LowLinks n) (v : Fin n) : LowLinks n :=
  let (stack, onStack, component) := unwind v s.stack s.onStack []
  { s with stack, onStack, components := s.components ++ [component] }

/-- The item that the search is back in can reach what `v` can. -/
def passOn (s : LowLinks n) (v : Fin n) : LowLinks n :=
  match s.work with
  | [] => s
  | (parent, _) :: _ => s.lower parent (s.link v)

/-- Makes a component if `v` is the lowest item of one. -/
def settle (s : LowLinks n) (v : Fin n) : LowLinks n :=
  if s.num v = some (s.link v) then s.close v else s

/-- What the search does next: it looks at an item that follows the last one entered, or leaves
that one; nothing if it is in no item. -/
def step (next : Fin n → List (Fin n)) (s : LowLinks n) : Option (LowLinks n) :=
  match s.work with
  | [] => none
  | (v, i) :: work =>
    match (next v)[i]? with
    | some w => some ((s.goTo ((v, i + 1) :: work)).look v w)
    | none => some (((s.goTo work).passOn v).settle v)

/-! ## what the parts of a step change -/

@[simp]
theorem num_goTo (s : LowLinks n) (work : List (Fin n × Nat)) : (s.goTo work).num = s.num := rfl

@[simp]
theorem num_lower (s : LowLinks n) (v : Fin n) (k : Nat) : (s.lower v k).num = s.num := rfl

@[simp]
theorem num_close (s : LowLinks n) (v : Fin n) : (s.close v).num = s.num := rfl

@[simp]
theorem num_passOn (s : LowLinks n) (v : Fin n) : (s.passOn v).num = s.num := by
  unfold passOn
  split <;> rfl

@[simp]
theorem num_settle (s : LowLinks n) (v : Fin n) : (s.settle v).num = s.num := by
  unfold settle
  split <;> rfl

/-- Entering an item gives it the next number, and no other. -/
theorem num_enter (s : LowLinks n) (v u : Fin n) :
    (s.enter v).num u = if u = v then some s.nextIndex else s.num u := by
  simp [num, enter, Vector.getElem_set, Fin.ext_iff, eq_comm]

@[simp]
theorem work_passOn (s : LowLinks n) (v : Fin n) : (s.passOn v).work = s.work := by
  unfold passOn
  split <;> rfl

@[simp]
theorem work_settle (s : LowLinks n) (v : Fin n) : (s.settle v).work = s.work := by
  unfold settle
  split <;> rfl

/-! ## the search ends -/

/-- What it will cost to enter an item, to look at each that follows it and to leave it again. -/
def cost (next : Fin n → List (Fin n)) (s : LowLinks n) (v : Fin n) : Nat :=
  if (s.num v).isNone then (next v).length + 2 else 0

/-- What some items cost together. -/
def total {α : Type} (f : α → Nat) : List α → Nat
  | [] => 0
  | a :: l => f a + total f l

/-- How many steps are left at most. -/
def left (next : Fin n → List (Fin n)) (s : LowLinks n) : Nat :=
  total (s.cost next) (List.finRange n) + total (fun f => (next f.1).length - f.2 + 1) s.work

/-- A total that loses what one item costs. -/
theorem total_add_le {α : Type} {f f' : α → Nat} {a : α} (h : ∀ b, f' b ≤ f b) (ha : f' a = 0)
    {l : List α} (hmem : a ∈ l) : total f' l + f a ≤ total f l := by
  have hle : ∀ l : List α, total f' l ≤ total f l := by
    intro l
    induction l with
    | nil => exact Nat.le_refl _
    | cons b l ih => exact Nat.add_le_add (h b) ih
  induction l with
  | nil => cases hmem
  | cons b l ih =>
    simp only [total]
    rcases List.mem_cons.1 hmem with rfl | hmem
    · have := hle l
      omega
    · have := ih hmem
      have := h b
      omega

/-- An item that is entered is one fewer that can be. -/
theorem left_enter_lt (next : Fin n → List (Fin n)) (s : LowLinks n) {v : Fin n}
    (hv : s.num v = none) : (s.enter v).left next < s.left next := by
  have hle : ∀ u, (s.enter v).cost next u ≤ s.cost next u := by
    intro u
    by_cases hu : u = v <;> simp [cost, num_enter, hu]
  have hsum := total_add_le hle (by simp [cost, num_enter]) (List.mem_finRange v)
  have hcost : s.cost next v = (next v).length + 2 := by simp [cost, hv]
  have hwork : total (fun f => (next f.1).length - f.2 + 1) (s.enter v).work =
      (next v).length + 1 + total (fun f => (next f.1).length - f.2 + 1) s.work := rfl
  unfold left
  omega

/-- Looking at an item costs nothing that was left to do. -/
theorem left_look_le (next : Fin n → List (Fin n)) (s : LowLinks n) (v w : Fin n) :
    (s.look v w).left next ≤ s.left next := by
  unfold look
  split
  · next hnone => exact Nat.le_of_lt (left_enter_lt next s hnone)
  · split <;> exact Nat.le_refl _

/-- Every step leaves less to do, so the search ends. -/
theorem left_step_lt {next : Fin n → List (Fin n)} {s s' : LowLinks n}
    (h : s.step next = some s') : s'.left next < s.left next := by
  unfold step at h
  cases hwork : s.work with
  | nil => simp [hwork] at h
  | cons frame work =>
    obtain ⟨v, i⟩ := frame
    have hsum : total (fun f => (next f.1).length - f.2 + 1) s.work = (next v).length - i + 1 +
        total (fun f => (next f.1).length - f.2 + 1) work := by rw [hwork]; rfl
    simp only [hwork] at h
    cases hw : (next v)[i]? with
    | some w =>
      simp only [hw, Option.some.injEq] at h
      subst h
      obtain ⟨hi, -⟩ := List.getElem?_eq_some_iff.1 hw
      refine Nat.lt_of_le_of_lt (left_look_le next _ v w) ?_
      have hmoved : (s.goTo ((v, i + 1) :: work)).left next =
          total (s.cost next) (List.finRange n) + ((next v).length - (i + 1) + 1 +
            total (fun f => (next f.1).length - f.2 + 1) work) := rfl
      rw [hmoved, left, hsum]
      omega
    | none =>
      simp only [hw, Option.some.injEq] at h
      subst h
      have hcost : (((s.goTo work).passOn v).settle v).cost next = s.cost next := by
        funext u
        simp [cost]
      rw [left, left, hcost, work_settle, work_passOn, hsum]
      exact Nat.add_lt_add_left (Nat.lt_add_of_pos_left (Nat.succ_pos _)) _

/-- Goes on until the search is in no item. -/
def run (next : Fin n → List (Fin n)) (s : LowLinks n) : LowLinks n :=
  match _h : s.step next with
  | none => s
  | some s' => run next s'
termination_by s.left next
decreasing_by exact left_step_lt _h

/-- Searches from an item, unless it was entered before. -/
def visit (next : Fin n → List (Fin n)) (s : LowLinks n) (root : Fin n) : LowLinks n :=
  if (s.num root).isSome then s else (s.enter root).run next

/-- The search from each item in turn. -/
def search (next : Fin n → List (Fin n)) : LowLinks n :=
  (List.finRange n).foldl (visit next) {}

end LowLinks

/-- The order of words in a dictionary, carried over to lists of texts. -/
def lexLe : List String → List String → Bool
  | [], _ => true
  | _ :: _, [] => false
  | a :: as, b :: bs => a < b || (a == b && lexLe as bs)

namespace Graph

/-- The row of a node as positions; nodes without a row are left out. -/
def Adjacency.positions (rows : Array (String × List String)) (v : Fin rows.size) :
    List (Fin rows.size) :=
  rows[v].2.filterMap fun target => rows.findFinIdx? (·.1 == target)

/-- The components, each in the order in which its nodes are taken off the stack. -/
def groups (g : Graph) : List (List String) :=
  let rows := g.adjacency.toArray
  let follow := Vector.ofFn (Adjacency.positions rows)
  (LowLinks.search fun v => follow[v]).components.map fun component =>
    component.map fun v => rows[v].1

/-- The components, each in the order of the ids. -/
def components (g : Graph) : List (List String) := g.groups.map (·.mergeSort (· ≤ ·))

/-- The nodes from which an edge leads to themselves. -/
def selfLoops (g : Graph) : List String :=
  (g.edges.filter fun e => e.source == e.target).map Edge.source

/-- The components of more than one node, and those of a node with a loop, in order. -/
def cycles (g : Graph) : List (List String) :=
  let loops := g.selfLoops
  (g.components.filter fun c => 1 < c.length || c.head?.any loops.contains).mergeSort lexLe

end Graph

end ConnectorAudit
