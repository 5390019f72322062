/-!
# Loops that end

A loop that goes on while something is left is written with a guard, so that it ends
whatever its body does.  Here is what it means that the guard never bites.  A *round* is the
body of the loop without the guard: it says what to make of a state, given what is made of
the states it goes on to.

* `Descends.ends`: if a round goes on only to states where less is left, the loop is the one
  function that the round describes.
-/

namespace ConnectorAudit

variable {σ β : Type}

/-- The round goes on only to states where less is left. -/
def Descends (left : σ → Nat) (round : (σ → β) → σ → β) : Prop :=
  ∀ f g s, (∀ s', left s' < left s → f s' = g s') → round f s = round g s

/-- The loop goes from round to round without a guard and ends: each round leaves less, and
nothing but the loop does what the rounds say. -/
structure Ends (left : σ → Nat) (round : (σ → β) → σ → β) (loop : σ → β) : Prop where
  descends : Descends left round
  eq_round_iff : ∀ f, (∀ s, f s = round f s) ↔ f = loop

/-- A loop that goes down in every round ends. -/
theorem Descends.ends {left : σ → Nat} {round : (σ → β) → σ → β} {loop : σ → β}
    (h : Descends left round) (hloop : ∀ s, loop s = round loop s) : Ends left round loop where
  descends := h
  eq_round_iff f := by
    constructor
    · intro hf
      funext s
      induction hn : left s using Nat.strongRecOn generalizing s with
      | ind n ih =>
        calc
          f s = round f s := hf s
          _ = round loop s := h f loop s fun s' hs' => ih (left s') (hn ▸ hs') s' rfl
          _ = loop s := (hloop s).symm
    · rintro rfl
      exact hloop

end ConnectorAudit
