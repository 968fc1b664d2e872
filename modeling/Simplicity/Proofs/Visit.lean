import Simplicity.Visit

/-!
# Runs of walks

What the first visits of a walk come to does not depend on the visits after them. `Runs` says what they
come to and how much fuel they take; runs are put together from single visits.
-/

namespace Simplicity

variable {ε σ : Type} {step : Visit → σ → Except ε (List Visit × σ)}

/-- Some visits take so much fuel, and then the walk continues as given, whatever comes after them. -/
def Runs (step : Visit → σ → Except ε (List Visit × σ)) (cost : Nat) (visits : List Visit) (state : σ)
    (next : Nat → List Visit → Except ε σ) : Prop :=
  ∀ fuel rest, walkFrom step (cost + fuel) (visits ++ rest) state = next fuel rest

/-- A walk goes on from where it has come to. -/
def goesOn (step : Visit → σ → Except ε (List Visit × σ)) (state : σ) (fuel : Nat)
    (rest : List Visit) : Except ε σ :=
  walkFrom step fuel rest state

/-- A walk has failed, whatever is still to be visited. -/
def failsWith (error : ε) (_fuel : Nat) (_rest : List Visit) : Except ε σ :=
  .error error

theorem goesOn_nil (state : σ) (fuel : Nat) : goesOn step state fuel [] = .ok state := by
  cases fuel <;> rfl

namespace Runs

variable {cost cost' enough : Nat} {visit : Visit} {pushed visits visits' : List Visit}
  {state state' : σ} {next : Nat → List Visit → Except ε σ} {error : ε}

theorem nil : Runs step 0 [] state (goesOn step state) := by
  intro fuel rest
  rw [Nat.zero_add]
  rfl

theorem cons (stepped : step visit state = .ok (pushed, state'))
    (runs : Runs step cost (pushed ++ visits) state' next) :
    Runs step (cost + 1) (visit :: visits) state next := by
  intro fuel rest
  rw [Nat.add_right_comm, ← runs fuel rest, List.cons_append, walkFrom, stepped, List.append_assoc]
  rfl

theorem cons_of_fails (failed : step visit state = .error error) :
    Runs step 1 (visit :: visits) state (failsWith error) := by
  intro fuel rest
  rw [Nat.add_comm, List.cons_append, walkFrom, failed]
  rfl

theorem append (first : Runs step cost visits state (goesOn step state'))
    (second : Runs step cost' visits' state' next) :
    Runs step (cost + cost') (visits ++ visits') state next := by
  intro fuel rest
  rw [Nat.add_assoc, List.append_assoc, first, goesOn, second]

theorem append_of_fails (fails : Runs step cost visits state (failsWith error)) :
    Runs step cost (visits ++ visits') state (failsWith error) := by
  intro fuel rest
  rw [List.append_assoc, fails]
  rfl

/-- A visit brings others, and what comes after these is visited when they are done. -/
theorem cons_append {last : Visit} (stepped : step visit state = .ok (pushed ++ [last], state'))
    {middle : σ} (first : Runs step cost pushed state' (goesOn step middle))
    (second : Runs step cost' (last :: visits) middle next) :
    Runs step (cost + cost' + 1) (visit :: visits) state next := by
  refine .cons stepped ?_
  rw [List.append_assoc]
  exact first.append second

theorem cons_append_of_fails {last : Visit}
    (stepped : step visit state = .ok (pushed ++ [last], state'))
    (fails : Runs step cost pushed state' (failsWith error)) :
    Runs step (cost + 1) (visit :: visits) state (failsWith error) := by
  refine .cons stepped ?_
  rw [List.append_assoc]
  exact fails.append_of_fails

/-- With enough fuel a walk comes to what its visits come to. -/
theorem exists_eq (runs : Runs step cost visits state next) (le : cost ≤ enough) :
    ∃ fuel, walkFrom step enough visits state = next fuel [] := by
  rcases Nat.exists_eq_add_of_le le with ⟨fuel, rfl⟩
  refine ⟨fuel, ?_⟩
  rw [← runs fuel [], List.append_nil]

end Runs

end Simplicity
