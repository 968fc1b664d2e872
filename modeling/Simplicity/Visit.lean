/-!
# Depth-first walks

A depth-first walk keeps a list of what it has still to do. A vertex is entered, everything it
leads to is walked, and then the vertex is left.
-/

namespace Simplicity

/-- What a depth-first walk has still to do with a vertex. -/
inductive Visit where
  /-- The vertex has not been looked at. -/
  | enter (vertex : Nat)
  /-- All that the vertex leads to has been walked. -/
  | leave (vertex : Nat)
  deriving DecidableEq, Repr

/-- Does visits one after another, as long as there is fuel. The visits that a step brings come before
those that were there. -/
def walkFrom {m : Type → Type} [Monad m] {σ : Type} (step : Visit → σ → m (List Visit × σ)) :
    (fuel : Nat) → List Visit → σ → m σ
  | 0, _, state => pure state
  | _ + 1, [], state => pure state
  | fuel + 1, visit :: rest, state => do
      let (visits, state) ← step visit state
      walkFrom step fuel (visits ++ rest) state

end Simplicity
