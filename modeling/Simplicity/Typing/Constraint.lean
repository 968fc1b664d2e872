import Simplicity.Combinator
import Simplicity.Typing.Classes

/-!
# Typing constraints

Every node has two type variables, for its source and its target. The typing rule of its
combinator says how these and those of its children hang together, and `constrain` imposes that
on the classes of variables.
-/

namespace Simplicity.Typing

/-- The type variables of a node. -/
structure Ends where
  source : Var
  target : Var
  deriving Inhabited

/-- The classes found so far, and the variable that stands for 256-bit words, once there is
one. -/
structure Solver where
  classes : Classes
  /-- Stands for 256-bit words. -/
  word : Option Var

/-- A step of inference. -/
abbrev Solve (α : Type) : Type :=
  StateT Solver (Except TypeError) α

namespace Solve

/-- A new variable, of whose type something may be known. -/
def var (bound : Bound) : Solve Var := fun solver =>
  .ok (solver.classes.size, { solver with classes := solver.classes.push bound })

/-- A new variable of whose type nothing is known. -/
def fresh : Solve Var :=
  var .free

/-- Makes two variables stand for the same type. -/
def unify (left right : Var) (node : Nat) : Solve Unit := fun ⟨classes, word⟩ =>
  match classes.unify left right node with
  | .ok classes => .ok ((), ⟨classes, word⟩)
  | .error error => .error error

/-- Makes a variable stand for a type of which something is known. -/
def bind (var : Var) (bound : Bound) (node : Nat) : Solve Unit := fun ⟨classes, word⟩ =>
  match classes.bind var bound node with
  | .ok classes => .ok ((), ⟨classes, word⟩)
  | .error error => .error error

/-- Doubles a word type a number of times. -/
def double : (times : Nat) → Var → Solve Var
  | 0, word => return word
  | times + 1, word => do
      let doubled ← var (.prod word word)
      double times doubled

/-- The variable that stands for 256-bit words. -/
def word256 : Solve Var := do
  match (← get).word with
  | some word => return word
  | none =>
      let unit ← var .unit
      let bit ← var (.sum unit unit)
      let word ← double 8 bit
      modify fun solver => { solver with word := some word }
      return word

/-- Makes a branch of a choice take the given component together with the context, and produce
the target of the choice. -/
def branch (index : Nat) (component context target : Var) (child : Ends) : Solve Unit := do
  bind child.source (.prod component context) index
  unify target child.target index

/-- Imposes the typing rule of the node at an index, whose children are given by their
variables. -/
def constrain (index : Nat) (own : Ends) : Combinator Ends → Solve Unit
  | .iden => unify own.source own.target index
  | .unit => bind own.target .unit index
  | .injl child => do
      unify own.source child.source index
      let other ← fresh
      bind own.target (.sum child.target other) index
  | .injr child => do
      unify own.source child.source index
      let other ← fresh
      bind own.target (.sum other child.target) index
  | .take child => do
      let other ← fresh
      bind own.source (.prod child.source other) index
      unify own.target child.target index
  | .drop child => do
      let other ← fresh
      bind own.source (.prod other child.source) index
      unify own.target child.target index
  | .comp left right => do
      unify own.source left.source index
      unify left.target right.source index
      unify own.target right.target index
  | .pair left right => do
      unify own.source left.source index
      unify own.source right.source index
      bind own.target (.prod left.target right.target) index
  | .case left right => do
      let (a, b, c) ← choice
      branch index a c own.target left
      branch index b c own.target right
  | .assertl left _ => do
      let (a, _, c) ← choice
      branch index a c own.target left
  | .assertr _ right => do
      let (_, b, c) ← choice
      branch index b c own.target right
  | .disconnect left right => do
      let word ← word256
      bind left.source (.prod word own.source) index
      let b ← fresh
      bind left.target (.prod b right.source) index
      bind own.target (.prod b right.target) index
  | .witness | .hidden _ => return ()
where
  /-- Makes the source of a choice the product of a sum and a context, and gives the variables
  of the two sides and of the context. -/
  choice : Solve (Var × Var × Var) := do
    let a ← fresh
    let b ← fresh
    let c ← fresh
    let sum ← var (.sum a b)
    bind own.source (.prod sum c) index
    return (a, b, c)

end Solve

end Simplicity.Typing
