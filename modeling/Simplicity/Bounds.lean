import Simplicity.Expression.Basic

/-!
# Resource bounds

The cost of a node is counted in milli weight units: every combinator pays a fixed overhead, and
the bits that it copies. Besides the cost, the bounds of a node count the cells and the frames
that it needs beyond those of its input and output. Numbers that are too large to be told apart
stay at their highest value.
-/

namespace Simplicity

/-- A cost in milli weight units. -/
structure Cost where
  milli : Nat
  deriving DecidableEq, Repr

namespace Cost

/-- The highest cost that is told apart: one less than two to the power 32. -/
def maxMilli : Nat :=
  4294967295

/-- What every combinator pays. -/
def overhead : Nat :=
  100

def zero : Cost :=
  ⟨0⟩

def ofMilli (milli : Nat) : Cost :=
  ⟨min milli maxMilli⟩

/-- The cost in whole weight units, rounded up. -/
def weight (cost : Cost) : Nat :=
  cost.milli / 1000 + if cost.milli % 1000 = 0 then 0 else 1

/-- A cost with a number of units added. -/
def plus (cost : Cost) (milli : Nat) : Cost :=
  ofMilli (cost.milli + milli)

/-- One cost after another. -/
def add (left right : Cost) : Cost :=
  left.plus right.milli

instance : Add Cost :=
  ⟨add⟩

def higher (left right : Cost) : Cost :=
  ⟨max left.milli right.milli⟩

def text (cost : Cost) : String :=
  s!"{cost.milli} mWU"

end Cost

/-- The bounds of a node and all that is below it. -/
structure Bounds where
  cost : Cost
  /-- The cells beyond those of the input and output. -/
  cells : Nat
  /-- The frames beyond those of the input and output. -/
  frames : Nat
  deriving DecidableEq, Repr

namespace Bounds

def zero : Bounds :=
  ⟨.zero, 0, 0⟩

def maxCells (left right : Bounds) : Nat :=
  max left.cells right.cells

def maxFrames (left right : Bounds) : Nat :=
  max left.frames right.frames

/-- A number of cells or frames, as far as it is told apart. -/
def clamp (number : Nat) : Nat :=
  min number maxWidth

end Bounds

namespace Expression

variable (expression : Expression)

/-- The bounds of the node at an index, whose children are given by their indices and bounds. -/
def boundsOf (index : Nat) (node : Combinator (Nat × Bounds)) : Except Error Bounds :=
  let base : Cost := ⟨Cost.overhead⟩
  match node with
  | .hidden _ => .ok .zero
  | .iden => do
      let arrow ← expression.arrow index
      return ⟨base.plus arrow.source.width, 0, 0⟩
  | .unit => .ok ⟨base, 0, 0⟩
  | .witness => do
      let arrow ← expression.arrow index
      return ⟨base.plus arrow.target.width, 0, 0⟩
  | .injl (_, child) | .injr (_, child) | .take (_, child) | .drop (_, child) =>
      .ok ⟨base + child.cost, child.cells, child.frames⟩
  | .comp (leftIndex, left) (_, right) => do
      let arrow ← expression.arrow leftIndex
      let middle := arrow.target.width
      return {
        cost := base.plus middle + left.cost + right.cost
        cells := Bounds.clamp (middle + left.maxCells right)
        frames := Bounds.clamp (left.maxFrames right + 1) }
  | .pair (_, left) (_, right) =>
      .ok ⟨base + left.cost + right.cost, left.maxCells right, left.maxFrames right⟩
  | .case (_, left) (_, right) | .assertl (_, left) (_, right) | .assertr (_, left) (_, right) =>
      .ok ⟨base + left.cost.higher right.cost, left.maxCells right, left.maxFrames right⟩
  | .disconnect (leftIndex, left) (_, right) => do
      let arrow ← expression.arrow leftIndex
      let copied := Bounds.clamp (arrow.source.width + arrow.target.width)
      return {
        cost := base.plus copied + left.cost + right.cost
        cells := Bounds.clamp (copied + left.maxCells right)
        frames := Bounds.clamp (left.maxFrames right + 2) }

def nodeBounds : Except Error (Vector Bounds expression.dag.nodes.size) :=
  expression.dag.scan fun index node => expression.boundsOf index node

def bounds : Except Error Bounds := do
  let bounds ← expression.nodeBounds
  return bounds.get expression.last

def cost : Except Error Cost := do
  return (← expression.bounds).cost

end Expression

end Simplicity
