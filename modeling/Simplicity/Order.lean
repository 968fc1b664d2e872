import Simplicity.Combinator
import Simplicity.Error
import Simplicity.Visit

/-!
# Canonical order

The canonical order of an expression is its post-order: the children of a node from left to
right, each the first time it is met, and then the node. `checkOrder` walks the nodes from the last
one on and compares the index of each node that it leaves with the number of nodes left before. A
node is marked when it is entered, and a child that is marked is not put on the list of visits.

It is applied only to nodes whose children come before them. Each of these is entered once and then
adds at most three visits to the walk, so `3 * size + 1` visits suffice.
-/

namespace Simplicity

/-- How far the check of an order has come. -/
structure OrderCheck where
  /-- Whether each node has been entered. -/
  visited : Array Bool
  /-- The number of nodes that have been left, which is the index that must be left next. -/
  emitted : Nat

namespace OrderCheck

def start (size : Nat) : OrderCheck :=
  ⟨Array.replicate size false, 0⟩

def isVisited (check : OrderCheck) (index : Nat) : Bool :=
  check.visited.getD index false

def enter (check : OrderCheck) (index : Nat) : OrderCheck :=
  { check with visited := check.visited.setIfInBounds index true }

def leave (check : OrderCheck) : OrderCheck :=
  { check with emitted := check.emitted + 1 }

end OrderCheck

/-- Does one visit of a check. -/
def OrderCheck.visit (nodes : Array Node) :
    Visit → OrderCheck → Except Error (List Visit × OrderCheck)
  | .leave index, check =>
      if index = check.emitted then .ok ([], check.leave)
      else .error (.notInCanonicalOrder check.emitted)
  | .enter index, check =>
      match check.isVisited index, nodes[index]? with
      | false, some node =>
          let check := check.enter index
          let children := node.children.filter fun child => !check.isVisited child
          .ok (children.map .enter ++ [.leave index], check)
      | _, _ => .ok ([], check)

/-- Checks that nodes are listed in the order in which a walk from the last one leaves them. -/
def checkOrder (nodes : Array Node) : Except Error Unit := do
  let check ← walkFrom (OrderCheck.visit nodes) (3 * nodes.size + 1) [.enter (nodes.size - 1)]
    (.start nodes.size)
  if check.emitted = nodes.size then return ()
  else throw (.notInCanonicalOrder check.emitted)

end Simplicity
