import Simplicity.Combinator
import Simplicity.Error

/-!
# Lists of nodes

The nodes of an expression are listed so that the children of a node come before it. That makes
the list a directed acyclic graph, and whatever is computed from the children upwards is computed
in one pass over the list: `Dag.scan` runs such a pass, and hands each node the results of its
children in the place of their indices.

A hidden node may only stand for the one branch of a choice that is pruned. A choice with one
hidden branch is the same as the assertion of the other branch, and is listed as that assertion.
-/

namespace Simplicity

universe u

namespace Combinator

variable {ρ : Type u}

/-- A combinator has a hidden child exactly where an assertion has one. -/
def settled (hidden : ρ → Bool) : Combinator ρ → Bool
  | .assertl left right => !hidden left && hidden right
  | .assertr left right => hidden left && !hidden right
  | node => !node.children.any hidden

/-- A choice with a hidden branch as the assertion of the other branch. -/
def assertVisible (hidden : ρ → Bool) : Combinator ρ → Combinator ρ
  | .case left right =>
      if hidden right then .assertl left right
      else if hidden left then .assertr left right
      else .case left right
  | node => node

/-- The combinator with choices turned into assertions where they have a hidden branch, unless
that leaves a hidden child where none may be. -/
def settle? (hidden : ρ → Bool) (node : Combinator ρ) : Option (Combinator ρ) :=
  let asserted := node.assertVisible hidden
  if asserted.settled hidden then some asserted else none

theorem children_assertVisible (hidden : ρ → Bool) (node : Combinator ρ) :
    (node.assertVisible hidden).children = node.children := by
  cases node with
  | case left right =>
      simp only [assertVisible]
      split
      · rfl
      · split <;> rfl
  | _ => rfl

theorem settle?_eq_some {hidden : ρ → Bool} {node result : Combinator ρ}
    (settles : node.settle? hidden = some result) :
    result = node.assertVisible hidden ∧ result.settled hidden = true := by
  simp only [settle?] at settles
  split at settles
  case isTrue accepted => exact (Option.some.inj settles) ▸ ⟨rfl, accepted⟩
  case isFalse => cases settles

theorem settled_of_settle? {hidden : ρ → Bool} {node result : Combinator ρ}
    (settles : node.settle? hidden = some result) : result.settled hidden = true :=
  (settle?_eq_some settles).2

theorem children_of_settle? {hidden : ρ → Bool} {node result : Combinator ρ}
    (settles : node.settle? hidden = some result) : result.children = node.children :=
  (settle?_eq_some settles).1 ▸ children_assertVisible hidden node

theorem settled_congr {hidden hidden' : ρ → Bool} {node : Combinator ρ}
    (agree : ∀ child ∈ node.children, hidden child = hidden' child) :
    node.settled hidden = node.settled hidden' := by
  cases node <;> simp_all [settled, children]

end Combinator

/-- The node at an index is hidden. -/
def hiddenAt (nodes : Array Node) (index : Nat) : Bool :=
  (nodes[index]?).any Combinator.isHidden

theorem hiddenAt_push {nodes : Array Node} {index : Nat} (inside : index < nodes.size)
    (node : Node) : hiddenAt (nodes.push node) index = hiddenAt nodes index := by
  rw [hiddenAt, hiddenAt, Array.getElem?_push, if_neg (by omega)]

/-- Nodes listed with their children first and with hidden nodes only below assertions. -/
structure Dag where
  nodes : Array Node
  /-- The children of a node come before it. -/
  backward : ∀ index (inside : index < nodes.size), ∀ child ∈ (nodes[index]).children,
    child < index
  /-- Assertions, and nothing else, have a hidden child, on the side that is pruned. -/
  settled : ∀ index (inside : index < nodes.size),
    (nodes[index]).settled (hiddenAt nodes) = true

namespace Dag

def empty : Dag :=
  ⟨#[], fun _ inside => absurd inside (Nat.not_lt_zero _),
    fun _ inside => absurd inside (Nat.not_lt_zero _)⟩

def size (dag : Dag) : Nat :=
  dag.nodes.size

theorem backward_push (dag : Dag) (node : Node)
    (earlier : ∀ child ∈ node.children, child < dag.nodes.size) :
    ∀ index (inside : index < (dag.nodes.push node).size),
      ∀ child ∈ ((dag.nodes.push node)[index]).children, child < index := by
  intro index inside child member
  rw [Array.getElem_push] at member
  split at member
  case isTrue old => exact dag.backward index old child member
  case isFalse new =>
    have := earlier child member
    rw [Array.size_push] at inside
    omega

theorem settled_push (dag : Dag) (node : Node)
    (earlier : ∀ child ∈ node.children, child < dag.nodes.size)
    (settled : node.settled (hiddenAt dag.nodes) = true) :
    ∀ index (inside : index < (dag.nodes.push node).size),
      ((dag.nodes.push node)[index]).settled (hiddenAt (dag.nodes.push node)) = true := by
  intro index inside
  rw [Array.getElem_push]
  split
  case isTrue old =>
    rw [Combinator.settled_congr fun child member =>
      hiddenAt_push (Nat.lt_trans (dag.backward index old child member) old) node]
    exact dag.settled index old
  case isFalse =>
    rw [Combinator.settled_congr fun child member => hiddenAt_push (earlier child member) node]
    exact settled

/-- Adds a node whose children are there and which is settled. -/
def push (dag : Dag) (node : Node) (earlier : ∀ child ∈ node.children, child < dag.nodes.size)
    (settled : node.settled (hiddenAt dag.nodes) = true) : Dag :=
  ⟨dag.nodes.push node, dag.backward_push node earlier, dag.settled_push node earlier settled⟩

/-- Adds a node after having checked it: first that its children come before it, from left to
right, and then that its hidden children are where they may be. -/
def add (dag : Dag) (node : Node) : Except Error Dag :=
  if earlier : ∀ child ∈ node.children, child < dag.nodes.size then
    match settles : node.settle? (hiddenAt dag.nodes) with
    | some settledNode =>
        .ok (dag.push settledNode (Combinator.children_of_settle? settles ▸ earlier)
          (Combinator.settled_of_settle? settles))
    | none => .error (.hiddenChild dag.size)
  else
    .error (.forwardReference dag.size ((node.children.find? (dag.size ≤ ·)).getD 0))

/-- Lists nodes, checking one after another. -/
def ofNodes (nodes : Array Node) : Except Error Dag :=
  nodes.toList.foldlM add empty

variable {ε α : Type}

/-- Continues a pass at an index, with the results of all earlier nodes at hand. -/
def scanFrom (dag : Dag)
    (step : (index : Fin dag.nodes.size) → Combinator (Nat × α) → Except ε α) :
    (remaining index : Nat) → index + remaining = dag.nodes.size → Vector α index →
      Except ε (Vector α dag.nodes.size)
  | 0, _, total, results => .ok (results.cast total)
  | remaining + 1, index, total, results =>
      have inside : index < dag.nodes.size := by omega
      let node := (dag.nodes[index]).mapMem fun child member =>
        have := dag.backward index inside child member
        (child, results[child])
      match step ⟨index, inside⟩ node with
      | .error error => .error error
      | .ok result => scanFrom dag step remaining (index + 1) (by omega) (results.push result)

/-- Computes a result for every node in order. The step for a node is given its index, and its
combinator with the index and the result of each child. -/
def scan (dag : Dag) (step : (index : Fin dag.nodes.size) → Combinator (Nat × α) → Except ε α) :
    Except ε (Vector α dag.nodes.size) :=
  dag.scanFrom step dag.nodes.size 0 (Nat.zero_add _) #v[]

/-- Computes a result for every node from the results of its children. -/
def fold (dag : Dag) (step : Combinator α → α) : Vector α dag.nodes.size :=
  let results : Except Empty (Vector α dag.nodes.size) :=
    dag.scan fun _ node => .ok (step (node.map Prod.snd))
  match results with
  | .ok results => results
  | .error error => nomatch error

end Dag

end Simplicity
