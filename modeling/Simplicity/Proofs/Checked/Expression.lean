import Simplicity.Expression.Builder
import Simplicity.Proofs.Checked.Stream
import Simplicity.Proofs.Checked.Typing
import Simplicity.Proofs.Linearization

/-!
# Checked expressions

The nodes that come in may refer to anything. Listing them compares every reference with the index of
its node before it looks at what is there. The check of their order compares nothing: it looks up the
mark of every child of a node that it enters, and the mark is there because listing has compared. The
walk of a builder comes before any listing. It compares the references of a node when it enters the
node, and enters only what it has compared, so that whatever it puts in order has its children among
the nodes as well. From then on all references are to earlier nodes.

What is needed for an expression besides its nodes and their types are facts, and these come from the
plain runs that the checked ones are equal to.
-/

namespace Simplicity

namespace Checked

/-! ### Listing -/

/-- A node with, beside each child, whether it is hidden. -/
def inspect (nodes : Array Node) (node : Node) : Checked (Combinator (Nat × Bool)) :=
  node.traverse fun child => do
    let found ← read nodes child
    return (child, found.isHidden)

/-- A node as it is listed after others. -/
def settle (nodes : Array Node) (node : Node) : Attempt Error Node := do
  let inspected ← inspect nodes node
  match inspected.settle? Prod.snd with
  | some settled => return settled.map Prod.fst
  | none => throw (.hiddenChild nodes.size)

theorem inspect_eq {nodes : Array Node} {node : Node}
    (earlier : ∀ child ∈ node.children, child < nodes.size) :
    inspect nodes node = pure (node.map fun child => (child, hiddenAt nodes child)) := by
  apply Combinator.traverse_eq_map
  intro child member
  have inside := earlier child member
  rw [read_eq_getElem inside, pure_bind, hiddenAt, Array.getElem?_eq_getElem inside, Option.any_some]

theorem settle_eq {nodes : Array Node} {node : Node}
    (earlier : ∀ child ∈ node.children, child < nodes.size) :
    settle nodes node = match node.settle? (hiddenAt nodes) with
      | some settled => pure settled
      | none => throw (.hiddenChild nodes.size) := by
  have unpaired : Prod.fst ∘ (fun child => (child, hiddenAt nodes child)) = id := rfl
  rw [settle, inspect_eq earlier, liftM_pure, pure_bind, Combinator.settle?_map]
  cases node.settle? (hiddenAt nodes) with
  | none => rfl
  | some settled =>
      simp only [Option.map_some, Combinator.map_map, unpaired, Combinator.map_id]

theorem settle?_of_settle {nodes : Array Node} {node settled : Node}
    (earlier : ∀ child ∈ node.children, child < nodes.size)
    (settles : settle nodes node = pure settled) :
    node.settle? (hiddenAt nodes) = some settled := by
  rw [settle_eq earlier] at settles
  cases found : node.settle? (hiddenAt nodes) with
  | none =>
      rw [found] at settles
      cases settles
  | some other =>
      rw [found] at settles
      cases settles
      rfl

def add (dag : Dag) (node : Node) : Attempt Error Dag :=
  if earlier : ∀ child ∈ node.children, child < dag.nodes.size then
    (settle dag.nodes node).andThen fun settled settles =>
      have settles := settle?_of_settle earlier settles
      pure (dag.push settled (Combinator.children_of_settle? settles ▸ earlier)
        (Combinator.settled_of_settle? settles))
  else
    throw (.forwardReference dag.size ((node.children.find? (dag.size ≤ ·)).getD 0))

def list (nodes : Array Node) : Attempt Error Dag :=
  nodes.toList.foldlM add .empty

theorem add_eq (dag : Dag) (node : Node) : add dag node = .of (dag.add node) := by
  unfold add Dag.add
  split
  case isTrue earlier =>
    have outcome := settle_eq earlier
    split
    case h_1 settled settles =>
      rw [settles] at outcome
      exact Attempt.andThen_eq outcome _
    case h_2 fails =>
      rw [fails] at outcome
      exact Attempt.andThen_eq_throw outcome _
  case isFalse => rfl

theorem list_eq (nodes : Array Node) : list nodes = .of (Dag.ofNodes nodes) :=
  Attempt.foldlM_eq_of (fun node _ dag => add_eq dag node) .empty

/-! ### Walking -/

/-- The steps of a walk are plain where the walk comes to, so the whole walk is. -/
theorem walkFrom_eq {ε σ : Type} {step : Visit → σ → Except ε (List Visit × σ)}
    {checkedStep : Visit → σ → Attempt ε (List Visit × σ)} (Ready : Visit → Prop)
    (Within : σ → Prop)
    (plain : ∀ visit state, Ready visit → Within state →
      checkedStep visit state = .of (step visit state))
    (keeps : ∀ visit state visits state', Ready visit → Within state →
      step visit state = .ok (visits, state') → (∀ visit ∈ visits, Ready visit) ∧ Within state')
    {fuel : Nat} {visits : List Visit} {state : σ} (ready : ∀ visit ∈ visits, Ready visit)
    (within : Within state) :
    walkFrom checkedStep fuel visits state = .of (walkFrom step fuel visits state) := by
  induction fuel generalizing visits state with
  | zero => rfl
  | succ fuel ih =>
      rcases visits with _ | ⟨visit, rest⟩
      · rfl
      rw [List.forall_mem_cons] at ready
      rw [walkFrom, walkFrom, plain visit state ready.1 within, Attempt.of_bind]
      cases stepped : step visit state with
      | error error => rfl
      | ok result =>
          rcases result with ⟨pushed, state'⟩
          rcases keeps visit state pushed state' ready.1 within stepped with ⟨readyPushed, within'⟩
          simp only [Attempt.of_ok, pure_bind]
          apply ih _ within'
          rw [List.forall_mem_append]
          exact ⟨readyPushed, ready.2⟩

def nodeAt (nodes : Array Node) (index : Nat) : Checked Node :=
  read nodes index

theorem nodeAt_eq {nodes : Array Node} {index : Nat} {node : Node}
    (isNode : nodes[index]? = some node) : nodeAt nodes index = pure node := by
  rw [nodeAt, read, isNode]

/-! ### The order of listed nodes -/

def isVisited (check : OrderCheck) (index : Nat) : Checked Bool :=
  read check.visited index

def enter (check : OrderCheck) (index : Nat) : Checked OrderCheck :=
  return { check with visited := ← write check.visited index true }

/-- The visits of the children that are not marked, before the one that leaves their parent. -/
def pushUnvisited (check : OrderCheck) (index : Nat) (children : List Nat) : Checked (List Visit) :=
  children.foldrM (fun child visits => do
    return if ← isVisited check child then visits else .enter child :: visits) [.leave index]

def visitInOrder (nodes : Array Node) :
    Visit → OrderCheck → Attempt Error (List Visit × OrderCheck)
  | .leave index, check =>
      if index = check.emitted then return ([], check.leave)
      else throw (.notInCanonicalOrder check.emitted)
  | .enter index, check => do
      match ← isVisited check index with
      | true => return ([], check)
      | false =>
          let check ← enter check index
          let node ← nodeAt nodes index
          let visits ← pushUnvisited check index node.children
          return (visits, check)

def checkOrder (nodes : Array Node) : Attempt Error Unit := do
  let root ← minus nodes.size 1
  let check ← walkFrom (visitInOrder nodes) (3 * nodes.size + 1) [.enter root] (.start nodes.size)
  if check.emitted = nodes.size then return ()
  else throw (.notInCanonicalOrder check.emitted)

section Order

variable {nodes : Array Node} {check : OrderCheck} {index : Nat}

theorem isVisited_eq (inside : index < check.visited.size) :
    isVisited check index = pure (check.isVisited index) :=
  read_eq_getD inside false

theorem enter_eq (inside : index < check.visited.size) :
    enter check index = pure (check.enter index) := by
  rw [enter, write_eq inside]
  rfl

theorem pushUnvisited_eq {children : List Nat}
    (inside : ∀ child ∈ children, child < check.visited.size) :
    pushUnvisited check index children =
      pure ((children.filter fun child => !check.isVisited child).map .enter ++ [.leave index]) := by
  induction children with
  | nil => rfl
  | cons child children ih =>
      rw [List.forall_mem_cons] at inside
      have pushes := ih inside.2
      rw [pushUnvisited] at pushes ⊢
      rw [List.foldrM_cons, pushes, pure_bind, isVisited_eq inside.1, pure_bind]
      cases marked : check.isVisited child <;> simp [marked]

/-- A node that is entered is looked up. -/
def EntersBelow (size : Nat) : Visit → Prop
  | .enter index => index < size
  | .leave _ => True

/-- The marks of the children of a node are there because the references of all nodes have been compared
with their indices before. -/
theorem visitInOrder_eq (childrenFirst : ChildrenFirst nodes) {visit : Visit}
    (ready : EntersBelow nodes.size visit) (within : check.visited.size = nodes.size) :
    visitInOrder nodes visit check = .of (check.visit nodes visit) := by
  cases visit with
  | leave index =>
      simp only [visitInOrder, OrderCheck.visit]
      split <;> rfl
  | enter index =>
      have inside : index < check.visited.size := within ▸ ready
      cases isNode : nodes[index]? with
      | none => exact absurd ready (Nat.not_lt.mpr (Array.getElem?_eq_none_iff.mp isNode))
      | some node =>
          have insideChildren : ∀ child ∈ node.children,
              child < (check.enter index).visited.size := by
            intro child member
            have earlier := childrenFirst index node isNode child member
            simpa [OrderCheck.enter] using Nat.lt_trans earlier inside
          simp only [visitInOrder, OrderCheck.visit, isVisited_eq inside, isNode, liftM_pure,
            pure_bind]
          cases check.isVisited index with
          | true => rfl
          | false =>
              simp only [enter_eq inside, nodeAt_eq isNode, liftM_pure, pure_bind]
              rw [pushUnvisited_eq insideChildren]
              rfl

theorem entersBelow_of_visit (childrenFirst : ChildrenFirst nodes) {visit : Visit}
    {visits : List Visit} {check' : OrderCheck} (ready : EntersBelow nodes.size visit)
    (within : check.visited.size = nodes.size)
    (stepped : check.visit nodes visit = .ok (visits, check')) :
    (∀ visit ∈ visits, EntersBelow nodes.size visit) ∧ check'.visited.size = nodes.size := by
  cases visit with
  | leave index =>
      simp only [OrderCheck.visit] at stepped
      split at stepped
      · cases stepped
        exact ⟨List.forall_mem_nil _, within⟩
      · cases stepped
  | enter index =>
      simp only [OrderCheck.visit] at stepped
      split at stepped
      case h_1 node _ isNode =>
        cases stepped
        refine ⟨?_, by simpa [OrderCheck.enter] using within⟩
        rw [List.forall_mem_append, List.forall_mem_singleton, List.forall_mem_map]
        refine ⟨?_, trivial⟩
        intro child member
        exact Nat.lt_trans (childrenFirst index node isNode child (List.mem_of_mem_filter member)) ready
      case h_2 =>
        cases stepped
        exact ⟨List.forall_mem_nil _, within⟩

theorem checkOrder_eq (childrenFirst : ChildrenFirst nodes) (nonempty : 0 < nodes.size) :
    checkOrder nodes = .of (Simplicity.checkOrder nodes) := by
  have walks : walkFrom (visitInOrder nodes) (3 * nodes.size + 1) [.enter (nodes.size - 1)]
      (.start nodes.size) = .of (walkFrom (OrderCheck.visit nodes) (3 * nodes.size + 1)
        [.enter (nodes.size - 1)] (.start nodes.size)) := by
    apply walkFrom_eq (EntersBelow nodes.size) fun check => check.visited.size = nodes.size
    · intro visit check ready within
      exact visitInOrder_eq childrenFirst ready within
    · intro visit check visits check' ready within stepped
      exact entersBelow_of_visit childrenFirst ready within stepped
    · exact List.forall_mem_singleton.mpr (Nat.sub_lt nonempty Nat.one_pos)
    · simp [OrderCheck.start]
  rw [checkOrder, minus_eq nonempty, liftM_pure, pure_bind, walks, Simplicity.checkOrder,
    Attempt.of_bind]
  congr 1
  funext check
  split <;> rfl

end Order

/-- The types of listed nodes. -/
def typeDag (dag : Dag) : Attempt Error (Array (Option Arrow)) :=
  (inferArrows dag.nodes).adapt .illTyped

theorem typeDag_eq (dag : Dag) :
    typeDag dag = .of ((Simplicity.inferArrows dag.nodes).mapError .illTyped) := by
  rw [typeDag, inferArrows_eq]
  cases Simplicity.inferArrows dag.nodes <;> rfl

def ofDag (dag : Dag) (nonempty : 0 < dag.size)
    (visible : hiddenAt dag.nodes (dag.size - 1) = false) : Attempt Error Expression :=
  (checkOrder dag.nodes).andThen fun _ ordered =>
    (typeDag dag).andThen fun arrows typed =>
      have ordered := Attempt.of_inj (checkOrder_eq dag.childrenFirst nonempty ▸ ordered)
      have typed := Attempt.of_inj (typeDag_eq dag ▸ typed)
      pure {
        dag, arrows, nonempty, visible, ordered
        typed := by
          cases inferred : Simplicity.inferArrows dag.nodes with
          | error error =>
              rw [inferred] at typed
              cases typed
          | ok found =>
              rw [inferred] at typed
              cases typed
              rfl }

theorem ofDag_eq (dag : Dag) (nonempty : 0 < dag.size)
    (visible : hiddenAt dag.nodes (dag.size - 1) = false) :
    ofDag dag nonempty visible = .of (Expression.ofDag dag nonempty visible) := by
  unfold ofDag Expression.ofDag
  have checks := checkOrder_eq dag.childrenFirst nonempty
  have types := typeDag_eq dag
  split
  case h_1 error failed =>
    rw [failed] at checks
    exact Attempt.andThen_eq_throw checks _
  case h_2 ordered =>
    rw [ordered] at checks
    rw [Attempt.andThen_eq checks]
    split
    case h_1 error failed =>
      rw [failed] at types
      exact Attempt.andThen_eq_throw types _
    case h_2 arrows typed =>
      rw [typed] at types
      exact Attempt.andThen_eq types _

def ofNodes (nodes : Array Node) : Attempt Error Expression := do
  let dag ← list nodes
  if nonempty : 0 < dag.size then
    if visible : hiddenAt dag.nodes (dag.size - 1) = false then
      ofDag dag nonempty visible
    else
      throw .hiddenRoot
  else
    throw .emptyProgram

/-- Whatever the nodes refer to, making an expression of them never faults. -/
theorem ofNodes_eq (nodes : Array Node) : ofNodes nodes = .of (Expression.ofNodes nodes) := by
  rw [ofNodes, Expression.ofNodes, list_eq, Attempt.of_bind]
  congr 1
  funext dag
  split
  case isFalse => rfl
  case isTrue nonempty =>
    split
    case isFalse => rfl
    case isTrue visible => exact ofDag_eq dag nonempty visible

/-! ### Building -/

def placeOf (progress : Builder.Progress) (index : Nat) : Checked (Option Nat) :=
  read progress.remap index

/-- Puts a node at the end, with references to the places of its children. -/
def append (progress : Builder.Progress) (index : Nat) (node : Node) : Checked Builder.Progress := do
  let relinked ← node.traverse fun child => do
    let place ← placeOf progress child
    return place.getD child
  let remap ← write progress.remap index (some progress.ordered.size)
  return ⟨progress.ordered.push relinked, remap⟩

def visitToBuild (nodes : Array Node) :
    Visit → Builder.Progress → Attempt Error (List Visit × Builder.Progress)
  | .leave index, progress => do
      let node ← nodeAt nodes index
      match ← placeOf progress index with
      | some _ => return ([], progress)
      | none => return ([], ← append progress index node)
  | .enter index, progress => do
      let node ← nodeAt nodes index
      match ← placeOf progress index with
      | some _ => return ([], progress)
      | none =>
          match Builder.forwardChild? node index with
          | some child => throw (.forwardReference index child)
          | none => return (node.children.map .enter ++ [.leave index], progress)

def linearize (nodes : Array Node) (root : Nat) : Attempt Error (Array Node) := do
  let progress ← walkFrom (visitToBuild nodes) (5 * nodes.size + 1) [.enter root]
    (.start nodes.size)
  return progress.ordered

def finishBuilder (builder : Builder) (root : Nat) : Attempt Error Expression := do
  if root < builder.size then
    let nodes ← linearize builder.nodes root
    ofNodes nodes
  else
    throw (.forwardReference builder.size root)

/-- A visit to a node that is there, and which is left only if its children have been compared. -/
def Ready (nodes : Array Node) : Visit → Prop
  | .enter index => index < nodes.size
  | .leave index => ∃ node, nodes[index]? = some node ∧ ∀ child ∈ node.children, child < index

section Building

open Builder

variable {nodes : Array Node} {progress : Progress} {index : Nat}

theorem placeOf_eq (inside : index < progress.remap.size) :
    placeOf progress index = pure (progress.placeOf index) :=
  read_eq_getD inside none

theorem append_eq {node : Node} (inside : index < progress.remap.size)
    (insideChildren : ∀ child ∈ node.children, child < progress.remap.size) :
    append progress index node = pure (progress.append index node) := by
  have relinks : (node.traverse fun child => do
      let place ← placeOf progress child
      return place.getD child) = pure (node.map fun child => (progress.placeOf child).getD child) := by
    apply Combinator.traverse_eq_map
    intro child member
    rw [placeOf_eq (insideChildren child member), pure_bind]
  rw [append, relinks, pure_bind, write_eq inside]
  rfl

/-- A node is looked up only if it is there, and the places of its children only if these come before
it. -/
theorem visitToBuild_eq {visit : Visit} (ready : Ready nodes visit)
    (within : progress.remap.size = nodes.size) :
    visitToBuild nodes visit progress = .of (progress.visit nodes visit) := by
  cases visit with
  | leave index =>
      rcases ready with ⟨node, isNode, earlier⟩
      have inside : index < progress.remap.size :=
        within ▸ (Array.getElem?_eq_some_iff.mp isNode).1
      have insideChildren : ∀ child ∈ node.children, child < progress.remap.size :=
        fun child member => Nat.lt_trans (earlier child member) inside
      simp only [visitToBuild, Progress.visit, nodeAt_eq isNode, placeOf_eq inside, isNode,
        liftM_pure, pure_bind]
      cases progress.placeOf index with
      | some place => rfl
      | none =>
          simp only [append_eq inside insideChildren, liftM_pure, pure_bind]
          rfl
  | enter index =>
      have inside : index < progress.remap.size := within ▸ ready
      cases isNode : nodes[index]? with
      | none => exact absurd ready (Nat.not_lt.mpr (Array.getElem?_eq_none_iff.mp isNode))
      | some node =>
          simp only [visitToBuild, Progress.visit, nodeAt_eq isNode, placeOf_eq inside, isNode,
            liftM_pure, pure_bind]
          cases progress.placeOf index with
          | some place => rfl
          | none =>
              dsimp only
              cases forwardChild? node index <;> rfl

theorem ready_of_visit {visit : Visit} {visits : List Visit} {progress' : Progress}
    (ready : Ready nodes visit) (within : progress.remap.size = nodes.size)
    (stepped : progress.visit nodes visit = .ok (visits, progress')) :
    (∀ visit ∈ visits, Ready nodes visit) ∧ progress'.remap.size = nodes.size := by
  cases visit with
  | leave index =>
      simp only [Progress.visit] at stepped
      split at stepped
      · cases stepped
        exact ⟨List.forall_mem_nil _, by simpa [Progress.append] using within⟩
      · cases stepped
        exact ⟨List.forall_mem_nil _, within⟩
  | enter index =>
      simp only [Progress.visit] at stepped
      split at stepped
      case h_1 node _ isNode =>
        split at stepped
        case h_1 => cases stepped
        case h_2 backward =>
          cases stepped
          -- The children have been compared with the index before they are visited.
          have earlier := Walks.lt_of_forwardChild? backward
          refine ⟨?_, within⟩
          rw [List.forall_mem_append, List.forall_mem_singleton, List.forall_mem_map]
          exact ⟨fun child member => Nat.lt_trans (earlier child member) ready, node, isNode, earlier⟩
      case h_2 =>
        cases stepped
        exact ⟨List.forall_mem_nil _, within⟩

theorem linearize_eq {root : Nat} (inside : root < nodes.size) :
    linearize nodes root = .of (Builder.linearize nodes root) := by
  have walks : walkFrom (visitToBuild nodes) (5 * nodes.size + 1) [.enter root]
      (.start nodes.size) = .of (walkFrom (Progress.visit nodes) (5 * nodes.size + 1) [.enter root]
        (.start nodes.size)) := by
    apply walkFrom_eq (Ready nodes) fun progress => progress.remap.size = nodes.size
    · intro visit progress ready within
      exact visitToBuild_eq ready within
    · intro visit progress visits progress' ready within stepped
      exact ready_of_visit ready within stepped
    · exact List.forall_mem_singleton.mpr inside
    · simp [Progress.start]
  rw [linearize, walks, Builder.linearize, Attempt.of_bind]
  rfl

/-- Whatever the nodes of a builder refer to, and whichever is asked for, finishing it never
faults. -/
theorem finishBuilder_eq (builder : Builder) (root : Nat) :
    finishBuilder builder root = .of (builder.finish root) := by
  rw [finishBuilder, Builder.finish]
  split
  case isFalse => rfl
  case isTrue inside =>
    rw [linearize_eq inside, Attempt.of_bind]
    congr 1
    funext ordered
    exact ofNodes_eq ordered

end Building

/-! ### Bytes -/

/-- Runs a reader, and gives what it has read with the cursor that is left. -/
def runReader {α : Type} (reading : Reading Error α) (cursor : Cursor) : Attempt Error (α × Cursor) :=
  ExceptT.mk do
    match ← reading.run cursor with
    | (.ok result, cursor) => return .ok (result, cursor)
    | (.error error, _) => return .error error

theorem runReader_eq {α : Type} (decoder : Decoder Error α) (cursor : Cursor) :
    runReader (.of decoder) cursor = match decoder cursor with
      | .ok result cursor => pure (result, cursor)
      | .error error _ => throw error := by
  simp only [runReader, Reading.of, ExceptT.run_mk]
  cases decoder cursor <;> rfl

def decodeExpression (bytes : ByteArray) (limits : Limits) : Attempt Error Expression := do
  Attempt.of limits.check
  if limits.maxProgramBytes < bytes.size then
    throw (.inputTooLarge .program bytes.size limits.maxProgramBytes)
  let (nodes, cursor) ← runReader (Reading.readNodes limits.maxNodes) (.ofBytes bytes)
  (finishStream cursor .program).adapt .malformed
  ofNodes nodes

/-- Whatever the bytes are, decoding them never faults. -/
theorem decodeExpression_eq (bytes : ByteArray) (limits : Limits) :
    decodeExpression bytes limits = .of (Expression.decode bytes limits) := by
  rw [decodeExpression, Expression.decode, Attempt.of_bind]
  congr 1
  funext checked
  split
  case isTrue => rfl
  case isFalse =>
    simp only [Reading.readNodes_eq, runReader_eq]
    cases Expression.readNodes limits.maxNodes (.ofBytes bytes) with
    | error error cursor => rfl
    | ok nodes cursor =>
        simp only [pure_bind, finishStream_eq, ofNodes_eq]
        cases cursor.finish .program <;> rfl

def appendNode (out : BitString) (node : Node) (index : Nat) : Attempt StreamError BitString :=
  let (code, width) := node.code
  let out := (out.appendBits code width).appendBytes node.payload
  node.children.foldlM (fun out child => do
    let distance ← minus index child
    Attempt.of (out.appendNatural distance .childOffset)) out

def encodeExpression (expression : Expression) : Attempt StreamError ByteArray := do
  let out ← Attempt.of (BitString.empty.appendNatural expression.size .nodeCount)
  let out ← expression.nodes.toList.zipIdx.foldlM
    (fun out (node, index) => appendNode out node index) out
  return out.bytes

theorem appendNode_eq (out : BitString) {node : Node} {index : Nat}
    (earlier : ∀ child ∈ node.children, child < index) :
    appendNode out node index = .of (out.appendNode node index) := by
  apply Attempt.foldlM_eq_of
  intro child member out
  rw [minus_eq (Nat.le_of_lt (earlier child member)), liftM_pure, pure_bind]

/-- The distances back to the children of an expression are not below zero. -/
theorem encodeExpression_eq (expression : Expression) :
    encodeExpression expression = .of expression.encode := by
  have appends : ∀ entry ∈ expression.nodes.toList.zipIdx, ∀ out : BitString,
      appendNode out entry.1 entry.2 = .of (out.appendNode entry.1 entry.2) := by
    rintro ⟨node, index⟩ member out
    apply appendNode_eq
    have isNode : expression.nodes[index]? = some node := by
      rw [← Array.getElem?_toList]
      exact List.mem_zipIdx_iff_getElem?.mp member
    exact expression.dag.childrenFirst index node isNode
  simp only [encodeExpression, Attempt.foldlM_eq_of appends, Expression.encode, Expression.toBits,
    Attempt.of_map, Attempt.of_bind, bind_assoc]

end Checked

end Simplicity
