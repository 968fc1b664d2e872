import Simplicity.Program
import Simplicity.Proofs.Checked.Witness
import Simplicity.Proofs.Hash.Collision

/-!
# Checked programs

A pass over the nodes of an expression finds the results of the children of each node among those it
has made, since children come before their parents. The roots and the bounds are such passes. What is
hashed on the way is padded to whole blocks, and the bytes of each block are there.

So nothing that can be done with bytes, nodes or a builder that come from anywhere ever faults.
-/

namespace Simplicity

namespace Checked

/-! ### Hashing -/

/-- The bytes of a message with the closing one. Where there is no byte yet, none is changed. -/
def close (message : BitString) : Checked ByteArray :=
  if message.length % 8 = 0 then
    return message.bytes.push 0x80
  else if 0 < message.bytes.size then
    setLast message.bytes (message.length % 8)
  else
    return message.bytes

def chunkAt (bytes : ByteArray) (index : Nat) : Checked Block :=
  Vector.ofFnM fun word => do
    let start := 64 * index + 4 * word.val
    let first ← readByte bytes start
    let second ← readByte bytes (start + 1)
    let third ← readByte bytes (start + 2)
    let fourth ← readByte bytes (start + 3)
    return Digest.wordOfBytes first second third fourth

def hash (message : BitString) : Checked Digest := do
  let closed ← close message
  let bytes := Sha256.fillUp closed ++ Sha256.lengthBytes (UInt64.ofNat message.length)
  let blocks ← (List.range (bytes.size / 64)).mapM (chunkAt bytes)
  return blocks.foldl Sha256.compress Sha256.initial

theorem close_eq (message : BitString) :
    close message = pure (Sha256.close message.bytes message.length) := by
  rw [close, Sha256.close_eq]
  split
  case isTrue full =>
    rw [← Sha256.close_eq, Sha256.close, if_pos full]
  case isFalse room =>
    have nonempty : 0 < message.bytes.size := by
      have := message.packed.size_eq
      omega
    rw [if_pos nonempty, ← pushed_eq, pushed, if_pos rfl, if_neg room]

theorem chunkAt_eq {bytes : ByteArray} {index : Nat} (inside : index < bytes.size / 64) :
    chunkAt bytes index = pure (Sha256.blockAt (.ofBytes bytes) index) := by
  have stored : ∀ place, (within : place < bytes.size) → readByte bytes place = pure bytes[place] :=
    fun place within => read_eq_getElem within
  rw [← Sha256.chunkAt_eq bytes inside, chunkAt, Sha256.chunkAt, ← Vector.ofFnM_pure]
  refine congrArg Vector.ofFnM (funext fun word => ?_)
  have := word.isLt
  simp only [stored _ (show 64 * index + 4 * word.val < bytes.size by omega),
    stored _ (show 64 * index + 4 * word.val + 1 < bytes.size by omega),
    stored _ (show 64 * index + 4 * word.val + 2 < bytes.size by omega),
    stored _ (show 64 * index + 4 * word.val + 3 < bytes.size by omega), pure_bind]

theorem hash_eq (message : BitString) : hash message = pure (Sha256.hash message) := by
  rw [hash, close_eq, pure_bind, Sha256.hash_eq, ← Sha256.ofBytes_padBytes, Sha256.blocks_ofBytes]
  change ((List.range ((Sha256.padBytes message).size / 64)).mapM
    (chunkAt (Sha256.padBytes message)) >>= _) = _
  rw [mapM_eq_map fun index member => chunkAt_eq (List.mem_range.mp member), pure_bind]

/-! ### Passes -/

section Pass

variable {ε α : Type}

/-- The node at an index with the results of its children. -/
def pending (nodes : Array Node) (results : Array α) (index : Nat) :
    Checked (Combinator (Nat × α)) := do
  let node ← nodeAt nodes index
  node.traverse fun child => do
    let result ← read results child
    return (child, result)

def scanFrom (dag : Dag) (step : Nat → Combinator (Nat × α) → Attempt ε α) :
    (remaining index : Nat) → Array α → Attempt ε (Array α)
  | 0, _, results => pure results
  | remaining + 1, index, results => do
      let node ← pending dag.nodes results index
      let result ← step index node
      scanFrom dag step remaining (index + 1) (results.push result)

def scan (dag : Dag) (step : Nat → Combinator (Nat × α) → Attempt ε α) : Attempt ε (Array α) :=
  scanFrom dag step dag.nodes.size 0 #[]

def last (results : Array α) : Checked α := do
  let index ← minus results.size 1
  read results index

theorem pending_eq {dag : Dag} {index : Nat} (inside : index < dag.nodes.size)
    (results : Vector α index) :
    pending dag.nodes results.toArray index =
      pure ((dag.nodes[index]).mapMem fun child member =>
        have := dag.backward index inside child member
        (child, results[child])) := by
  rw [pending, nodeAt_eq (Array.getElem?_eq_getElem inside), pure_bind]
  apply Combinator.traverse_eq_mapMem
  intro child member
  have inside' : child < results.toArray.size := by
    rw [Vector.size_toArray]
    exact dag.backward index inside child member
  rw [read_eq_getElem inside', pure_bind]
  rfl

theorem scanFrom_eq {dag : Dag} {step : Nat → Combinator (Nat × α) → Attempt ε α}
    {plain : (index : Fin dag.nodes.size) → Combinator (Nat × α) → Except ε α}
    (steps : ∀ index node, step index.val node = .of (plain index node)) {remaining index : Nat}
    (total : index + remaining = dag.nodes.size) (results : Vector α index) :
    scanFrom dag step remaining index results.toArray =
      .of ((dag.scanFrom plain remaining index total results).map Vector.toArray) := by
  induction remaining generalizing index with
  | zero => rfl
  | succ remaining ih =>
      -- There are as many results as nodes before this one, so all of its children have one.
      have inside : index < dag.nodes.size := by omega
      rw [scanFrom, pending_eq inside, liftM_pure, pure_bind, steps ⟨index, inside⟩, Dag.scanFrom]
      split
      case h_1 error failed =>
        rw [failed]
        rfl
      case h_2 result stepped =>
        rw [stepped]
        exact ih (by omega) (results.push result)

theorem scan_eq {dag : Dag} {step : Nat → Combinator (Nat × α) → Attempt ε α}
    {plain : (index : Fin dag.nodes.size) → Combinator (Nat × α) → Except ε α}
    (steps : ∀ index node, step index.val node = .of (plain index node)) :
    scan dag step = .of ((dag.scan plain).map Vector.toArray) :=
  scanFrom_eq steps (Nat.zero_add _) #v[]

theorem last_eq (expression : Expression) (results : Vector α expression.dag.nodes.size) :
    last results.toArray = pure (results.get expression.last) := by
  have size_eq : results.toArray.size = expression.size := results.size_toArray
  have inside : expression.root < results.toArray.size := size_eq ▸ expression.last.isLt
  have nonempty : 1 ≤ expression.size := expression.nonempty
  rw [last, size_eq, minus_eq nonempty, pure_bind]
  exact read_eq_getElem inside

end Pass

/-! ### Roots and bounds -/

section Roots

variable (expression : Expression) (witness : Witness)

/-- The commitment root of every node, which no node can fail to have. -/
def commitmentRoots : Attempt Empty (Array Digest) :=
  scan expression.dag fun _ node => pure (node.map Prod.snd).commitment

def commitmentRoot : Checked Digest := do
  match ← (commitmentRoots expression).run with
  | .ok roots => last roots
  | .error error => nomatch error

def fingerprints : Attempt Error (Array Digest) :=
  let labels := witness.spread expression
  scan expression.dag fun index node =>
    match node.map Prod.snd with
    | .witness => do
        let bits ← Attempt.of (witness.valueAt expression labels index)
        let arrow ← Attempt.of (expression.arrow index)
        let digest ← hash bits
        return RootState.identityWitness.absorb digest arrow.target.root
    | .disconnect left right => pure (RootState.identityDisconnect.absorb left right)
    | node => pure node.commitment

def identityRoots : Attempt Error (Array Digest) := do
  Attempt.of (witness.checkCount expression)
  let fingerprints ← fingerprints expression witness
  scan expression.dag fun index node =>
    match node with
    | .hidden root => pure root
    | _ => do
        let fingerprint : Digest ← (read fingerprints index : Checked Digest)
        let arrow ← Attempt.of (expression.arrow index)
        return Expression.bindArrow fingerprint arrow

def annotate (labels : Array (Option BitString)) (index : Nat) (arrow : Arrow)
    (node : Combinator (Nat × Digest)) : Attempt Error Digest :=
  match node with
  | .witness => do
      let bits ← Attempt.of (witness.valueAt expression labels index)
      let digest ← hash bits
      return ((RootState.annotated .witness).absorbRight arrow.source.root).absorb
        arrow.target.root digest
  | node => Attempt.of (expression.annotate witness labels index arrow node)

def annotatedRoots : Attempt Error (Array Digest) := do
  Attempt.of (witness.checkCount expression)
  let labels := witness.spread expression
  scan expression.dag fun index node =>
    match node with
    | .hidden root => pure root
    | _ => do
        let arrow ← Attempt.of (expression.arrow index)
        annotate expression witness labels index arrow node

def annotatedRoot : Attempt Error Digest := do
  let roots ← annotatedRoots expression witness
  (last roots : Checked Digest)

def bounds : Attempt Error Bounds := do
  let bounds ← scan expression.dag fun index node => Attempt.of (expression.boundsOf index node)
  (last bounds : Checked Bounds)

theorem commitmentRoots_eq :
    commitmentRoots expression = pure expression.commitmentRoots.toArray := by
  have folds := expression.dag.scan_eq_fold Combinator.commitment
  rw [commitmentRoots, scan_eq fun _ _ => rfl, folds]
  rfl

theorem commitmentRoot_eq : commitmentRoot expression = pure expression.commitmentRoot := by
  rw [commitmentRoot, commitmentRoots_eq]
  exact last_eq expression expression.commitmentRoots

theorem fingerprints_eq : fingerprints expression witness =
    .of ((expression.fingerprints witness).map Vector.toArray) := by
  apply scan_eq
  intro index node
  cases node with
  | witness =>
      simp only [Combinator.map, Combinator.mapMem, hash_eq, liftM_pure, pure_bind, Attempt.of_bind,
        Attempt.of_pure]
  | _ => rfl

theorem identityRoots_eq : identityRoots expression witness =
    .of ((expression.identityRoots witness).map Vector.toArray) := by
  rw [identityRoots, Expression.identityRoots, fingerprints_eq]
  simp only [Attempt.of_map, Attempt.of_bind, bind_assoc, pure_bind]
  congr 1
  funext checked
  congr 1
  funext found
  rw [← Attempt.of_map]
  apply scan_eq
  intro index node
  have inside : index.val < found.toArray.size := by
    rw [Vector.size_toArray]
    exact index.isLt
  cases node with
  | hidden root => rfl
  | _ =>
      simp only [read_eq_getElem inside, liftM_pure, pure_bind, Attempt.of_bind, Attempt.of_pure]
      rfl

theorem annotate_eq (labels : Array (Option BitString)) (index : Nat) (arrow : Arrow)
    (node : Combinator (Nat × Digest)) :
    annotate expression witness labels index arrow node =
      .of (expression.annotate witness labels index arrow node) := by
  cases node with
  | witness =>
      simp only [annotate, Expression.annotate, hash_eq, liftM_pure, pure_bind, Attempt.of_bind,
        Attempt.of_pure]
      rfl
  | _ => rfl

theorem annotatedRoots_eq : annotatedRoots expression witness =
    .of ((expression.annotatedRoots witness).map Vector.toArray) := by
  rw [annotatedRoots, Expression.annotatedRoots]
  simp only [Attempt.of_map, Attempt.of_bind, bind_assoc]
  congr 1
  funext checked
  rw [← Attempt.of_map]
  apply scan_eq
  intro index node
  cases node with
  | hidden root => rfl
  | _ => simp only [annotate_eq, Attempt.of_bind]

theorem annotatedRoot_eq : annotatedRoot expression witness =
    .of (expression.annotatedRoot witness) := by
  rw [annotatedRoot, annotatedRoots_eq, Expression.annotatedRoot]
  simp only [Attempt.of_map, Attempt.of_bind, bind_assoc, pure_bind, last_eq, liftM_pure,
    Attempt.of_pure]

theorem bounds_eq : bounds expression = .of expression.bounds := by
  rw [bounds, scan_eq fun _ _ => rfl, Expression.bounds, Expression.nodeBounds]
  simp only [Attempt.of_map, Attempt.of_bind, bind_assoc, pure_bind, last_eq, liftM_pure,
    Attempt.of_pure]

end Roots

/-! ### Programs -/

def analyse (expression : Expression) (witness : Witness) (limits : Limits) :
    Attempt Error Program := do
  Attempt.of limits.check
  let identityRoots ← identityRoots expression witness
  Attempt.of (checkSharing expression.nodes.toList identityRoots.toList)
  let bounds ← bounds expression
  Attempt.of (Program.checkBudget limits bounds.cost)
  let annotated ← annotatedRoot expression witness
  let commitment ← commitmentRoot expression
  let identity : Digest ← (last identityRoots : Checked Digest)
  return ⟨expression, witness, ⟨commitment, identity, annotated⟩, bounds⟩

def decodeProgram (program witness : ByteArray) (limits : Limits) : Attempt Error Program := do
  let expression ← decodeExpression program limits
  let witness ← decodeWitness witness expression limits
  analyse expression witness limits

theorem analyse_eq (expression : Expression) (witness : Witness) (limits : Limits) :
    analyse expression witness limits = .of (Program.analyse expression witness limits) := by
  rw [analyse, Program.analyse]
  simp only [identityRoots_eq, bounds_eq, annotatedRoot_eq, commitmentRoot_eq, last_eq, liftM_pure,
    Attempt.of_bind, Attempt.of_map, Attempt.of_pure, bind_assoc, pure_bind, Vector.toList_toArray]

theorem decodeProgram_eq (program witness : ByteArray) (limits : Limits) :
    decodeProgram program witness limits = .of (Program.decode program witness limits) := by
  rw [decodeProgram, Program.decode]
  simp only [decodeExpression_eq, decodeWitness_eq, analyse_eq, Attempt.of_bind]

/-- No input leads to a fault. Bytes are decoded under any limits, a witness against any expression,
nodes with any references are made into an expression, and a builder of such nodes is finished at any
index, all without an index out of range, a difference below zero or a shift by a whole word: each run
that would stop at one is the plain run, which gives a result or an error of its own. The same holds of
writing an expression, which takes the index of a child from that of its node, and of reading values
off a witness, which takes the bits that were consumed from those that there are. -/
theorem runs_eq_plain (program bytes : ByteArray) (limits : Limits) (expression : Expression)
    (witness : Witness) (nodes : Array Node) (builder : Builder) (root : Nat) :
    decodeExpression program limits = .of (Expression.decode program limits) ∧
      decodeWitness bytes expression limits = .of (Witness.decode bytes expression limits) ∧
      decodeProgram program bytes limits = .of (Program.decode program bytes limits) ∧
      ofNodes nodes = .of (Expression.ofNodes nodes) ∧
      finishBuilder builder root = .of (builder.finish root) ∧
      encodeExpression expression = .of expression.encode ∧
      valuesOf witness expression = .of (witness.toValues expression) :=
  ⟨decodeExpression_eq program limits, decodeWitness_eq bytes expression limits,
    decodeProgram_eq program bytes limits, ofNodes_eq nodes, finishBuilder_eq builder root,
    encodeExpression_eq expression, valuesOf_eq witness expression⟩

end Checked

end Simplicity
