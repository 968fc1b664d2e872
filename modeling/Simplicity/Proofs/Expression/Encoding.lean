import Mathlib.Algebra.Ring.Nat
import Simplicity.Expression.Encoding
import Simplicity.Proofs.Dag
import Simplicity.Proofs.Hash.Digest
import Simplicity.Proofs.Stream.Natural

/-!
# Programs and their bits determine each other

The bits of a program are those of its size and of one node after another. The writer appends them
and the decoder recognizes them, except that it takes every assertion for the choice that it was
pruned from; listing the nodes brings the assertions back. What is left over in the last byte has
to be zero, so the bytes of a program are determined as well.
-/

namespace Simplicity

namespace Combinator

/-- The bits of the distances from the node at an index back to its children. -/
def distanceBits (index : Nat) (node : Node) : List Bool :=
  node.children.flatMap fun child => naturalBits (index - child)

/-- The bits of the node at an index. -/
def bitsAt (index : Nat) (node : Node) : List Bool :=
  BitString.lowBits node.code.1 node.code.2 ++
    (node.payload.flatMap fun byte => BitString.lowBits byte.toNat 8) ++ node.distanceBits index

/-- The children of the node at an index come before it, and not too far. -/
def ReachableFrom (index : Nat) (node : Node) : Prop :=
  ∀ child ∈ node.children, 0 < index - child ∧ index - child ≤ maxNatural

/-- The node has children, is not an assertion, and has a code. -/
def BranchesWithCode (code : Nat) (node : Node) : Prop :=
  (node.asChoice = node ∧ node.children ≠ []) ∧ node.code.1 = code

theorem code_asChoice (node : Node) : node.asChoice.code = node.code := by
  cases node <;> rfl

theorem payload_asChoice (node : Node) : node.asChoice.payload = node.payload := by
  cases node <;> rfl

@[simp]
theorem bitsAt_asChoice (index : Nat) (node : Node) :
    node.asChoice.bitsAt index = node.bitsAt index := by
  rw [bitsAt, bitsAt, distanceBits, distanceBits, code_asChoice, payload_asChoice,
    children_asChoice]

theorem code_of_branching {node : Node} (branching : node.asChoice = node ∧ node.children ≠ []) :
    node.code.1 < 2 ^ 3 ∧ node.code.2 = 3 + 2 ∧ node.payload = [] := by
  rcases branching with ⟨plain, parent⟩
  cases node with
  | iden => exact absurd rfl parent
  | unit => exact absurd rfl parent
  | witness => exact absurd rfl parent
  | hidden => exact absurd rfl parent
  | assertl => cases plain
  | assertr => cases plain
  | _ => exact ⟨by simp [code], rfl, rfl⟩

theorem bitsAt_of_branching (index : Nat) {node : Node}
    (branching : node.asChoice = node ∧ node.children ≠ []) :
    node.bitsAt index =
      false :: false :: (BitString.lowBits node.code.1 3 ++ node.distanceBits index) := by
  rcases code_of_branching branching with ⟨small, width, noPayload⟩
  rw [bitsAt, width, noPayload, BitString.lowBits_add_of_lt small]
  simp

theorem bitsAt_hidden (index : Nat) (root : Digest) :
    (hidden root : Node).bitsAt index = false :: true :: true :: false ::
      root.toBytes.toList.flatMap fun byte => BitString.lowBits byte.toNat 8 := by
  have code_bits : BitString.lowBits 6 4 = [false, true, true, false] := by decide
  rw [bitsAt, distanceBits, code, payload, children, code_bits]
  simp

theorem reachableFrom_asChoice (index : Nat) (node : Node) :
    node.asChoice.ReachableFrom index ↔ node.ReachableFrom index := by
  rw [ReachableFrom, ReachableFrom, children_asChoice]

end Combinator

namespace BitString

/-- When each step appends the bits of an item that is allowed, all steps append the bits of all
items. -/
theorem foldlM_eq_ok_iff {ι : Type} {step : BitString → ι → Except StreamError BitString}
    {Allowed : ι → Prop} {bitsOf : ι → List Bool}
    (appends : ∀ out item result, step out item = .ok result ↔
      Allowed item ∧ result.toList = out.toList ++ bitsOf item)
    (items : List ι) (out result : BitString) :
    items.foldlM step out = .ok result ↔
      (∀ item ∈ items, Allowed item) ∧ result.toList = out.toList ++ items.flatMap bitsOf := by
  induction items generalizing out with
  | nil =>
      rw [List.flatMap_nil, List.append_nil, toList_inj]
      constructor
      · intro succeeds
        cases succeeds
        exact ⟨by simp, rfl⟩
      · rintro ⟨-, rfl⟩
        rfl
  | cons item rest ih =>
      rw [List.foldlM_cons, List.forall_mem_cons, List.flatMap_cons]
      cases appended : step out item with
      | error error =>
          constructor
          · intro impossible
            cases impossible
          · rintro ⟨⟨allowed, -⟩, -⟩
            have succeeds := (appends out item (.ofBits (out.toList ++ bitsOf item))).mpr
              ⟨allowed, by simp⟩
            rw [appended] at succeeds
            cases succeeds
      | ok next =>
          rcases (appends out item next).mp appended with ⟨allowed, written⟩
          change List.foldlM step next rest = _ ↔ _
          rw [ih next, written, List.append_assoc]
          simp [allowed]

theorem appendNode_eq_ok_iff (out : BitString) (node : Node) (index : Nat) (result : BitString) :
    out.appendNode node index = .ok result ↔
      node.ReachableFrom index ∧ result.toList = out.toList ++ node.bitsAt index := by
  change List.foldlM _ ((out.appendBits node.code.1 node.code.2).appendBytes node.payload) _ = _ ↔ _
  rw [foldlM_eq_ok_iff fun out child => appendNatural_eq_ok_iff out (index - child) .childOffset]
  simp [Combinator.ReachableFrom, Combinator.bitsAt, Combinator.distanceBits]

end BitString

/-- The bits of nodes, the first of which stands at an index. -/
def nodesBits (start : Nat) (nodes : List Node) : List Bool :=
  (nodes.zipIdx start).flatMap fun entry => entry.1.bitsAt entry.2

/-- The distances from nodes back to their children are in range; the first node stands at an
index. -/
def NodesReachable (start : Nat) (nodes : List Node) : Prop :=
  ∀ entry ∈ nodes.zipIdx start, entry.1.ReachableFrom entry.2

theorem nodesBits_map_asChoice (start : Nat) (nodes : List Node) :
    nodesBits start (nodes.map Combinator.asChoice) = nodesBits start nodes := by
  rw [nodesBits, List.zipIdx_map, List.flatMap_map]
  simp [nodesBits]

theorem nodesReachable_map_asChoice (start : Nat) (nodes : List Node) :
    NodesReachable start (nodes.map Combinator.asChoice) ↔ NodesReachable start nodes := by
  rw [NodesReachable, List.zipIdx_map, List.forall_mem_map]
  simp [NodesReachable, Combinator.reachableFrom_asChoice]

namespace Decoder

variable {α : Type}

theorem Recognizes.orReject {decoder : Decoder StreamError α} {Writes : α → List Bool → Prop}
    (recognizes : decoder.Recognizes Writes) : decoder.orReject.Recognizes Writes :=
  recognizes.adaptExcept Error.malformed

theorem child_recognizes (index : Nat) :
    (child index).Recognizes fun value written =>
      (0 < index - value ∧ index - value ≤ maxNatural) ∧
        written = naturalBits (index - value) := by
  have distance : ∀ offset, (∃ front, (0 < offset ∧ offset ≤ maxNatural) ∧
        front = naturalBits offset) →
      Recognizes (if index < offset then throw (.offsetOutOfRange index offset)
        else pure (index - offset) : Decoder Error Nat) fun value written =>
          offset ≤ index ∧ value = index - offset ∧ written = [] := by
    intro offset inRange
    split
    case isTrue past =>
      refine (Recognizes.throw _).congr ?_
      intro value written
      simp only [false_iff]
      omega
    case isFalse within =>
      refine (Recognizes.pure _).congr ?_
      intro value written
      simp only [Nat.not_lt.mp within, true_and]
  refine ((natural_recognizes .childOffset).orReject.bind distance).congr ?_
  intro value written
  constructor
  · rintro ⟨offset, _, _, ⟨inRange, rfl⟩, ⟨within, rfl, rfl⟩, rfl⟩
    have back : index - (index - offset) = offset := by omega
    rw [back, List.append_nil]
    exact ⟨inRange, rfl⟩
  · rintro ⟨inRange, rfl⟩
    exact ⟨index - value, _, [], ⟨inRange, rfl⟩, ⟨by omega, by omega, rfl⟩,
      (List.append_nil _).symm⟩

theorem children_recognizes (index : Nat) {make : Nat → Nat → Node} {code : Nat}
    (children_make : ∀ left right, (make left right).children = [left, right])
    (coded : ∀ node : Node, node.BranchesWithCode code ↔ ∃ left right, node = make left right) :
    (children index make).Recognizes fun node written =>
      node.BranchesWithCode code ∧ node.ReachableFrom index ∧
        written = node.distanceBits index := by
  refine ((child_recognizes index).bind fun left _ => (child_recognizes index).bind fun right _ =>
    Recognizes.pure (make left right)).congr ?_
  intro node written
  rw [coded node]
  constructor
  · rintro ⟨left, _, _, ⟨leftInRange, rfl⟩, ⟨right, _, _, ⟨rightInRange, rfl⟩, ⟨rfl, rfl⟩, rfl⟩, rfl⟩
    refine ⟨⟨left, right, rfl⟩, ?_, ?_⟩
    · rw [Combinator.ReachableFrom, children_make, List.forall_mem_cons, List.forall_mem_singleton]
      exact ⟨leftInRange, rightInRange⟩
    · simp [Combinator.distanceBits, children_make]
  · rintro ⟨⟨left, right, rfl⟩, reachable, rfl⟩
    rw [Combinator.ReachableFrom, children_make] at reachable
    refine ⟨left, _, _, ⟨reachable left (by simp), rfl⟩,
      ⟨right, _, [], ⟨reachable right (by simp), rfl⟩, ⟨rfl, rfl⟩, rfl⟩, ?_⟩
    simp [Combinator.distanceBits, children_make]

theorem onlyChild_recognizes (index : Nat) {make : Nat → Node} {code : Nat}
    (children_make : ∀ only, (make only).children = [only])
    (coded : ∀ node : Node, node.BranchesWithCode code ↔ ∃ only, node = make only) :
    Recognizes (do return make (← child index)) fun node written =>
      node.BranchesWithCode code ∧ node.ReachableFrom index ∧
        written = node.distanceBits index := by
  refine ((child_recognizes index).bind fun only _ => Recognizes.pure (make only)).congr ?_
  intro node written
  rw [coded node]
  constructor
  · rintro ⟨only, _, _, ⟨inRange, rfl⟩, ⟨rfl, rfl⟩, rfl⟩
    refine ⟨⟨only, rfl⟩, ?_, ?_⟩
    · rw [Combinator.ReachableFrom, children_make, List.forall_mem_singleton]
      exact inRange
    · simp [Combinator.distanceBits, children_make]
  · rintro ⟨⟨only, rfl⟩, reachable, rfl⟩
    rw [Combinator.ReachableFrom, children_make] at reachable
    refine ⟨only, _, [], ⟨reachable only (by simp), rfl⟩, ⟨rfl, rfl⟩, ?_⟩
    simp [Combinator.distanceBits, children_make]

/-- The combinators with children have codes that start with `00`, and the rest of the code tells
them apart. -/
theorem branching_recognizes (index : Nat) :
    (branching index).Recognizes fun node written =>
      (node.asChoice = node ∧ node.children ≠ []) ∧ node.ReachableFrom index ∧
        written = BitString.lowBits node.code.1 3 ++ node.distanceBits index := by
  refine (@Recognizes.bind _ _ _ _ _ _ (fun code node written =>
    node.BranchesWithCode code ∧ node.ReachableFrom index ∧ written = node.distanceBits index)
    (bits_recognizes 3 .nodeCode).orReject ?_).congr ?_
  · rintro code ⟨-, small, -⟩
    have codes : code = 0 ∨ code = 1 ∨ code = 2 ∨ code = 3 ∨ code = 4 ∨ code = 5 ∨ code = 6 ∨
        code = 7 := by omega
    rcases codes with rfl | rfl | rfl | rfl | rfl | rfl | rfl | rfl
    iterate 4
      · apply children_recognizes index fun _ _ => rfl
        intro node
        cases node <;> simp [Combinator.BranchesWithCode, Combinator.asChoice,
          Combinator.children, Combinator.code]
    iterate 4
      · apply onlyChild_recognizes index fun _ => rfl
        intro node
        cases node <;> simp [Combinator.BranchesWithCode, Combinator.asChoice,
          Combinator.children, Combinator.code]
  intro node written
  constructor
  · rintro ⟨code, _, _, ⟨-, rfl⟩, ⟨⟨plain, rfl⟩, reachable, rfl⟩, rfl⟩
    exact ⟨plain, reachable, rfl⟩
  · rintro ⟨plain, reachable, rfl⟩
    exact ⟨node.code.1, _, _, ⟨(Combinator.code_of_branching plain).1, rfl⟩,
      ⟨⟨plain, rfl⟩, reachable, rfl⟩, rfl⟩

theorem leaf_recognizes (index : Nat) :
    (leaf index).Recognizes fun node written =>
      node = .iden ∧ written = [false, false] ∨ node = .unit ∧ written = [false, true] := by
  refine (@Recognizes.bind _ _ _ _ _ _ (fun code node written =>
    (code = 0 ∧ node = .iden ∨ code = 1 ∧ node = .unit) ∧ written = [])
    (bits_recognizes 2 .nodeCode).orReject ?_).congr ?_
  · rintro code ⟨-, small, -⟩
    have codes : code = 0 ∨ code = 1 ∨ code = 2 ∨ code = 3 := by omega
    rcases codes with rfl | rfl | rfl | rfl
    · exact (Recognizes.pure _).congr (by simp)
    · exact (Recognizes.pure _).congr (by simp)
    · exact (Recognizes.throw _).congr (by simp)
    · exact (Recognizes.throw _).congr (by simp)
  intro node written
  constructor
  · rintro ⟨code, _, _, ⟨-, rfl⟩, ⟨⟨rfl, rfl⟩ | ⟨rfl, rfl⟩, rfl⟩, rfl⟩
    · exact .inl ⟨rfl, rfl⟩
    · exact .inr ⟨rfl, rfl⟩
  · rintro (⟨rfl, rfl⟩ | ⟨rfl, rfl⟩)
    · exact ⟨0, _, [], ⟨by decide, rfl⟩, ⟨.inl ⟨rfl, rfl⟩, rfl⟩, rfl⟩
    · exact ⟨1, _, [], ⟨by decide, rfl⟩, ⟨.inr ⟨rfl, rfl⟩, rfl⟩, rfl⟩

theorem hidden_recognizes :
    Recognizes (do return Combinator.hidden (.ofBytes (← (bytes 32 .hiddenPayload).orReject)))
      fun (node : Node) written => ∃ root, node = .hidden root ∧
        written = root.toBytes.toList.flatMap fun byte => BitString.lowBits byte.toNat 8 := by
  refine ((bytes_recognizes (by decide) .hiddenPayload).orReject.bind fun payload _ =>
    Recognizes.pure (Combinator.hidden (.ofBytes payload))).congr ?_
  intro node written
  constructor
  · rintro ⟨payload, front, back, front_eq, ⟨rfl, rfl⟩, split⟩
    refine ⟨.ofBytes payload, rfl, ?_⟩
    rw [split, front_eq, Digest.toBytes_ofBytes, List.append_nil]
  · rintro ⟨root, rfl, written_eq⟩
    refine ⟨root.toBytes, written, [], written_eq, ⟨?_, rfl⟩, (List.append_nil _).symm⟩
    rw [Digest.ofBytes_toBytes]

/-- A node is read exactly from its bits, except that assertions are read as choices. -/
theorem node_recognizes (index : Nat) :
    (node index).Recognizes fun value written =>
      value.asChoice = value ∧ value.ReachableFrom index ∧ written = value.bitsAt index := by
  have readBit := (bit_recognizes .nodeCode).orReject
  refine (readBit.cond (readBit.cond (Recognizes.throw _) (Recognizes.throw _))
    (readBit.cond (readBit.cond (readBit.cond (Recognizes.pure .witness) hidden_recognizes)
      (leaf_recognizes index)) (branching_recognizes index))).congr ?_
  intro value written
  constructor
  · rintro (⟨_, -, ⟨_, -, impossible⟩ | ⟨_, -, impossible⟩⟩ |
      ⟨_, rfl, ⟨_, rfl, ⟨_, rfl, ⟨_, rfl, rfl, rfl⟩ | ⟨payload, rfl, root, rfl, payload_eq⟩⟩ |
        ⟨_, rfl, ⟨rfl, rfl⟩ | ⟨rfl, rfl⟩⟩⟩ | ⟨_, rfl, plain, reachable, rfl⟩⟩)
    · exact impossible.elim
    · exact impossible.elim
    · exact ⟨rfl, by simp [Combinator.ReachableFrom, Combinator.children], rfl⟩
    · refine ⟨rfl, by simp [Combinator.ReachableFrom, Combinator.children], ?_⟩
      rw [Combinator.bitsAt_hidden, ← payload_eq]
    · exact ⟨rfl, by simp [Combinator.ReachableFrom, Combinator.children], rfl⟩
    · exact ⟨rfl, by simp [Combinator.ReachableFrom, Combinator.children], rfl⟩
    · exact ⟨plain.1, reachable, (Combinator.bitsAt_of_branching index plain).symm⟩
  · rintro ⟨plain, reachable, rfl⟩
    right
    by_cases parent : value.children = []
    · cases value with
      | iden => exact ⟨_, rfl, .inl ⟨_, rfl, .inr ⟨_, rfl, .inl ⟨rfl, rfl⟩⟩⟩⟩
      | unit => exact ⟨_, rfl, .inl ⟨_, rfl, .inr ⟨_, rfl, .inr ⟨rfl, rfl⟩⟩⟩⟩
      | witness => exact ⟨_, rfl, .inl ⟨_, rfl, .inl ⟨_, rfl, .inl ⟨_, rfl, rfl, rfl⟩⟩⟩⟩
      | hidden root =>
          rw [Combinator.bitsAt_hidden]
          exact ⟨_, rfl, .inl ⟨_, rfl, .inl ⟨_, rfl, .inr ⟨_, rfl, root, rfl, rfl⟩⟩⟩⟩
      | _ => simp [Combinator.children] at parent
    · rw [Combinator.bitsAt_of_branching index ⟨plain, parent⟩]
      exact ⟨_, rfl, .inr ⟨_, rfl, ⟨plain, parent⟩, reachable, rfl⟩⟩

theorem nodes_recognizes (count : Nat) (done : Array Node) :
    (nodes count done).Recognizes fun result written =>
      ∃ added, result.toList = done.toList ++ added ∧ added.length = count ∧
        added.map Combinator.asChoice = added ∧ NodesReachable done.size added ∧
        written = nodesBits done.size added := by
  induction count generalizing done with
  | zero =>
      refine (Recognizes.pure done).congr ?_
      intro result written
      constructor
      · rintro ⟨rfl, rfl⟩
        exact ⟨[], by simp, rfl, rfl, by simp [NodesReachable], rfl⟩
      · rintro ⟨added, listed, none, -, -, rfl⟩
        have noneAdded : added = [] := List.length_eq_zero_iff.mp none
        subst noneAdded
        exact ⟨Array.toList_inj.mp (by simpa using listed), rfl⟩
  | succ count ih =>
      refine ((node_recognizes done.size).bind fun next _ => ih (done.push next)).congr ?_
      intro result written
      constructor
      · rintro ⟨next, _, _, ⟨plain, reachable, rfl⟩,
          ⟨added, listed, rfl, allPlain, allReachable, rfl⟩, rfl⟩
        rw [Array.size_push] at allReachable ⊢
        refine ⟨next :: added, by simpa using listed, rfl,
          by rw [List.map_cons, plain, allPlain], ?_, ?_⟩
        · rw [NodesReachable, List.zipIdx_cons, List.forall_mem_cons]
          exact ⟨reachable, allReachable⟩
        · rw [nodesBits, nodesBits, List.zipIdx_cons, List.flatMap_cons]
      · rintro ⟨added, listed, length_eq, allPlain, allReachable, rfl⟩
        cases added with
        | nil => cases length_eq
        | cons next rest =>
            rw [List.map_cons, List.cons.injEq] at allPlain
            rw [NodesReachable, List.zipIdx_cons, List.forall_mem_cons] at allReachable
            refine ⟨next, _, _, ⟨allPlain.1, allReachable.1, rfl⟩,
              ⟨rest, by simpa using listed, by simpa using length_eq, allPlain.2, ?_, rfl⟩, ?_⟩
            · rw [Array.size_push]
              exact allReachable.2
            · rw [nodesBits, nodesBits, List.zipIdx_cons, List.flatMap_cons, Array.size_push]

end Decoder

namespace Expression

/-- The bits of a number of nodes. -/
def programBits (nodes : List Node) : List Bool :=
  naturalBits nodes.length ++ nodesBits 0 nodes

theorem readNodes_recognizes (maxNodes : Nat) :
    (readNodes maxNodes).Recognizes fun result written =>
      (0 < result.size ∧ result.size ≤ maxNatural ∧ result.size ≤ maxNodes) ∧
        (result.toList.map Combinator.asChoice = result.toList ∧
          NodesReachable 0 result.toList) ∧ written = programBits result.toList := by
  have limited : ∀ count, (∃ front, (0 < count ∧ count ≤ maxNatural) ∧
        front = naturalBits count) →
      Decoder.Recognizes (if maxNodes < count then throw (.tooManyNodes count maxNodes)
        else Decoder.nodes count #[]) fun result written =>
          count ≤ maxNodes ∧ result.size = count ∧
            (result.toList.map Combinator.asChoice = result.toList ∧
              NodesReachable 0 result.toList) ∧ written = nodesBits 0 result.toList := by
    intro count _
    split
    case isTrue tooMany =>
      refine (Decoder.Recognizes.throw _).congr ?_
      intro result written
      simp only [false_iff]
      omega
    case isFalse within =>
      refine (Decoder.nodes_recognizes count #[]).congr ?_
      intro result written
      constructor
      · rintro ⟨added, listed, rfl, plain, reachable, rfl⟩
        have allAdded : result.toList = added := by simpa using listed
        rw [allAdded, ← Array.length_toList, allAdded]
        exact ⟨by omega, rfl, ⟨plain, reachable⟩, rfl⟩
      · rintro ⟨-, rfl, ⟨plain, reachable⟩, rfl⟩
        exact ⟨result.toList, by simp, rfl, plain, reachable, rfl⟩
  refine ((Decoder.natural_recognizes .nodeCount).orReject.bind limited).congr ?_
  intro result written
  constructor
  · rintro ⟨_, _, _, ⟨inRange, rfl⟩, ⟨within, rfl, readable, rfl⟩, rfl⟩
    exact ⟨⟨inRange.1, inRange.2, within⟩, readable, rfl⟩
  · rintro ⟨⟨positive, inRange, within⟩, readable, rfl⟩
    exact ⟨result.size, _, _, ⟨⟨positive, inRange⟩, rfl⟩, ⟨within, rfl, readable, rfl⟩, rfl⟩

theorem nodesReachable_nodes {expression : Expression} (small : expression.size ≤ maxNatural) :
    NodesReachable 0 expression.nodes.toList := by
  rintro ⟨node, index⟩ member child childMem
  have found := List.mk_mem_zipIdx_iff_getElem?.mp member
  rw [Array.getElem?_toList] at found
  rcases Array.getElem?_eq_some_iff.mp found with ⟨inside, rfl⟩
  have earlier := expression.dag.backward index inside child childMem
  change expression.dag.nodes.size ≤ maxNatural at small
  change index < expression.dag.nodes.size at inside
  omega

theorem toBits_eq_ok_iff (expression : Expression) (result : BitString) :
    expression.toBits = .ok result ↔
      expression.size ≤ maxNatural ∧ result.toList = programBits expression.nodes.toList := by
  have count := BitString.appendNatural_eq_ok_iff .empty expression.size .nodeCount
  have all := BitString.foldlM_eq_ok_iff (fun out (entry : Node × Nat) =>
    BitString.appendNode_eq_ok_iff out entry.1 entry.2) expression.nodes.toList.zipIdx
  unfold toBits
  cases appended : BitString.empty.appendNatural expression.size .nodeCount with
  | error error =>
      constructor
      · intro impossible
        cases impossible
      · rintro ⟨small, -⟩
        have succeeds := (count (BitString.empty.appendCode expression.size)).mpr
          ⟨⟨expression.nonempty, small⟩, by simp⟩
        rw [appended] at succeeds
        cases succeeds
  | ok out =>
      rcases (count out).mp appended with ⟨⟨-, small⟩, written⟩
      have sized : expression.size = expression.nodes.toList.length := rfl
      refine (all out result).trans ?_
      rw [written, BitString.toList_empty, List.nil_append, sized]
      exact and_congr_left' ⟨fun _ => small, fun _ => nodesReachable_nodes small⟩

theorem programBits_map_asChoice (nodes : List Node) :
    programBits (nodes.map Combinator.asChoice) = programBits nodes := by
  rw [programBits, programBits, nodesBits_map_asChoice, List.length_map]

theorem encode_eq_ok_iff (expression : Expression) (bytes : ByteArray) :
    expression.encode = .ok bytes ↔
      ∃ out, expression.toBits = .ok out ∧ out.bytes = bytes := by
  unfold encode
  cases expression.toBits with
  | error error => simp [Except.map]
  | ok out => simp [Except.map]

theorem exists_encode_iff (expression : Expression) :
    (∃ written, expression.encode = .ok written) ↔ expression.size ≤ maxNatural := by
  constructor
  · rintro ⟨written, encodes⟩
    rcases (encode_eq_ok_iff _ _).mp encodes with ⟨out, writes, -⟩
    exact ((toBits_eq_ok_iff _ _).mp writes).1
  · intro inRange
    refine ⟨_, (encode_eq_ok_iff _ _).mpr ⟨.ofBits (programBits expression.nodes.toList), ?_, rfl⟩⟩
    exact (toBits_eq_ok_iff _ _).mpr ⟨inRange, BitString.toList_ofBits _⟩

/-- The nodes of an expression are read from its bits, up to its assertions. -/
theorem readNodes_eq_ok_iff (bytes : ByteArray) (maxNodes : Nat) (nodes : Array Node) :
    (∃ cursor, readNodes maxNodes (.ofBytes bytes) = .ok nodes cursor ∧
        cursor.finish .program = .ok ()) ↔
      (0 < nodes.size ∧ nodes.size ≤ maxNatural ∧ nodes.size ≤ maxNodes) ∧
        (nodes.toList.map Combinator.asChoice = nodes.toList ∧ NodesReachable 0 nodes.toList) ∧
        bytes = (BitString.ofBits (programBits nodes.toList)).bytes := by
  rw [(readNodes_recognizes maxNodes).whole_iff]
  constructor
  · rintro ⟨_, ⟨counts, readable, rfl⟩, bytes_eq⟩
    exact ⟨counts, readable, bytes_eq⟩
  · rintro ⟨counts, readable, bytes_eq⟩
    exact ⟨_, ⟨counts, readable, rfl⟩, bytes_eq⟩

theorem decode_eq_ok_iff_readNodes (bytes : ByteArray) (limits : Limits)
    (expression : Expression) :
    decode bytes limits = .ok expression ↔
      limits.validate = .ok () ∧ bytes.size ≤ limits.maxProgramBytes ∧
        ∃ nodes, (∃ cursor, readNodes limits.maxNodes (.ofBytes bytes) = .ok nodes cursor ∧
          cursor.finish .program = .ok ()) ∧ ofNodes nodes = .ok expression := by
  unfold decode Limits.check
  cases limits.validate with
  | error error =>
      constructor
      · intro impossible
        cases impossible
      · rintro ⟨impossible, -⟩
        cases impossible
  | ok =>
      rcases Nat.lt_or_ge limits.maxProgramBytes bytes.size with large | small
      · constructor
        · intro impossible
          rw [if_pos large] at impossible
          cases impossible
        · rintro ⟨-, small, -⟩
          omega
      · rw [if_neg (Nat.not_lt.mpr small)]
        cases readNodes limits.maxNodes (.ofBytes bytes) with
        | error error cursor =>
            constructor
            · intro impossible
              cases impossible
            · rintro ⟨-, -, nodes, ⟨cursor, impossible, -⟩, -⟩
              cases impossible
        | ok nodes cursor =>
            change (do
              (cursor.finish .program).mapError Error.malformed
              ofNodes nodes) = _ ↔ _
            cases finished : cursor.finish .program with
            | error error =>
                constructor
                · intro impossible
                  cases impossible
                · rintro ⟨-, -, _, ⟨_, same, succeeds⟩, -⟩
                  cases same
                  rw [finished] at succeeds
                  cases succeeds
            | ok =>
                constructor
                · intro succeeds
                  exact ⟨rfl, small, nodes, ⟨cursor, rfl, finished⟩, succeeds⟩
                · rintro ⟨-, -, _, ⟨_, same, -⟩, succeeds⟩
                  cases same
                  exact succeeds

theorem encode_of_decode {bytes : ByteArray} {limits : Limits} {expression : Expression}
    (decodes : decode bytes limits = .ok expression) :
    (limits.validate = .ok () ∧ bytes.size ≤ limits.maxProgramBytes ∧
      expression.size ≤ limits.maxNodes) ∧ expression.encode = .ok bytes := by
  rcases (decode_eq_ok_iff_readNodes _ _ _).mp decodes with ⟨valid, small, nodes, reads, lists⟩
  rcases (readNodes_eq_ok_iff _ _ _).mp reads with ⟨⟨-, inRange, within⟩, ⟨plain, -⟩, bytes_eq⟩
  -- The list that was read and the list of the expression differ in assertions only.
  have same := Dag.asChoice_of_ofNodes ((ofNodes_eq_ok_iff _ _).mp lists)
  have sized : expression.size = nodes.size := by
    have lengths := congrArg List.length same
    rw [List.length_map, List.length_map] at lengths
    exact lengths
  refine ⟨⟨valid, small, sized ▸ within⟩, ?_⟩
  rw [encode_eq_ok_iff]
  refine ⟨.ofBits (programBits nodes.toList), ?_, bytes_eq.symm⟩
  rw [toBits_eq_ok_iff, BitString.toList_ofBits, ← programBits_map_asChoice expression.nodes.toList]
  refine ⟨sized ▸ inRange, ?_⟩
  rw [← plain]
  exact congrArg programBits same.symm

theorem decode_of_encode {bytes : ByteArray} {limits : Limits} {expression : Expression}
    (valid : limits.validate = .ok ()) (small : bytes.size ≤ limits.maxProgramBytes)
    (within : expression.size ≤ limits.maxNodes) (encodes : expression.encode = .ok bytes) :
    decode bytes limits = .ok expression := by
  rcases (encode_eq_ok_iff _ _).mp encodes with ⟨out, writes, rfl⟩
  rcases (toBits_eq_ok_iff _ _).mp writes with ⟨inRange, written⟩
  rw [decode_eq_ok_iff_readNodes]
  refine ⟨valid, small, expression.dag.nodes.map Combinator.asChoice, ?_, ?_⟩
  · rw [readNodes_eq_ok_iff, Array.size_map, Array.toList_map]
    refine ⟨⟨expression.nonempty, inRange, within⟩, ⟨?_, ?_⟩, ?_⟩
    · rw [List.map_map]
      apply List.map_congr_left
      intro node _
      exact Combinator.asChoice_asChoice node
    · rw [nodesReachable_map_asChoice]
      exact nodesReachable_nodes inRange
    · rw [programBits_map_asChoice]
      congr 1
      apply BitString.eq_of_toList_eq
      rw [written, BitString.toList_ofBits]
      rfl
  · rw [ofNodes_eq_ok_iff]
    exact expression.dag.ofNodes_map fun node => .inr rfl

/-- Decoding within limits accepts exactly the bytes that are the encoding of an expression within
those limits, and gives that expression. An expression has an encoding unless it has too many nodes
for their number to be written. -/
theorem decode_eq_ok_iff_encode (bytes : ByteArray) (limits : Limits) (expression : Expression) :
    (decode bytes limits = .ok expression ↔
      (limits.validate = .ok () ∧ bytes.size ≤ limits.maxProgramBytes ∧
        expression.size ≤ limits.maxNodes) ∧ expression.encode = .ok bytes) ∧
      ((∃ written, expression.encode = .ok written) ↔ expression.size ≤ maxNatural) := by
  refine ⟨⟨encode_of_decode, ?_⟩, exists_encode_iff expression⟩
  rintro ⟨⟨valid, small, within⟩, encodes⟩
  exact decode_of_encode valid small within encodes

end Expression

end Simplicity
