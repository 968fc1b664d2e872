import Simplicity.Proofs.Hash.Digest
import Simplicity.Proofs.Limits
import Simplicity.Proofs.Root.Invariance

/-!
# What the check for sharing refuses

The check goes through the nodes in order and keeps, for hidden and for other nodes apart, the roots
that it has met. It stops at the first node with a root that an earlier node of its kind has, and names
that node, of which there is only one: a second would itself have repeated the first.

No other stage of analysing a program complains about sharing. And since the identity root of a node is
made of its arrow and of its tree without types, nodes that agree in both are never accepted side by
side, whatever the hash is.
-/

namespace Simplicity

/-- The second node has the same root as the first, which is earlier and of the same kind. -/
def Repeats (nodes : List Node) (roots : List Digest) (first second : Nat) : Prop :=
  first < second ∧ ∃ node node' root, nodes[first]? = some node ∧ nodes[second]? = some node' ∧
    node.isHidden = node'.isHidden ∧ roots[first]? = some root ∧ roots[second]? = some root

/-- The second node is the first one in the list that repeats an earlier node. -/
structure FirstRepeat (nodes : List Node) (roots : List Digest) (first second : Nat) : Prop where
  repeats : Repeats nodes roots first second
  least : ∀ earlier later, later < second → ¬Repeats nodes roots earlier later

section FirstRepeat

variable {nodes : List Node} {roots : List Digest} {first second first' second' : Nat}

/-- Of two earlier nodes that a node repeats, the later one repeats the earlier. -/
theorem Repeats.of_lt (repeats : Repeats nodes roots first second)
    (repeats' : Repeats nodes roots first' second) (lt : first < first') :
    Repeats nodes roots first first' := by
  rcases repeats with ⟨-, node, last, root, isNode, isLast, sameKind, isRoot, isLastRoot⟩
  rcases repeats' with ⟨-, node', last', root', isNode', isLast', sameKind', isRoot', isLastRoot'⟩
  have sameLast : last = last' := Option.some.inj (isLast.symm.trans isLast')
  have sameRoot : root = root' := Option.some.inj (isLastRoot.symm.trans isLastRoot')
  subst sameLast sameRoot
  exact ⟨lt, node, node', root, isNode, isNode', sameKind.trans sameKind'.symm, isRoot, isRoot'⟩

theorem FirstRepeat.unique (isFirst : FirstRepeat nodes roots first second)
    (isFirst' : FirstRepeat nodes roots first' second') : first = first' ∧ second = second' := by
  have sameSecond : second = second' := by
    rcases Nat.lt_trichotomy second second' with lt | eq | gt
    · exact absurd isFirst.repeats (isFirst'.least _ _ lt)
    · exact eq
    · exact absurd isFirst'.repeats (isFirst.least _ _ gt)
  subst sameSecond
  refine ⟨?_, rfl⟩
  rcases Nat.lt_trichotomy first first' with lt | eq | gt
  · exact absurd (isFirst.repeats.of_lt isFirst'.repeats lt) (isFirst.least _ _ isFirst'.repeats.1)
  · exact eq
  · exact absurd (isFirst'.repeats.of_lt isFirst.repeats gt) (isFirst.least _ _ isFirst.repeats.1)

end FirstRepeat

/-- A run that fails has succeeded up to the step that fails. -/
theorem exists_failing_of_foldlM {α β ε : Type} {step : β → α → Except ε β} {entries : List α}
    {start : β} {error : ε} (fails : entries.foldlM step start = .error error) :
    ∃ before entry after state, entries = before ++ entry :: after ∧
      before.foldlM step start = .ok state ∧ step state entry = .error error := by
  induction entries generalizing start with
  | nil => cases fails
  | cons entry entries ih =>
      rw [List.foldlM_cons] at fails
      rcases error_or_exists_ok_of_bind fails with failsNow | ⟨next, steps, failsLater⟩
      · exact ⟨[], entry, entries, start, rfl, rfl, failsNow⟩
      · rcases ih failsLater with ⟨before, failing, after, state, rfl, ran, failsThere⟩
        refine ⟨entry :: before, failing, after, state, rfl, ?_, failsThere⟩
        rw [List.foldlM_cons, steps]
        exact ran

namespace SeenNodes

/-- Every index that is kept is the one of a node that was met, under its own root and kind. -/
def Records (seen : SeenNodes) (met : List ((Node × Digest) × Nat)) : Prop :=
  ∀ (kind : Bool) (key index : Nat), (seen.table kind)[key]? = some index →
    ∃ node root, ((node, root), index) ∈ met ∧ node.isHidden = kind ∧ root.toNat = key

variable {seen seen' : SeenNodes} {met : List ((Node × Digest) × Nat)} {index : Nat} {node : Node}
  {root : Digest}

theorem table_of_meet {hidden kind : Bool} {key : Nat}
    (meets : seen.meet index hidden root = .ok seen') :
    (seen'.table kind)[key]? =
      if hidden = kind ∧ root.toNat = key then some index else (seen.table kind)[key]? := by
  unfold meet at meets
  cases hidden with
  | true =>
      simp only [↓reduceIte] at meets
      split at meets
      case h_1 => cases meets
      case h_2 =>
        cases meets
        cases kind with
        | true => simp [table, Std.TreeMap.getElem?_insert]
        | false => simp [table]
  | false =>
      simp only [Bool.false_eq_true, ↓reduceIte] at meets
      split at meets
      case h_1 => cases meets
      case h_2 =>
        cases meets
        cases kind with
        | true => simp [table]
        | false => simp [table, Std.TreeMap.getElem?_insert]

theorem Records.meet (records : seen.Records met)
    (meets : seen.meet index node.isHidden root = .ok seen') :
    seen'.Records (met ++ [((node, root), index)]) := by
  intro kind key found isFound
  rw [table_of_meet meets] at isFound
  split at isFound
  case isTrue same =>
    cases isFound
    exact ⟨node, root, by simp, same.1, same.2⟩
  case isFalse =>
    rcases records kind key found isFound with ⟨node', root', member, sameKind, sameKey⟩
    exact ⟨node', root', List.mem_append_left _ member, sameKind, sameKey⟩

/-- A run that meets one node after another keeps the record of all of them. -/
theorem Records.foldlM {entries : List ((Node × Digest) × Nat)} (records : seen.Records met)
    (meets : entries.foldlM
      (fun seen entry => seen.meet entry.2 entry.1.1.isHidden entry.1.2) seen = .ok seen') :
    seen'.Records (met ++ entries) := by
  induction entries generalizing seen met with
  | nil =>
      cases meets
      rwa [List.append_nil]
  | cons entry entries ih =>
      rw [List.foldlM_cons] at meets
      rcases exists_ok_of_bind meets with ⟨next, meetsFirst, meetsRest⟩
      have kept := ih (records.meet meetsFirst) meetsRest
      rwa [List.append_assoc, List.singleton_append] at kept

theorem records_empty : empty.Records [] := by
  intro kind key index isFound
  cases kind <;> simp [table, empty] at isFound

/-- Meeting a node fails only with the index that is kept for its root and kind. -/
theorem meet_eq_error {hidden : Bool} {error : Error}
    (fails : seen.meet index hidden root = .error error) :
    ∃ first, (seen.table hidden)[root.toNat]? = some first ∧
      error = .sharingNotMaximal first index := by
  unfold meet at fails
  cases hidden with
  | true =>
      simp only [↓reduceIte] at fails
      split at fails
      case h_1 first isFound => exact ⟨first, isFound, (Except.error.inj fails).symm⟩
      case h_2 => cases fails
  | false =>
      simp only [Bool.false_eq_true, ↓reduceIte] at fails
      split at fails
      case h_1 first isFound => exact ⟨first, isFound, (Except.error.inj fails).symm⟩
      case h_2 => cases fails

end SeenNodes

section Checking

variable {nodes : List Node} {roots : List Digest} {first second : Nat}

theorem getElem?_entries_iff {position index : Nat} {node : Node} {root : Digest} :
    (nodes.zip roots).zipIdx[position]? = some ((node, root), index) ↔
      position = index ∧ nodes[position]? = some node ∧ roots[position]? = some root := by
  rw [List.getElem?_zipIdx, Option.map_eq_some_iff]
  constructor
  · rintro ⟨entry, isEntry, same⟩
    cases same
    exact ⟨by omega, List.getElem?_zip_eq_some.mp isEntry⟩
  · rintro ⟨rfl, isEntry⟩
    exact ⟨(node, root), List.getElem?_zip_eq_some.mpr isEntry, by simp⟩

theorem not_repeats_of_checkSharing (checked : checkSharing nodes roots = .ok ()) :
    ¬Repeats nodes roots first second := by
  rintro ⟨lt, node, node', root, isNode, isNode', sameKind, isRoot, isRoot'⟩
  exact root_ne_of_checkSharing checked lt isNode isNode' isRoot isRoot' sameKind rfl

/-- In a list that passes the check, nodes of one kind with the same root are the same node. -/
theorem eq_of_checkSharing (checked : checkSharing nodes roots = .ok ()) {node node' : Node}
    {root : Digest} (isNode : nodes[first]? = some node) (isNode' : nodes[second]? = some node')
    (sameKind : node.isHidden = node'.isHidden) (isRoot : roots[first]? = some root)
    (isRoot' : roots[second]? = some root) : first = second := by
  rcases Nat.lt_trichotomy first second with lt | eq | gt
  · exact absurd ⟨lt, node, node', root, isNode, isNode', sameKind, isRoot, isRoot'⟩
      (not_repeats_of_checkSharing checked)
  · exact eq
  · exact absurd ⟨gt, node', node, root, isNode', isNode, sameKind.symm, isRoot', isRoot⟩
      (not_repeats_of_checkSharing checked)

/-- The check fails only at a node that is the first one to repeat another. -/
theorem exists_firstRepeat_of_checkSharing {error : Error}
    (fails : checkSharing nodes roots = .error error) :
    ∃ first second, error = .sharingNotMaximal first second ∧
      FirstRepeat nodes roots first second := by
  rcases error_or_exists_ok_of_bind fails with failsMeeting | ⟨_, _, ⟨⟩⟩
  rcases exists_failing_of_foldlM failsMeeting with
    ⟨before, ⟨⟨node, root⟩, index⟩, after, seen, split, ran, failsThere⟩
  have earlier : ∀ (position : Nat) entry, before[position]? = some entry →
      (nodes.zip roots).zipIdx[position]? = some entry := by
    intro position entry isEntry
    rw [split, List.getElem?_append_left (List.getElem?_eq_some_iff.mp isEntry).1, isEntry]
  have failing : (nodes.zip roots).zipIdx[before.length]? = some ((node, root), index) := by
    simp [split]
  rcases getElem?_entries_iff.mp failing with ⟨rfl, isNode, isRoot⟩
  rcases SeenNodes.meet_eq_error failsThere with ⟨first, isKnown, rfl⟩
  rcases SeenNodes.records_empty.foldlM ran _ _ _ isKnown with
    ⟨node', root', member, sameKind, sameKey⟩
  refine ⟨first, before.length, rfl, ?_, ?_⟩
  · rw [List.nil_append, List.mem_iff_getElem?] at member
    rcases member with ⟨position, isEntry⟩
    rcases getElem?_entries_iff.mp (earlier _ _ isEntry) with ⟨rfl, isNode', isRoot'⟩
    rw [Digest.toNat_injective sameKey] at isRoot'
    exact ⟨(List.getElem?_eq_some_iff.mp isEntry).1, node', node, root, isNode', isNode, sameKind,
      isRoot', isRoot⟩
  · rintro earlier later inside
      ⟨lt, node, node', root, isNode, isNode', sameKind, isRoot, isRoot'⟩
    have pairwise := (SeenNodes.pairwise_of_foldlM_meet ran).2
    rw [List.pairwise_iff_getElem] at pairwise
    have entry_eq : ∀ {position : Nat} {node : Node} (insideBefore : position < before.length),
        nodes[position]? = some node → roots[position]? = some root →
          before[position] = ((node, root), position) := by
      intro position node insideBefore isNode isRoot
      have isEntry := getElem?_entries_iff.mpr ⟨rfl, isNode, isRoot⟩
      rw [split, List.getElem?_append_left insideBefore] at isEntry
      exact (List.getElem?_eq_some_iff.mp isEntry).2
    have different := pairwise earlier later (by omega) inside lt
    rw [entry_eq (by omega) isNode isRoot, entry_eq inside isNode' isRoot'] at different
    exact different sameKind rfl

theorem checkSharing_eq_error_iff : checkSharing nodes roots = .error (.sharingNotMaximal first second) ↔
    FirstRepeat nodes roots first second := by
  constructor
  · intro fails
    rcases exists_firstRepeat_of_checkSharing fails with ⟨first', second', same, isFirst⟩
    cases same
    exact isFirst
  · intro isFirst
    cases checked : checkSharing nodes roots with
    | ok => exact absurd isFirst.repeats (not_repeats_of_checkSharing checked)
    | error error =>
        rcases exists_firstRepeat_of_checkSharing checked with ⟨first', second', rfl, isFirst'⟩
        rcases isFirst.unique isFirst' with ⟨rfl, rfl⟩
        rfl

end Checking

namespace Expression

variable {expression : Expression} {witness : Witness} {index : Nat}

theorem getElem?_nodes : expression.nodes.toList[index]? = expression.node? index :=
  Array.getElem?_toList

/-- The identity root of a hidden node is its payload. -/
theorem identityRoots_of_hidden {roots : Vector Digest expression.dag.nodes.size}
    {payload : Digest} (ran : expression.identityRoots witness = .ok roots)
    (isNode : expression.node? index = some (.hidden payload)) :
    roots.toList[index]? = some payload := by
  have ⟨inside, isHidden⟩ : ∃ inside : index < expression.dag.nodes.size,
      expression.dag.nodes[index] = .hidden payload := Array.getElem?_eq_some_iff.mp isNode
  rcases identityOf_of_identityRoots ran with ⟨prints, -, identities⟩
  have identity := identities index inside
  rw [isHidden, identityOf, Dag.resultAt_eq roots inside] at identity
  rw [Vector.getElem?_toList, Vector.getElem?_eq_getElem inside]
  exact identity.symm

theorem fingerprint_unfoldingAt {prints : Vector Digest expression.dag.nodes.size}
    (printed : expression.fingerprints witness = .ok prints)
    (inside : index < expression.dag.nodes.size) :
    (expression.unfoldingAt witness index).fingerprint = Dag.resultAt prints index := by
  refine fold_unfoldingAt ?_ inside
  intro index inside
  rw [fingerprintOf_of_fingerprints printed inside, Option.getD_some]

/-- The identity root of a node that is not hidden is made of its tree without types and of its own
arrow. -/
theorem identityRoots_of_visible {roots : Vector Digest expression.dag.nodes.size} {node : Node}
    (ran : expression.identityRoots witness = .ok roots)
    (isNode : expression.node? index = some node) (visible : node.isHidden = false) :
    ∃ arrow, expression.arrow? index = some arrow ∧ roots.toList[index]? =
      some (bindArrow (expression.unfoldingAt witness index).untyped.fingerprint arrow) := by
  rcases exists_arrow? isNode visible with ⟨arrow, typed⟩
  have ⟨inside, node_eq⟩ : ∃ inside : index < expression.dag.nodes.size,
      expression.dag.nodes[index] = node := Array.getElem?_eq_some_iff.mp isNode
  subst node_eq
  rcases identityOf_of_identityRoots ran with ⟨prints, printed, identities⟩
  have identity := identities index inside
  rw [identityOf_of_visible visible, visibleArrow?_eq inside visible, typed, Option.map_some,
    Dag.resultAt_eq roots inside] at identity
  refine ⟨arrow, typed, ?_⟩
  rw [Unfolding.fingerprint_untyped, fingerprint_unfoldingAt printed inside, identity,
    Vector.getElem?_toList, Vector.getElem?_eq_getElem inside]

end Expression

namespace Program

variable {expression : Expression} {witness : Witness} {limits : Limits} {first second : Nat}

theorem checkBudget_ne_sharingNotMaximal (limits : Limits) (cost : Cost) :
    checkBudget limits cost ≠ .error (.sharingNotMaximal first second) := by
  unfold checkBudget
  split
  · simp
  · split <;> simp

/-- With limits in order and the right number of values, only the check for sharing complains about
sharing. -/
theorem analyse_eq_sharingNotMaximal {roots : Vector Digest expression.dag.nodes.size}
    (valid : limits.validate = .ok ()) (counted : witness.size = expression.witnessNodes.length)
    (ran : expression.identityRoots witness = .ok roots) :
    analyse expression witness limits = .error (.sharingNotMaximal first second) ↔
      checkSharing expression.nodes.toList roots.toList =
        .error (.sharingNotMaximal first second) := by
  rcases expression.exists_nodeBounds with ⟨results, bounded⟩
  rcases Expression.exists_annotatedRoots counted with ⟨annotations, annotated⟩
  simp only [analyse, Limits.check_of_valid valid, ran, Expression.bounds_eq_ok bounded,
    Expression.annotatedRoot_eq_ok annotated]
  change (checkSharing expression.nodes.toList roots.toList >>= fun _ =>
    checkBudget limits (Dag.resultAt results expression.root).cost >>= fun _ => .ok _) = _ ↔ _
  constructor
  · intro fails
    rcases error_or_exists_ok_of_bind fails with failsChecking | ⟨_, -, failsLater⟩
    · exact failsChecking
    · rcases error_or_exists_ok_of_bind failsLater with failsBudget | ⟨_, -, ⟨⟩⟩
      exact absurd failsBudget (checkBudget_ne_sharingNotMaximal _ _)
  · intro fails
    rw [fails]
    rfl

/-- With limits in order and the right number of values, a program is refused for its sharing exactly
if some node has the identity root of an earlier one of its kind, and the first such node is named
with the one that it repeats. So what is accepted has no two hidden nodes with the same payload, and no
two other nodes with the same arrow and the same tree without types. -/
theorem analyse_eq_sharingNotMaximal_iff (expression : Expression) (witness : Witness)
    (limits : Limits) (counted : witness.size = expression.witnessNodes.length)
    (valid : limits.validate = .ok ()) :
    (∃ roots, expression.identityRoots witness = .ok roots ∧
      (∀ index payload, expression.node? index = some (.hidden payload) →
        roots.toList[index]? = some payload) ∧
      ∀ first second,
        analyse expression witness limits = .error (.sharingNotMaximal first second) ↔
          FirstRepeat expression.nodes.toList roots.toList first second) ∧
    ∀ program, analyse expression witness limits = .ok program →
      (∀ index index' payload, expression.node? index = some (.hidden payload) →
        expression.node? index' = some (.hidden payload) → index = index') ∧
      ∀ index index' node node', expression.node? index = some node →
        expression.node? index' = some node' → node.isHidden = false → node'.isHidden = false →
        expression.arrow? index = expression.arrow? index' →
        (expression.unfoldingAt witness index).untyped =
          (expression.unfoldingAt witness index').untyped → index = index' := by
  rcases Expression.exists_identityRoots counted with ⟨roots, ran⟩
  constructor
  · refine ⟨roots, ran, ?_, ?_⟩
    · intro index payload isNode
      exact Expression.identityRoots_of_hidden ran isNode
    · intro first second
      rw [analyse_eq_sharingNotMaximal valid counted ran, checkSharing_eq_error_iff]
  · intro program accepted
    rcases analyse_eq_ok accepted with ⟨-, -, -, roots', ran', checked⟩
    cases ran.symm.trans ran'
    constructor
    · intro index index' payload isNode isNode'
      exact eq_of_checkSharing checked (Expression.getElem?_nodes.trans isNode)
        (Expression.getElem?_nodes.trans isNode') rfl (Expression.identityRoots_of_hidden ran isNode)
        (Expression.identityRoots_of_hidden ran isNode')
    · intro index index' node node' isNode isNode' visible visible' sameArrow sameTree
      rcases Expression.identityRoots_of_visible ran isNode visible with ⟨arrow, typed, isRoot⟩
      rcases Expression.identityRoots_of_visible ran isNode' visible' with ⟨arrow', typed', isRoot'⟩
      have arrow_eq : arrow = arrow' := by
        rw [typed, typed', Option.some.injEq] at sameArrow
        exact sameArrow
      rw [← arrow_eq, ← sameTree] at isRoot'
      exact eq_of_checkSharing checked (Expression.getElem?_nodes.trans isNode)
        (Expression.getElem?_nodes.trans isNode') (visible.trans visible'.symm) isRoot isRoot'

open Expression in
/-- A pair whose components are two witness nodes with the same value is refused, and the two witness
nodes are named. -/
theorem analyse_eq_sharingNotMaximal_unsharedPair :
    analyse unsharedPair ⟨[.empty, .empty]⟩ .standard = .error (.sharingNotMaximal 0 1) := by
  rcases (analyse_eq_sharingNotMaximal_iff unsharedPair ⟨[.empty, .empty]⟩ .standard rfl rfl).1 with
    ⟨roots, ran, -, refused⟩
  have sameTree : unsharedPair.unfoldingAt ⟨[.empty, .empty]⟩ 0 =
      unsharedPair.unfoldingAt ⟨[.empty, .empty]⟩ 1 := by
    rw [unfoldingAt_eq (by decide), unfoldingAt_eq (by decide)]
    rfl
  have sameRoot := identityRoot_eq_of_unfoldingAt_eq ran (by decide) (by decide) sameTree
  have isRoot : ∀ index, index < unsharedPair.dag.nodes.size →
      roots.toList[index]? = some (Dag.resultAt roots index) := by
    intro index inside
    rw [Vector.getElem?_toList, Vector.getElem?_eq_getElem inside, Dag.resultAt_eq roots inside]
  apply (refused 0 1).mpr
  refine ⟨⟨by decide, .witness, .witness, Dag.resultAt roots 0, rfl, rfl, rfl,
    isRoot 0 (by decide), ?_⟩, ?_⟩
  · rw [sameRoot]
    exact isRoot 1 (by decide)
  · rintro earlier later before ⟨lt, -⟩
    omega

end Program

end Simplicity
