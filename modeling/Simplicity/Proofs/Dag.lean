import Mathlib.Algebra.Ring.Nat
import Mathlib.Data.List.Forall2
import Simplicity.Expression.Basic

/-!
# Listing nodes

What `Dag.ofNodes` does to a list of nodes: it keeps everything but the kind of a choice that has a
hidden branch. Whether a node that is already settled is written as an assertion or as a choice
makes no difference, so a list of settled nodes can be taken apart, its assertions forgotten, and
listed again with the same result. A pass over listed nodes makes each result from the results of the
children.
-/

namespace Simplicity

theorem exists_ok_of_bind {ε α β : Type} {first : Except ε α} {following : α → Except ε β}
    {result : β} (succeeds : first >>= following = .ok result) :
    ∃ value, first = .ok value ∧ following value = .ok result := by
  cases first with
  | error error => cases succeeds
  | ok value => exact ⟨value, rfl, succeeds⟩

theorem error_or_exists_ok_of_bind {ε α β : Type} {first : Except ε α}
    {following : α → Except ε β} {error : ε} (fails : first >>= following = .error error) :
    first = .error error ∨ ∃ value, first = .ok value ∧ following value = .error error := by
  cases first with
  | error cause =>
      cases fails
      exact .inl rfl
  | ok value => exact .inr ⟨value, rfl, fails⟩

namespace Combinator

variable {ρ : Type}

/-- The combinator with an assertion as the choice that it was pruned from. -/
def asChoice : Combinator ρ → Combinator ρ
  | .assertl left right | .assertr left right => .case left right
  | node => node

@[simp]
theorem children_asChoice (node : Combinator ρ) : node.asChoice.children = node.children := by
  cases node <;> rfl

@[simp]
theorem asChoice_asChoice (node : Combinator ρ) : node.asChoice.asChoice = node.asChoice := by
  cases node <;> rfl

theorem asChoice_assertVisible (hidden : ρ → Bool) (node : Combinator ρ) :
    (node.assertVisible hidden).asChoice = node.asChoice := by
  cases node with
  | case left right =>
      simp only [assertVisible]
      split
      · rfl
      · split <;> rfl
  | _ => rfl

theorem hidden_eq_false_of_settled {hidden : ρ → Bool} {node : Combinator ρ}
    (settled : node.settled hidden = true) (plain : node.asChoice = node) {child : ρ}
    (member : child ∈ node.children) : hidden child = false := by
  have visible : (!node.children.any hidden) = true := by
    cases node with
    | assertl left right => cases plain
    | assertr left right => cases plain
    | _ => exact settled
  simp only [Bool.not_eq_true', List.any_eq_false, Bool.not_eq_true] at visible
  exact visible child member

theorem assertVisible_of_settled {hidden : ρ → Bool} {node : Combinator ρ}
    (settled : node.settled hidden = true) : node.assertVisible hidden = node := by
  cases node with
  | case left right =>
      have visible := @hidden_eq_false_of_settled _ _ _ settled rfl
      simp [assertVisible, visible (.head _), visible (.tail _ (.head _))]
  | _ => rfl

theorem assertVisible_asChoice_of_settled {hidden : ρ → Bool} {node : Combinator ρ}
    (settled : node.settled hidden = true) : node.asChoice.assertVisible hidden = node := by
  cases node with
  | assertl left right =>
      simp only [Combinator.settled, Bool.and_eq_true] at settled
      simp [asChoice, assertVisible, settled.2]
  | assertr left right =>
      simp only [Combinator.settled, Bool.and_eq_true, Bool.not_eq_true'] at settled
      simp [asChoice, assertVisible, settled.1, settled.2]
  | case left right => exact assertVisible_of_settled settled
  | _ => rfl

/-- A settled node is what it is settled as, also after its assertion has been forgotten. -/
theorem settle?_of_settled {hidden : ρ → Bool} {raw node : Combinator ρ}
    (settled : node.settled hidden = true) (same : raw = node ∨ raw = node.asChoice) :
    raw.settle? hidden = some node := by
  have asserted : raw.assertVisible hidden = node := by
    rcases same with rfl | rfl
    · exact assertVisible_of_settled settled
    · exact assertVisible_asChoice_of_settled settled
  simp only [settle?, asserted, settled, if_true]

theorem settle?_congr {hidden hidden' : ρ → Bool} {node : Combinator ρ}
    (agree : ∀ child ∈ node.children, hidden child = hidden' child) :
    node.settle? hidden = node.settle? hidden' := by
  have same : node.assertVisible hidden = node.assertVisible hidden' := by
    cases node with
    | case left right =>
        simp [assertVisible, agree left (.head _), agree right (.tail _ (.head _))]
    | _ => rfl
  have agreeSettled : ∀ child ∈ (node.assertVisible hidden').children,
      hidden child = hidden' child := by
    rw [children_assertVisible]
    exact agree
  simp only [settle?, same, settled_congr agreeSettled]

theorem settled_map {σ : Type} {hidden : σ → Bool} {f : ρ → σ} {node : Combinator ρ} :
    (node.map f).settled hidden = node.settled fun child => hidden (f child) := by
  cases node <;> simp [settled, map, mapMem, children]

theorem settle?_map {σ : Type} {hidden : σ → Bool} {f : ρ → σ} {node : Combinator ρ} :
    (node.map f).settle? hidden =
      (node.settle? fun child => hidden (f child)).map fun settled => settled.map f := by
  have same : (node.map f).assertVisible hidden =
      (node.assertVisible fun child => hidden (f child)).map f := by
    cases node with
    | case left right =>
        simp only [assertVisible, apply_ite (Combinator.map f)]
        rfl
    | _ => rfl
  simp only [settle?, same, settled_map]
  split <;> rfl

end Combinator

namespace Dag

theorem ext_nodes {left right : Dag} (same : left.nodes = right.nodes) : left = right := by
  cases left
  cases right
  cases same
  rfl

theorem hiddenAt_of_toList_eq {nodes nodes' : Array Node} {added : List Node} {index : Nat}
    (listed : nodes'.toList = nodes.toList ++ added) (inside : index < nodes.size) :
    hiddenAt nodes' index = hiddenAt nodes index := by
  rw [hiddenAt, hiddenAt, ← Array.getElem?_toList, listed,
    List.getElem?_append_left (by simpa using inside), Array.getElem?_toList]

/-- A node is added as what it is settled as, which has its children before it. -/
theorem add_eq_ok_iff {dag result : Dag} {node : Node} :
    dag.add node = .ok result ↔
      ∃ settled, node.settle? (hiddenAt dag.nodes) = some settled ∧
        result.nodes = dag.nodes.push settled := by
  unfold add
  constructor
  · intro adds
    split at adds
    case isTrue earlier =>
      split at adds
      case h_1 settled settles =>
        cases adds
        exact ⟨settled, settles, rfl⟩
      case h_2 => cases adds
    case isFalse => cases adds
  · rintro ⟨settled, settles, pushed⟩
    have inside : dag.nodes.size < result.nodes.size := by
      rw [pushed, Array.size_push]
      exact Nat.lt_succ_self _
    have last : result.nodes[dag.nodes.size] = settled := by
      simp [pushed]
    have earlier : ∀ child ∈ node.children, child < dag.nodes.size := by
      intro child member
      apply result.backward _ inside
      rw [last, Combinator.children_of_settle? settles]
      exact member
    rw [dif_pos earlier]
    split
    case h_1 found finds =>
      rw [settles] at finds
      cases finds
      congr 1
      apply ext_nodes
      rw [pushed]
      rfl
    case h_2 fails =>
      rw [settles] at fails
      cases fails

theorem backward_extract (dag : Dag) (count : Nat) :
    ∀ index (inside : index < (dag.nodes.extract 0 count).size),
      ∀ child ∈ ((dag.nodes.extract 0 count)[index]).children, child < index := by
  intro index inside child member
  simp only [Array.size_extract] at inside
  simp only [Array.getElem_extract, Nat.zero_add] at member
  exact dag.backward index (by omega) child member

theorem settled_extract (dag : Dag) (count : Nat) :
    ∀ index (inside : index < (dag.nodes.extract 0 count).size),
      ((dag.nodes.extract 0 count)[index]).settled (hiddenAt (dag.nodes.extract 0 count)) =
        true := by
  intro index inside
  simp only [Array.size_extract] at inside
  have within : index < dag.nodes.size := by omega
  simp only [Array.getElem_extract, Nat.zero_add]
  rw [← dag.settled index within]
  apply Combinator.settled_congr
  intro child member
  have earlier := dag.backward index within child member
  rw [hiddenAt, hiddenAt, Array.getElem?_extract, if_pos (by omega), Nat.zero_add]

/-- The nodes before an index, which do not refer to any others. -/
def take (dag : Dag) (count : Nat) : Dag :=
  ⟨dag.nodes.extract 0 count, dag.backward_extract count, dag.settled_extract count⟩

/-- Nodes are listed one after another as what they are settled as. Which of them are hidden can be
read off the whole list, since a node has its children before it. -/
theorem foldlM_add_eq_ok_iff {nodes : List Node} {start dag : Dag} :
    nodes.foldlM add start = .ok dag ↔
      ∃ added, dag.nodes.toList = start.nodes.toList ++ added ∧
        List.Forall₂ (fun node settled => node.settle? (hiddenAt dag.nodes) = some settled)
          nodes added := by
  induction nodes generalizing start with
  | nil =>
      simp only [List.forall₂_nil_left_iff, exists_eq_right, List.append_nil]
      constructor
      · intro lists
        cases lists
        rfl
      · intro listed
        rw [ext_nodes (Array.toList_inj.mp listed)]
        rfl
  | cons node rest ih =>
      have agree : ∀ {settled added}, dag.nodes.toList = start.nodes.toList ++ settled :: added →
          settled.children = node.children →
            node.settle? (hiddenAt dag.nodes) = node.settle? (hiddenAt start.nodes) := by
        intro settled added listed sameChildren
        apply Combinator.settle?_congr
        intro child member
        have found : dag.nodes[start.nodes.size]? = some settled := by
          rw [← Array.getElem?_toList, listed]
          simp
        rcases Array.getElem?_eq_some_iff.mp found with ⟨inside, isSettled⟩
        apply hiddenAt_of_toList_eq listed
        apply dag.backward _ inside
        rwa [isSettled, sameChildren]
      rw [List.foldlM_cons]
      constructor
      · intro lists
        rcases exists_ok_of_bind lists with ⟨next, adds, listsRest⟩
        rcases add_eq_ok_iff.mp adds with ⟨settled, settles, pushed⟩
        rcases ih.mp listsRest with ⟨added, listed, settleRest⟩
        have listed' : dag.nodes.toList = start.nodes.toList ++ settled :: added := by
          rw [listed, pushed]
          simp
        refine ⟨settled :: added, listed', .cons ?_ settleRest⟩
        rw [agree listed' (Combinator.children_of_settle? settles), settles]
      · rintro ⟨settledNodes, listed, settleAll⟩
        rcases List.forall₂_cons_left_iff.mp settleAll with
          ⟨settled, added, settles, settleRest, rfl⟩
        rw [agree listed (Combinator.children_of_settle? settles)] at settles
        have pushed : (dag.take (start.nodes.size + 1)).nodes = start.nodes.push settled := by
          apply Array.toList_inj.mp
          rw [take, Array.toList_extract, listed, List.extract_eq_take_drop]
          simp [List.take_append, List.take_of_length_le]
        rw [add_eq_ok_iff.mpr ⟨settled, settles, pushed⟩]
        apply ih.mpr
        refine ⟨added, ?_, settleRest⟩
        rw [listed, pushed]
        simp

theorem ofNodes_eq_ok_iff {nodes : Array Node} {dag : Dag} :
    ofNodes nodes = .ok dag ↔
      List.Forall₂ (fun node settled => node.settle? (hiddenAt dag.nodes) = some settled)
        nodes.toList dag.nodes.toList := by
  rw [ofNodes, foldlM_add_eq_ok_iff]
  simp [empty]

theorem asChoice_of_ofNodes {nodes : Array Node} {dag : Dag} (lists : ofNodes nodes = .ok dag) :
    dag.nodes.toList.map Combinator.asChoice = nodes.toList.map Combinator.asChoice := by
  symm
  rw [← List.forall₂_eq_eq_eq, List.forall₂_map_left_iff, List.forall₂_map_right_iff]
  apply (ofNodes_eq_ok_iff.mp lists).imp
  intro node settled settles
  rw [(Combinator.settle?_eq_some settles).1, Combinator.asChoice_assertVisible]

theorem ofNodes_map (dag : Dag) {forget : Node → Node}
    (harmless : ∀ node, forget node = node ∨ forget node = node.asChoice) :
    ofNodes (dag.nodes.map forget) = .ok dag := by
  rw [ofNodes_eq_ok_iff, Array.toList_map, List.forall₂_map_left_iff, List.forall₂_same]
  intro node member
  rcases List.mem_iff_getElem.mp member with ⟨index, inside, rfl⟩
  exact Combinator.settle?_of_settled (dag.settled index inside) (harmless _)

section Scan

variable {ε α : Type} {dag : Dag} [Inhabited α]

/-- The result at an index. -/
def resultAt {size : Nat} (results : Vector α size) (index : Nat) : α :=
  results.toArray.getD index default

theorem resultAt_eq {size : Nat} (results : Vector α size) {index : Nat}
    (inside : index < size) : resultAt results index = results[index] := by
  simp [resultAt, inside]

theorem scanFrom_eq_ok
    {step : (index : Fin dag.nodes.size) → Combinator (Nat × α) → Except ε α}
    {remaining index : Nat} {total : index + remaining = dag.nodes.size} {results : Vector α index}
    {final : Vector α dag.nodes.size}
    (ran : dag.scanFrom step remaining index total results = .ok final) :
    (∀ earlier < index, resultAt final earlier = resultAt results earlier) ∧
      ∀ later (inside : later < dag.nodes.size), index ≤ later →
        step ⟨later, inside⟩ ((dag.nodes[later]).map fun child => (child, resultAt final child)) =
          .ok (resultAt final later) := by
  induction remaining generalizing index with
  | zero =>
      simp only [scanFrom, Except.ok.injEq] at ran
      subst ran
      constructor
      · intro earlier _
        simp [resultAt]
      · intro later inside le
        omega
  | succ remaining ih =>
      have inside : index < dag.nodes.size := by omega
      rw [scanFrom] at ran
      split at ran
      case h_1 => cases ran
      case h_2 result stepped =>
        rcases ih ran with ⟨kept, followed⟩
        have pushed : resultAt final index = result := by
          rw [kept index (Nat.lt_succ_self _), resultAt_eq _ (Nat.lt_succ_self _)]
          simp
        have keptOld : ∀ earlier < index, resultAt final earlier = resultAt results earlier := by
          intro earlier old
          rw [kept earlier (Nat.lt_succ_of_lt old), resultAt_eq _ (Nat.lt_succ_of_lt old),
            resultAt_eq _ old, Vector.getElem_push_lt old]
        refine ⟨keptOld, ?_⟩
        intro later insideLater le
        rcases Nat.eq_or_lt_of_le le with rfl | lt
        · rw [pushed, ← stepped]
          congr 1
          symm
          apply Combinator.mapMem_eq_map
          intro child member
          have earlier := dag.backward index inside child member
          rw [keptOld child earlier, resultAt_eq]
        · exact followed later insideLater lt

/-- A pass computes each result from the results of the children. -/
theorem scan_eq_ok {step : (index : Fin dag.nodes.size) → Combinator (Nat × α) → Except ε α}
    {results : Vector α dag.nodes.size} (ran : dag.scan step = .ok results) {index : Nat}
    (inside : index < dag.nodes.size) :
    step ⟨index, inside⟩ ((dag.nodes[index]).map fun child => (child, resultAt results child)) =
      .ok (resultAt results index) :=
  (scanFrom_eq_ok ran).2 index inside (Nat.zero_le _)

theorem exists_scanFrom_eq_ok
    {step : (index : Fin dag.nodes.size) → Combinator (Nat × α) → Except ε α}
    (succeeds : ∀ (index : Fin dag.nodes.size) (results : Nat → α), ∃ result,
      step index ((dag.nodes[index]).map fun child => (child, results child)) = .ok result)
    {remaining index : Nat} {total : index + remaining = dag.nodes.size}
    {results : Vector α index} :
    ∃ final, dag.scanFrom step remaining index total results = .ok final := by
  induction remaining generalizing index with
  | zero => exact ⟨_, rfl⟩
  | succ remaining ih =>
      have inside : index < dag.nodes.size := by omega
      have atChildren : ((dag.nodes[index]).mapMem fun child member =>
          have := dag.backward index inside child member
          (child, results[child])) =
            (dag.nodes[index]).map fun child => (child, resultAt results child) := by
        apply Combinator.mapMem_eq_map
        intro child member
        rw [resultAt_eq _ (dag.backward index inside child member)]
      rcases succeeds ⟨index, inside⟩ (resultAt results) with ⟨result, stepped⟩
      rw [scanFrom, atChildren]
      simp only [Fin.getElem_fin] at stepped
      rw [stepped]
      exact ih

/-- A pass in which no step can fail gives results. -/
theorem exists_scan_eq_ok
    {step : (index : Fin dag.nodes.size) → Combinator (Nat × α) → Except ε α}
    (succeeds : ∀ (index : Fin dag.nodes.size) (results : Nat → α), ∃ result,
      step index ((dag.nodes[index]).map fun child => (child, results child)) = .ok result) :
    ∃ results, dag.scan step = .ok results :=
  exists_scanFrom_eq_ok succeeds

omit [Inhabited α] in
theorem scan_eq_fold (step : Combinator α → α) :
    dag.scan (fun _ node => (.ok (step (node.map Prod.snd)) : Except Empty α)) =
      .ok (dag.fold step) := by
  rw [fold]
  split
  case h_1 results ran => exact ran
  case h_2 error _ => exact error.elim

theorem resultAt_fold {step : Combinator α → α} {index : Nat} (inside : index < dag.nodes.size) :
    resultAt (dag.fold step) index = step ((dag.nodes[index]).map (resultAt (dag.fold step))) := by
  have stepped := scan_eq_ok (scan_eq_fold step) inside
  rw [Combinator.map_map] at stepped
  exact (Except.ok.inj stepped).symm

end Scan

end Dag

namespace Expression

/-- What is known of an expression besides its nodes follows from its nodes. -/
theorem ext_dag {left right : Expression} (same : left.dag = right.dag) : left = right := by
  rcases left with ⟨dag, arrows, nonempty, visible, ordered, typed⟩
  rcases right with ⟨dag', arrows', nonempty', visible', ordered', typed'⟩
  cases same
  rw [typed] at typed'
  cases typed'
  rfl

theorem ofDag_eq_ok {dag : Dag} {nonempty : 0 < dag.size}
    {visible : hiddenAt dag.nodes (dag.size - 1) = false} {expression : Expression}
    (succeeds : ofDag dag nonempty visible = .ok expression) : expression.dag = dag := by
  unfold ofDag at succeeds
  split at succeeds
  case h_1 => cases succeeds
  case h_2 ordered =>
    split at succeeds
    case h_1 => cases succeeds
    case h_2 arrows typed =>
      cases succeeds
      rfl

theorem ofDag_dag (expression : Expression) :
    ofDag expression.dag expression.nonempty expression.visible = .ok expression := by
  unfold ofDag
  split
  case h_1 error failed =>
    rw [expression.ordered] at failed
    cases failed
  case h_2 =>
    split
    case h_1 error failed =>
      rw [expression.typed] at failed
      cases failed
    case h_2 arrows typed =>
      congr 1
      exact ext_dag rfl

/-- Nodes make an expression exactly when they are listed as its nodes. -/
theorem ofNodes_eq_ok_iff (nodes : Array Node) (expression : Expression) :
    ofNodes nodes = .ok expression ↔ Dag.ofNodes nodes = .ok expression.dag := by
  unfold ofNodes
  cases lists : Dag.ofNodes nodes with
  | error error =>
      constructor
      · intro impossible
        cases impossible
      · intro impossible
        cases impossible
  | ok dag =>
      change (if nonempty : 0 < dag.size then
        if visible : hiddenAt dag.nodes (dag.size - 1) = false then ofDag dag nonempty visible
        else throw .hiddenRoot
        else throw .emptyProgram) = _ ↔ _
      constructor
      · intro succeeds
        split at succeeds
        case isTrue nonempty =>
          split at succeeds
          case isTrue visible => rw [ofDag_eq_ok succeeds]
          case isFalse => cases succeeds
        case isFalse => cases succeeds
      · intro same
        cases same
        rw [dif_pos expression.nonempty, dif_pos expression.visible]
        exact ofDag_dag expression

theorem mem_witnessNodes_iff (expression : Expression) (index : Nat) :
    index ∈ expression.witnessNodes ↔ expression.nodes[index]? = some .witness := by
  simp only [witnessNodes, List.mem_filter, List.mem_range, node?, Option.any_eq_true]
  constructor
  · rintro ⟨-, node, isNode, isWitness⟩
    cases node with
    | witness => exact isNode
    | _ => cases isWitness
  · intro isNode
    exact ⟨(Array.getElem?_eq_some_iff.mp isNode).1, .witness, isNode, rfl⟩

end Expression

end Simplicity
