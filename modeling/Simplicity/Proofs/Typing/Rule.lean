import Simplicity.Proofs.Dag
import Simplicity.Proofs.Typing.Equation
import Simplicity.Proofs.Typing.Solution

/-!
# Typing rules

`Combinator.HasType` states the typing rules of combinators, and `WellTyped` that the arrows of a
list of nodes follow them. Both say what a typing is without regard to how one is found.

The equations of a rule say the same as the rule:

* whoever satisfies the equations, and can be read as types at the ends of a node and of its
  children, has read off arrows that follow the rule;
* whenever arrows follow the rule, the variables that the rule adds can be assigned types that
  satisfy its equations.
-/

namespace Simplicity

/-- The typing rules: the arrow of a combinator, given those of its children. A hidden child has
none, and a pruned branch is not constrained. -/
inductive Combinator.HasType : Combinator (Option Arrow) → Arrow → Prop where
  | iden {a : Ty} : HasType .iden ⟨a, a⟩
  | unit {a : Ty} : HasType .unit ⟨a, .unit⟩
  | injl {a b c : Ty} : HasType (.injl (some ⟨a, b⟩)) ⟨a, .sum b c⟩
  | injr {a b c : Ty} : HasType (.injr (some ⟨a, c⟩)) ⟨a, .sum b c⟩
  | take {a b c : Ty} : HasType (.take (some ⟨a, c⟩)) ⟨.prod a b, c⟩
  | drop {a b c : Ty} : HasType (.drop (some ⟨b, c⟩)) ⟨.prod a b, c⟩
  | comp {a b c : Ty} : HasType (.comp (some ⟨a, b⟩) (some ⟨b, c⟩)) ⟨a, c⟩
  | case {a b c d : Ty} :
      HasType (.case (some ⟨.prod a c, d⟩) (some ⟨.prod b c, d⟩)) ⟨.prod (.sum a b) c, d⟩
  | assertl {a b c d : Ty} {pruned : Option Arrow} :
      HasType (.assertl (some ⟨.prod a c, d⟩) pruned) ⟨.prod (.sum a b) c, d⟩
  | assertr {a b c d : Ty} {pruned : Option Arrow} :
      HasType (.assertr pruned (some ⟨.prod b c, d⟩)) ⟨.prod (.sum a b) c, d⟩
  | pair {a b c : Ty} : HasType (.pair (some ⟨a, b⟩) (some ⟨a, c⟩)) ⟨a, .prod b c⟩
  | disconnect {a b c d : Ty} :
      HasType (.disconnect (some ⟨.prod .word256 a, .prod b c⟩) (some ⟨c, d⟩)) ⟨a, .prod b d⟩
  | witness {arrow : Arrow} : HasType .witness arrow

/-- The arrow at an index; a hidden node has none. -/
def arrowAt (arrows : Array (Option Arrow)) (index : Nat) : Option Arrow :=
  arrows.getD index none

/-- Arrows for all nodes of a list but the hidden ones, by which the root is `1 ⊢ 1` and every node
follows the typing rule of its combinator. -/
structure WellTyped (nodes : Array Node) (arrows : Array (Option Arrow)) : Prop where
  size_eq : arrows.size = nodes.size
  hidden_iff : ∀ index < nodes.size, arrowAt arrows index = none ↔ hiddenAt nodes index = true
  root_eq : arrows.back? = some (some ⟨.unit, .unit⟩)
  rule : ∀ index (inside : index < nodes.size) (arrow : Arrow),
    arrowAt arrows index = some arrow → ((nodes[index]).map (arrowAt arrows)).HasType arrow

namespace Typing

section Reading

variable {T : Type} {frame : Frame T} {Reads : T → Ty → Prop} {value : Var → T}

theorem reads_bind_sum (reading : frame.Reading Reads) {var shaped left right : Nat} {ty : Ty}
    (satisfies : frame.Satisfies value (Equation.bind var (.sum left right) shaped))
    (reads : Reads (value var) ty) :
    ∃ leftTy rightTy, ty = .sum leftTy rightTy ∧ Reads (value left) leftTy ∧
      Reads (value right) rightTy := by
  simp only [Equation.bind, satisfies_cons, Equation.Holds, Frame.Fits] at satisfies
  rw [satisfies.2.1] at reads
  exact reading.sum satisfies.1 reads

theorem reads_bind_prod (reading : frame.Reading Reads) {var shaped left right : Nat} {ty : Ty}
    (satisfies : frame.Satisfies value (Equation.bind var (.prod left right) shaped))
    (reads : Reads (value var) ty) :
    ∃ leftTy rightTy, ty = .prod leftTy rightTy ∧ Reads (value left) leftTy ∧
      Reads (value right) rightTy := by
  simp only [Equation.bind, satisfies_cons, Equation.Holds, Frame.Fits] at satisfies
  rw [satisfies.2.1] at reads
  exact reading.prod satisfies.1 reads

theorem reads_bind_unit (reading : frame.Reading Reads) {var shaped : Nat} {ty : Ty}
    (satisfies : frame.Satisfies value (Equation.bind var .unit shaped))
    (reads : Reads (value var) ty) : ty = .unit := by
  simp only [Equation.bind, satisfies_cons, Equation.Holds, Frame.Fits] at satisfies
  rw [satisfies.2.1] at reads
  exact reading.unit satisfies.1 reads

theorem reads_same (reading : frame.Reading Reads) {left right : Nat} {leftTy rightTy : Ty}
    (same : value left = value right) (readsLeft : Reads (value left) leftTy)
    (readsRight : Reads (value right) rightTy) : leftTy = rightTy := by
  rw [same] at readsLeft
  exact reading.unique readsLeft readsRight

theorem reads_doublings (reading : frame.Reading Reads) {times level word : Nat}
    (satisfies : frame.Satisfies value (doublings times word (word + 1)))
    (start : ∀ {ty}, Reads (value word) ty → ty = Ty.word level) {ty : Ty}
    (reads : Reads (value (word + times)) ty) : ty = Ty.word (level + times) := by
  induction times generalizing level word with
  | zero => exact start reads
  | succ times ih =>
      rw [doublings, satisfies_cons] at satisfies
      rw [show word + (times + 1) = word + 1 + times by omega] at reads
      rw [show level + (times + 1) = level + 1 + times by omega]
      apply ih satisfies.2 _ reads
      intro doubled readsDoubled
      rcases reading.prod satisfies.1 readsDoubled with
        ⟨leftTy, rightTy, rfl, readsLeft, readsRight⟩
      rw [start readsLeft, start readsRight]
      rfl

/-- The variable that is made for 256-bit words can be read as nothing else. -/
theorem reads_wordEquations (reading : frame.Reading Reads) {next : Nat}
    (satisfies : frame.Satisfies value (wordEquations next)) {ty : Ty}
    (reads : Reads (value (next + 9)) ty) : ty = .word256 := by
  simp only [wordEquations, satisfies_cons] at satisfies
  rcases satisfies with ⟨isUnit, isBit, doubles⟩
  have start : ∀ {bit}, Reads (value (next + 1)) bit → bit = Ty.word 0 := by
    intro bit readsBit
    rcases reading.sum isBit readsBit with ⟨leftTy, rightTy, rfl, readsLeft, readsRight⟩
    rw [reading.unit isUnit readsLeft, reading.unit isUnit readsRight]
    rfl
  exact reads_doublings reading doubles start reads

variable {own : Ends}

theorem reads_choiceEquations (reading : frame.Reading Reads) {next : Nat} {ty : Ty}
    (satisfies : frame.Satisfies value (choiceEquations own next))
    (reads : Reads (value own.source) ty) :
    ∃ a b c, ty = .prod (.sum a b) c ∧ Reads (value next) a ∧ Reads (value (next + 1)) b ∧
      Reads (value (next + 2)) c := by
  rw [choiceEquations, satisfies_cons] at satisfies
  rcases satisfies with ⟨isSum, isProd⟩
  rcases reads_bind_prod reading isProd reads with ⟨sumTy, c, rfl, readsSum, readsContext⟩
  rcases reading.sum isSum readsSum with ⟨a, b, rfl, readsLeft, readsRight⟩
  exact ⟨a, b, c, rfl, readsLeft, readsRight, readsContext⟩

/-- The ends of a node are read as the source and the target of an arrow. -/
def ReadsArrow (Reads : T → Ty → Prop) (value : Var → T) (ends : Ends) (arrow : Arrow) : Prop :=
  Reads (value ends.source) arrow.source ∧ Reads (value ends.target) arrow.target

theorem reads_branchEquations (reading : frame.Reading Reads) {component context shaped : Nat}
    {child : Ends} {a c d : Ty} {arrow : Arrow}
    (satisfies : frame.Satisfies value (branchEquations own component context shaped child))
    (readsComponent : Reads (value component) a) (readsContext : Reads (value context) c)
    (readsTarget : Reads (value own.target) d) (readsChild : ReadsArrow Reads value child arrow) :
    arrow = ⟨.prod a c, d⟩ := by
  simp only [branchEquations, satisfies_append, satisfies_cons, Equation.Holds] at satisfies
  rcases arrow with ⟨source, target⟩
  rcases satisfies with ⟨isProd, same, -⟩
  rcases reads_bind_prod reading isProd readsChild.1 with
    ⟨a', c', rfl, readsComponent', readsContext'⟩
  rw [reading.unique readsComponent' readsComponent, reading.unique readsContext' readsContext,
    reads_same reading same readsTarget readsChild.2]

/-- Whatever can be read as types at the ends of a node and of its children follows the rule of the
node, if it satisfies the equations of that rule. -/
theorem hasType_of_satisfies (reading : frame.Reading Reads) {frontier : Frontier} {node : Node}
    {ends : Nat → Ends} {arrows : Nat → Option Arrow} {arrow : Arrow}
    (satisfies : frame.Satisfies value (ruleEquations own frontier (node.map ends)).1)
    (isWord : ∀ word, frontier.word = some word → ∀ {ty}, Reads (value word) ty → ty = .word256)
    (readsOwn : ReadsArrow Reads value own arrow)
    (readsChild : ∀ child arrow, arrows child = some arrow →
      ReadsArrow Reads value (ends child) arrow)
    (visible : node.isHidden = false)
    (settled : node.settled (fun child => (arrows child).isNone) = true) :
    (node.map arrows).HasType arrow := by
  rcases arrow with ⟨source, target⟩
  have readsSource : Reads (value own.source) source := readsOwn.1
  have readsTarget : Reads (value own.target) target := readsOwn.2
  have child_eq : ∀ {child}, (arrows child).isNone = false → ∃ childSource childTarget,
      arrows child = some ⟨childSource, childTarget⟩ ∧
        Reads (value (ends child).source) childSource ∧
        Reads (value (ends child).target) childTarget := by
    intro child present
    cases found : arrows child with
    | none => simp [found] at present
    | some arrow => exact ⟨arrow.source, arrow.target, rfl, readsChild child arrow found⟩
  have visibleChild := @Combinator.hidden_eq_false_of_settled _ _ _ settled
  simp only [Combinator.map] at satisfies ⊢
  cases node with
  | iden =>
      simp only [Combinator.mapMem, ruleEquations, satisfies_cons, Equation.Holds] at satisfies ⊢
      have same : source = target := reads_same reading satisfies.1 readsSource readsTarget
      rw [same]
      exact .iden
  | unit =>
      have same : target = .unit := reads_bind_unit reading satisfies readsTarget
      rw [same]
      exact .unit
  | injl child =>
      rcases child_eq (visibleChild rfl (.head _)) with
        ⟨childSource, childTarget, found, readsChildSource, readsChildTarget⟩
      simp only [Combinator.mapMem, ruleEquations, satisfies_cons, Equation.Holds] at satisfies ⊢
      have sameSource : source = childSource :=
        reads_same reading satisfies.1 readsSource readsChildSource
      rcases reads_bind_sum reading satisfies.2 readsTarget with ⟨b, c, rfl, readsLeft, -⟩
      rw [found, sameSource, reading.unique readsLeft readsChildTarget]
      exact .injl
  | injr child =>
      rcases child_eq (visibleChild rfl (.head _)) with
        ⟨childSource, childTarget, found, readsChildSource, readsChildTarget⟩
      simp only [Combinator.mapMem, ruleEquations, satisfies_cons, Equation.Holds] at satisfies ⊢
      have sameSource : source = childSource :=
        reads_same reading satisfies.1 readsSource readsChildSource
      rcases reads_bind_sum reading satisfies.2 readsTarget with ⟨b, c, rfl, -, readsRight⟩
      rw [found, sameSource, reading.unique readsRight readsChildTarget]
      exact .injr
  | take child =>
      rcases child_eq (visibleChild rfl (.head _)) with
        ⟨childSource, childTarget, found, readsChildSource, readsChildTarget⟩
      simp only [Combinator.mapMem, ruleEquations, satisfies_append, satisfies_cons,
        Equation.Holds] at satisfies ⊢
      have sameTarget : target = childTarget :=
        reads_same reading satisfies.2.1 readsTarget readsChildTarget
      rcases reads_bind_prod reading satisfies.1 readsSource with ⟨a, b, rfl, readsLeft, -⟩
      rw [found, sameTarget, reading.unique readsLeft readsChildSource]
      exact .take
  | drop child =>
      rcases child_eq (visibleChild rfl (.head _)) with
        ⟨childSource, childTarget, found, readsChildSource, readsChildTarget⟩
      simp only [Combinator.mapMem, ruleEquations, satisfies_append, satisfies_cons,
        Equation.Holds] at satisfies ⊢
      have sameTarget : target = childTarget :=
        reads_same reading satisfies.2.1 readsTarget readsChildTarget
      rcases reads_bind_prod reading satisfies.1 readsSource with ⟨a, b, rfl, -, readsRight⟩
      rw [found, sameTarget, reading.unique readsRight readsChildSource]
      exact .drop
  | comp left right =>
      rcases child_eq (visibleChild rfl (.head _)) with
        ⟨leftSource, leftTarget, foundLeft, readsLeftSource, readsLeftTarget⟩
      rcases child_eq (visibleChild rfl (.tail _ (.head _))) with
        ⟨rightSource, rightTarget, foundRight, readsRightSource, readsRightTarget⟩
      simp only [Combinator.mapMem, ruleEquations, satisfies_cons, Equation.Holds] at satisfies ⊢
      have sameSource : source = leftSource :=
        reads_same reading satisfies.1 readsSource readsLeftSource
      have sameMiddle : leftTarget = rightSource :=
        reads_same reading satisfies.2.1 readsLeftTarget readsRightSource
      have sameTarget : target = rightTarget :=
        reads_same reading satisfies.2.2.1 readsTarget readsRightTarget
      rw [foundLeft, foundRight, sameSource, sameMiddle, sameTarget]
      exact .comp
  | pair left right =>
      rcases child_eq (visibleChild rfl (.head _)) with
        ⟨leftSource, leftTarget, foundLeft, readsLeftSource, readsLeftTarget⟩
      rcases child_eq (visibleChild rfl (.tail _ (.head _))) with
        ⟨rightSource, rightTarget, foundRight, readsRightSource, readsRightTarget⟩
      simp only [Combinator.mapMem, ruleEquations, satisfies_cons, Equation.Holds] at satisfies ⊢
      have sameLeft : leftSource = source :=
        (reads_same reading satisfies.1 readsSource readsLeftSource).symm
      have sameRight : rightSource = source :=
        (reads_same reading satisfies.2.1 readsSource readsRightSource).symm
      rcases reads_bind_prod reading satisfies.2.2 readsTarget with
        ⟨b, c, rfl, readsLeft, readsRight⟩
      rw [foundLeft, foundRight, sameLeft, sameRight, reading.unique readsLeft readsLeftTarget,
        reading.unique readsRight readsRightTarget]
      exact .pair
  | case left right =>
      rcases child_eq (visibleChild rfl (.head _)) with
        ⟨leftSource, leftTarget, foundLeft, readsLeft⟩
      rcases child_eq (visibleChild rfl (.tail _ (.head _))) with
        ⟨rightSource, rightTarget, foundRight, readsRight⟩
      simp only [Combinator.mapMem, ruleEquations, satisfies_append] at satisfies ⊢
      rcases reads_choiceEquations reading satisfies.1 readsSource with
        ⟨a, b, c, rfl, readsA, readsB, readsC⟩
      have leftArrow : Arrow.mk leftSource leftTarget = ⟨.prod a c, target⟩ :=
        reads_branchEquations reading satisfies.2.1 readsA readsC readsTarget readsLeft
      have rightArrow : Arrow.mk rightSource rightTarget = ⟨.prod b c, target⟩ :=
        reads_branchEquations reading satisfies.2.2 readsB readsC readsTarget readsRight
      rw [foundLeft, foundRight, leftArrow, rightArrow]
      exact .case
  | assertl left right =>
      simp only [Combinator.settled, Bool.and_eq_true, Bool.not_eq_true'] at settled
      rcases child_eq settled.1 with ⟨leftSource, leftTarget, foundLeft, readsLeft⟩
      simp only [Combinator.mapMem, ruleEquations, satisfies_append] at satisfies ⊢
      rcases reads_choiceEquations reading satisfies.1 readsSource with
        ⟨a, b, c, rfl, readsA, -, readsC⟩
      have leftArrow : Arrow.mk leftSource leftTarget = ⟨.prod a c, target⟩ :=
        reads_branchEquations reading satisfies.2 readsA readsC readsTarget readsLeft
      rw [foundLeft, leftArrow]
      exact .assertl
  | assertr left right =>
      simp only [Combinator.settled, Bool.and_eq_true, Bool.not_eq_true'] at settled
      rcases child_eq settled.2 with ⟨rightSource, rightTarget, foundRight, readsRight⟩
      simp only [Combinator.mapMem, ruleEquations, satisfies_append] at satisfies ⊢
      rcases reads_choiceEquations reading satisfies.1 readsSource with
        ⟨a, b, c, rfl, -, readsB, readsC⟩
      have rightArrow : Arrow.mk rightSource rightTarget = ⟨.prod b c, target⟩ :=
        reads_branchEquations reading satisfies.2 readsB readsC readsTarget readsRight
      rw [foundRight, rightArrow]
      exact .assertr
  | disconnect left right =>
      rcases child_eq (visibleChild rfl (.head _)) with
        ⟨leftSource, leftTarget, foundLeft, readsLeft⟩
      rcases child_eq (visibleChild rfl (.tail _ (.head _))) with
        ⟨rightSource, rightTarget, foundRight, readsRight⟩
      -- The variable of words is an older one or has just been made; it is read the same way.
      obtain ⟨word, next, isWord, delegates⟩ : ∃ word next,
          (∀ {ty}, Reads (value word) ty → ty = .word256) ∧
            frame.Satisfies value
              (disconnectEquations own word next (ends left) (ends right)) := by
        simp only [Combinator.mapMem, ruleEquations] at satisfies
        split at satisfies
        case h_1 word known => exact ⟨word, frontier.next, isWord word known, satisfies⟩
        case h_2 =>
          rw [satisfies_append] at satisfies
          exact ⟨frontier.next + 9, frontier.next + 10, reads_wordEquations reading satisfies.1,
            satisfies.2⟩
      simp only [disconnectEquations, satisfies_append] at delegates
      rcases delegates with ⟨isSource, isLeftTarget, isTarget⟩
      rcases reads_bind_prod reading isSource readsLeft.1 with ⟨w, a, rfl, readsWord, readsA⟩
      rcases reads_bind_prod reading isLeftTarget readsLeft.2 with ⟨b, c, rfl, readsB, readsC⟩
      rcases reads_bind_prod reading isTarget readsTarget with ⟨b', d, rfl, readsB', readsD⟩
      rw [Combinator.mapMem, foundLeft, foundRight, isWord readsWord,
        reading.unique readsA readsSource, reading.unique readsB' readsB,
        reading.unique readsC readsRight.1, reading.unique readsD readsRight.2]
      exact .disconnect
  | witness => exact .witness
  | hidden root => cases visible

end Reading

section Extension

/-- Assigns types to variables from a number on. -/
def extend (value : Var → Ty) (next : Nat) (new : List Ty) (var : Nat) : Ty :=
  if var < next then value var else new.getD (var - next) .unit

variable {value : Var → Ty} {next : Nat} {new : List Ty}

theorem extend_old {var : Nat} (old : var < next) : extend value next new var = value var := by
  rw [extend, if_pos old]

@[simp]
theorem extend_next : extend value next new next = new.getD 0 .unit := by
  simp [extend]

@[simp]
theorem extend_add (count : Nat) : extend value next new (next + count) = new.getD count .unit := by
  simp [extend]

theorem readsArrow_congr {value value' : Var → Ty} {ends : Ends} {arrow : Arrow} {size : Nat}
    (agree : ∀ var < size, value' var = value var) (within : ends.Within size)
    (reads : ReadsArrow (· = ·) value ends arrow) : ReadsArrow (· = ·) value' ends arrow :=
  ⟨(agree _ within.1).trans reads.1, (agree _ within.2).trans reads.2⟩

theorem satisfies_doublings {times : Nat} (level word : Nat)
    (isWord : ∀ count ≤ times, value (word + count) = Ty.word (level + count)) :
    Frame.types.Satisfies value (doublings times word (word + 1)) := by
  induction times generalizing level word with
  | zero => exact satisfies_nil
  | succ times ih =>
      rw [doublings, satisfies_cons]
      constructor
      · have half := isWord 0 (by omega)
        have doubled := isWord 1 (by omega)
        change value (word + 1) = .prod (value word) (value word)
        rw [doubled, show value word = Ty.word level from half]
        rfl
      · apply ih (level + 1)
        intro count few
        have shifted := isWord (count + 1) (by omega)
        rw [show word + 1 + count = word + (count + 1) by omega, shifted]
        congr 1
        omega

/-- The variables that are made for 256-bit words can be assigned the word types. -/
theorem exists_satisfies_wordEquations (value : Var → Ty) (next : Nat) :
    ∃ value', (∀ var < next, value' var = value var) ∧
      Frame.types.Satisfies value' (wordEquations next) ∧ value' (next + 9) = .word256 := by
  refine ⟨extend value next (.unit :: (List.range 9).map Ty.word), fun _ old => extend_old old, ?_,
    ?_⟩
  · simp only [wordEquations, satisfies_cons]
    refine ⟨?_, ?_, ?_⟩
    · simp [Equation.Holds, Frame.Fits, Frame.types]
    · simp [Equation.Holds, Frame.Fits, Frame.types, Ty.word, Ty.bit]
    · apply satisfies_doublings 0
      intro count few
      rw [show next + 1 + count = next + (count + 1) by omega, extend_add]
      simp [show count < 9 by omega]
  · simp [Ty.word256]

/-- Arrows that follow the delegation rule can be extended to the variables of its equations. -/
theorem exists_satisfies_disconnectEquations {own left right : Ends} {word : Nat} {a b c d : Ty}
    (ownWithin : own.Within next) (leftWithin : left.Within next) (rightWithin : right.Within next)
    (wordInside : word < next) (isWord : value word = .word256)
    (ownArrow : ReadsArrow (· = ·) value own ⟨a, .prod b d⟩)
    (leftArrow : ReadsArrow (· = ·) value left ⟨.prod .word256 a, .prod b c⟩)
    (rightArrow : ReadsArrow (· = ·) value right ⟨c, d⟩) :
    ∃ value', (∀ var < next, value' var = value var) ∧
      Frame.types.Satisfies value' (disconnectEquations own word next left right) := by
  refine ⟨extend value next [.prod .word256 a, b, .prod b c, .prod b d],
    fun _ old => extend_old old, ?_⟩
  simp [disconnectEquations, Equation.bind, Equation.Holds, Frame.Fits, Frame.types,
    extend_old ownWithin.1, extend_old ownWithin.2, extend_old leftWithin.1,
    extend_old leftWithin.2, extend_old rightWithin.1, extend_old rightWithin.2,
    extend_old wordInside, isWord, ownArrow.1, ownArrow.2, leftArrow.1, leftArrow.2, rightArrow.1,
    rightArrow.2]

/-- The delegation rule, whether the variable of words is an older one or has to be made. -/
theorem exists_satisfies_delegation {own left right : Ends} {frontier : Frontier} {a b c d : Ty}
    (valid : frontier.Valid) (ownWithin : own.Within frontier.next)
    (leftWithin : left.Within frontier.next) (rightWithin : right.Within frontier.next)
    (isWord : ∀ word, frontier.word = some word → value word = .word256)
    (ownArrow : ReadsArrow (· = ·) value own ⟨a, .prod b d⟩)
    (leftArrow : ReadsArrow (· = ·) value left ⟨.prod .word256 a, .prod b c⟩)
    (rightArrow : ReadsArrow (· = ·) value right ⟨c, d⟩) :
    ∃ value', (∀ var < frontier.next, value' var = value var) ∧
      Frame.types.Satisfies value' (ruleEquations own frontier (.disconnect left right)).1 := by
  rw [ruleEquations]
  split
  case h_1 word known =>
    exact exists_satisfies_disconnectEquations ownWithin leftWithin rightWithin (valid word known)
      (isWord word known) ownArrow leftArrow rightArrow
  case h_2 =>
    -- First the variables of words are assigned, and then those of the rule.
    rcases exists_satisfies_wordEquations value frontier.next with
      ⟨words, oldWords, satisfiesWords, isWord⟩
    have grows : frontier.next ≤ frontier.next + 10 := Nat.le_add_right _ _
    rcases exists_satisfies_disconnectEquations (ownWithin.mono grows) (leftWithin.mono grows)
        (rightWithin.mono grows) (Nat.lt_succ_self _) isWord
        (readsArrow_congr oldWords ownWithin ownArrow)
        (readsArrow_congr oldWords leftWithin leftArrow)
        (readsArrow_congr oldWords rightWithin rightArrow) with ⟨value', old, satisfies⟩
    refine ⟨value', ?_, satisfies_append.mpr ⟨?_, satisfies⟩⟩
    · intro var inside
      exact (old var (Nat.lt_of_lt_of_le inside grows)).trans (oldWords var inside)
    · rw [satisfies_congr (wordEquations_within (Nat.le_refl _)) old]
      exact satisfiesWords

/-- Arrows that follow the rule of a node can be extended to the variables of its equations. -/
theorem exists_satisfies_of_hasType {own : Ends} {frontier : Frontier} {node : Node}
    {ends : Nat → Ends} {arrows : Nat → Option Arrow} {arrow : Arrow}
    (typed : (node.map arrows).HasType arrow) (valid : frontier.Valid)
    (ownWithin : own.Within frontier.next)
    (childrenWithin : ∀ child ∈ node.children, (ends child).Within frontier.next)
    (isWord : ∀ word, frontier.word = some word → value word = .word256)
    (ownArrow : ReadsArrow (· = ·) value own arrow)
    (childArrow : ∀ child ∈ node.children, ∀ arrow, arrows child = some arrow →
      ReadsArrow (· = ·) value (ends child) arrow) :
    ∃ value', (∀ var < frontier.next, value' var = value var) ∧
      Frame.types.Satisfies value' (ruleEquations own frontier (node.map ends)).1 := by
  have readsOwn : ∀ new, ReadsArrow (· = ·) (extend value frontier.next new) own arrow := by
    intro new
    exact readsArrow_congr (fun _ old => extend_old old) ownWithin ownArrow
  have readsChild : ∀ {child}, child ∈ node.children → ∀ {arrow}, arrows child = some arrow →
      ∀ new, ReadsArrow (· = ·) (extend value frontier.next new) (ends child) arrow := by
    intro child member arrow found new
    exact readsArrow_congr (fun _ old => extend_old old) (childrenWithin child member)
      (childArrow child member arrow found)
  cases node with
  | iden =>
      cases typed with
      | iden =>
          refine ⟨extend value frontier.next [], fun _ old => extend_old old, ?_⟩
          simp [Combinator.map, Combinator.mapMem, ruleEquations, Equation.Holds, (readsOwn _).1,
            (readsOwn _).2]
  | unit =>
      cases typed with
      | unit =>
          refine ⟨extend value frontier.next [.unit], fun _ old => extend_old old, ?_⟩
          simp [Combinator.map, Combinator.mapMem, ruleEquations, Equation.bind, Equation.Holds,
            Frame.Fits, Frame.types, (readsOwn _).2]
  | injl child =>
      change Combinator.HasType (.injl (arrows child)) arrow at typed
      generalize found : arrows child = childArrow at typed
      cases typed with
      | @injl a b c =>
          have reads := readsChild (.head _) found
          refine ⟨extend value frontier.next [c, .sum b c], fun _ old => extend_old old, ?_⟩
          simp [Combinator.map, Combinator.mapMem, ruleEquations, Equation.bind, Equation.Holds,
            Frame.Fits, Frame.types, (readsOwn _).1, (readsOwn _).2, (reads _).1, (reads _).2]
  | injr child =>
      change Combinator.HasType (.injr (arrows child)) arrow at typed
      generalize found : arrows child = childArrow at typed
      cases typed with
      | @injr a b c =>
          have reads := readsChild (.head _) found
          refine ⟨extend value frontier.next [b, .sum b c], fun _ old => extend_old old, ?_⟩
          simp [Combinator.map, Combinator.mapMem, ruleEquations, Equation.bind, Equation.Holds,
            Frame.Fits, Frame.types, (readsOwn _).1, (readsOwn _).2, (reads _).1, (reads _).2]
  | take child =>
      change Combinator.HasType (.take (arrows child)) arrow at typed
      generalize found : arrows child = childArrow at typed
      cases typed with
      | @take a b c =>
          have reads := readsChild (.head _) found
          refine ⟨extend value frontier.next [b, .prod a b], fun _ old => extend_old old, ?_⟩
          simp [Combinator.map, Combinator.mapMem, ruleEquations, Equation.bind, Equation.Holds,
            Frame.Fits, Frame.types, (readsOwn _).1, (readsOwn _).2, (reads _).1, (reads _).2]
  | drop child =>
      change Combinator.HasType (.drop (arrows child)) arrow at typed
      generalize found : arrows child = childArrow at typed
      cases typed with
      | @drop a b c =>
          have reads := readsChild (.head _) found
          refine ⟨extend value frontier.next [a, .prod a b], fun _ old => extend_old old, ?_⟩
          simp [Combinator.map, Combinator.mapMem, ruleEquations, Equation.bind, Equation.Holds,
            Frame.Fits, Frame.types, (readsOwn _).1, (readsOwn _).2, (reads _).1, (reads _).2]
  | comp left right =>
      change Combinator.HasType (.comp (arrows left) (arrows right)) arrow at typed
      generalize foundLeft : arrows left = leftArrow at typed
      generalize foundRight : arrows right = rightArrow at typed
      cases typed with
      | @comp a b c =>
          have readsLeft := readsChild (.head _) foundLeft
          have readsRight := readsChild (.tail _ (.head _)) foundRight
          refine ⟨extend value frontier.next [], fun _ old => extend_old old, ?_⟩
          simp [Combinator.map, Combinator.mapMem, ruleEquations, Equation.Holds, (readsOwn _).1,
            (readsOwn _).2, (readsLeft _).1, (readsLeft _).2, (readsRight _).1, (readsRight _).2]
  | pair left right =>
      change Combinator.HasType (.pair (arrows left) (arrows right)) arrow at typed
      generalize foundLeft : arrows left = leftArrow at typed
      generalize foundRight : arrows right = rightArrow at typed
      cases typed with
      | @pair a b c =>
          have readsLeft := readsChild (.head _) foundLeft
          have readsRight := readsChild (.tail _ (.head _)) foundRight
          refine ⟨extend value frontier.next [.prod b c], fun _ old => extend_old old, ?_⟩
          simp [Combinator.map, Combinator.mapMem, ruleEquations, Equation.bind, Equation.Holds,
            Frame.Fits, Frame.types, (readsOwn _).1, (readsOwn _).2, (readsLeft _).1,
            (readsLeft _).2, (readsRight _).1, (readsRight _).2]
  | case left right =>
      change Combinator.HasType (.case (arrows left) (arrows right)) arrow at typed
      generalize foundLeft : arrows left = leftArrow at typed
      generalize foundRight : arrows right = rightArrow at typed
      cases typed with
      | @case a b c d =>
          have readsLeft := readsChild (.head _) foundLeft
          have readsRight := readsChild (.tail _ (.head _)) foundRight
          refine ⟨extend value frontier.next [a, b, c, .sum a b, .prod (.sum a b) c, .prod a c,
            .prod b c], fun _ old => extend_old old, ?_⟩
          simp [Combinator.map, Combinator.mapMem, ruleEquations, choiceEquations, branchEquations,
            Equation.bind, Equation.Holds, Frame.Fits, Frame.types, (readsOwn _).1, (readsOwn _).2,
            (readsLeft _).1, (readsLeft _).2, (readsRight _).1, (readsRight _).2]
  | assertl left right =>
      change Combinator.HasType (.assertl (arrows left) (arrows right)) arrow at typed
      generalize found : arrows left = leftArrow at typed
      cases typed with
      | @assertl a b c d =>
          have reads := readsChild (.head _) found
          refine ⟨extend value frontier.next [a, b, c, .sum a b, .prod (.sum a b) c, .prod a c],
            fun _ old => extend_old old, ?_⟩
          simp [Combinator.map, Combinator.mapMem, ruleEquations, choiceEquations, branchEquations,
            Equation.bind, Equation.Holds, Frame.Fits, Frame.types, (readsOwn _).1, (readsOwn _).2,
            (reads _).1, (reads _).2]
  | assertr left right =>
      change Combinator.HasType (.assertr (arrows left) (arrows right)) arrow at typed
      generalize found : arrows right = rightArrow at typed
      cases typed with
      | @assertr a b c d =>
          have reads := readsChild (.tail _ (.head _)) found
          refine ⟨extend value frontier.next [a, b, c, .sum a b, .prod (.sum a b) c, .prod b c],
            fun _ old => extend_old old, ?_⟩
          simp [Combinator.map, Combinator.mapMem, ruleEquations, choiceEquations, branchEquations,
            Equation.bind, Equation.Holds, Frame.Fits, Frame.types, (readsOwn _).1, (readsOwn _).2,
            (reads _).1, (reads _).2]
  | disconnect left right =>
      change Combinator.HasType (.disconnect (arrows left) (arrows right)) arrow at typed
      generalize foundLeft : arrows left = leftArrow at typed
      generalize foundRight : arrows right = rightArrow at typed
      cases typed with
      | disconnect =>
          exact exists_satisfies_delegation valid ownWithin (childrenWithin left (.head _))
            (childrenWithin right (.tail _ (.head _))) isWord ownArrow
            (childArrow left (.head _) _ foundLeft)
            (childArrow right (.tail _ (.head _)) _ foundRight)
  | witness => exact ⟨value, fun _ _ => rfl, satisfies_nil⟩
  | hidden root => cases typed

end Extension

end Typing

end Simplicity
