import Mathlib.Algebra.Ring.Nat
import Mathlib.Data.Finset.Card
import Simplicity.Typing.Classes

/-!
# The forest of type variables

Parent references lead every variable to a root because ranks increase on the way. How far it is to
a root is bounded by the number of variables of higher rank, so the bound on the steps of `chase` is
never reached, and `Classes.root` is the root that the references lead to.

What the operations do to the forest is said of `root` and of the bounds of roots alone:

* shortening a path changes neither;
* linking two roots puts both classes below one of them, with the given bound;
* adding a variable adds a class.
-/

namespace Simplicity.Typing

namespace Classes

/-- Parents are variables of higher rank, and bounds speak of variables that are there. -/
structure Forest (classes : Classes) : Prop where
  rank_size : classes.rank.size = classes.size
  bound_size : classes.bound.size = classes.size
  parent_lt : ∀ var < classes.size, parentOf classes.parent var < classes.size
  rank_lt : ∀ var < classes.size, parentOf classes.parent var ≠ var →
    classes.rankOf var < classes.rankOf (parentOf classes.parent var)
  parts_lt : ∀ var < classes.size, ∀ part ∈ (classes.boundOf var).parts, part < classes.size

/-- The number of variables of higher rank than a variable. -/
def higher (classes : Classes) (var : Var) : Nat :=
  ((Finset.range classes.size).filter fun other =>
    classes.rankOf var < classes.rankOf other).card

theorem parentOf_of_size_le {parents : Array Var} {var : Var} (past : parents.size ≤ var) :
    parentOf parents var = var := by
  simp [parentOf, Array.getD_eq_getD_getElem?, Array.getElem?_eq_none past]

theorem boundOf_of_size_le {classes : Classes} {var : Var} (past : classes.bound.size ≤ var) :
    classes.boundOf var = .free := by
  simp [boundOf, Array.getD_eq_getD_getElem?, Array.getElem?_eq_none past]

theorem getD_setIfInBounds {α : Type} {entries : Array α} {var : Nat} (inside : var < entries.size)
    (entry : α) (other : Nat) (default : α) :
    (entries.setIfInBounds var entry).getD other default =
      if other = var then entry else entries.getD other default := by
  simp only [Array.getD_eq_getD_getElem?, Array.getElem?_setIfInBounds]
  by_cases same : other = var
  · subst same
    simp [inside]
  · simp [same, Ne.symm same]

theorem parentOf_setIfInBounds (parents : Array Var) (var parent other : Var)
    (inside : var < parents.size) :
    parentOf (parents.setIfInBounds var parent) other =
      if other = var then parent else parentOf parents other :=
  getD_setIfInBounds inside parent other other

namespace Forest

variable {classes : Classes}

theorem higher_lt_size {var : Var} (inside : var < classes.size) :
    classes.higher var < classes.size := by
  have strict : (Finset.range classes.size).filter (fun other =>
      classes.rankOf var < classes.rankOf other) ⊂ Finset.range classes.size := by
    rw [Finset.filter_ssubset]
    exact ⟨var, Finset.mem_range.mpr inside, Nat.lt_irrefl _⟩
  simpa [higher] using Finset.card_lt_card strict

theorem higher_parent_lt (forest : classes.Forest) {var : Var} (inside : var < classes.size)
    (below : parentOf classes.parent var ≠ var) :
    classes.higher (parentOf classes.parent var) < classes.higher var := by
  have rank_lt := forest.rank_lt var inside below
  apply Finset.card_lt_card
  rw [Finset.ssubset_iff_of_subset]
  · refine ⟨parentOf classes.parent var, ?_, ?_⟩
    · simp [forest.parent_lt var inside, rank_lt]
    · simp
  · intro other member
    simp only [Finset.mem_filter] at member ⊢
    exact ⟨member.1, Nat.lt_trans rank_lt member.2⟩

/-- A property of roots that passes from parents to children holds of all variables. -/
theorem induction (forest : classes.Forest) {motive : Var → Prop}
    (root : ∀ var, parentOf classes.parent var = var → motive var)
    (below : ∀ var, var < classes.size → parentOf classes.parent var ≠ var →
      motive (parentOf classes.parent var) → motive var) (var : Var) : motive var := by
  induction height : classes.higher var using Nat.strongRecOn generalizing var with
  | ind bound ih =>
      by_cases isRoot : parentOf classes.parent var = var
      · exact root var isRoot
      · rcases Nat.lt_or_ge var classes.size with inside | past
        · apply below var inside isRoot
          exact ih _ (height ▸ forest.higher_parent_lt inside isRoot) _ rfl
        · exact absurd (parentOf_of_size_le past) isRoot

theorem chase_of_root {parents : Array Var} {var : Var} (isRoot : parentOf parents var = var)
    (fuel : Nat) : chase parents fuel var = var := by
  cases fuel with
  | zero => rfl
  | succ fuel => rw [chase, if_pos isRoot]

theorem chase_eq_of_higher_le (forest : classes.Forest) {fuel fuel' : Nat} {var : Var}
    (inside : var < classes.size) (enough : classes.higher var ≤ fuel)
    (enough' : classes.higher var ≤ fuel') :
    chase classes.parent fuel var = chase classes.parent fuel' var := by
  induction fuel generalizing fuel' var with
  | zero =>
      have isRoot : parentOf classes.parent var = var := by
        by_contra below
        have := forest.higher_parent_lt inside below
        omega
      rw [chase_of_root isRoot, chase_of_root isRoot]
  | succ fuel ih =>
      by_cases isRoot : parentOf classes.parent var = var
      · rw [chase_of_root isRoot, chase_of_root isRoot]
      · have closer := forest.higher_parent_lt inside isRoot
        cases fuel' with
        | zero => omega
        | succ fuel' =>
            rw [chase, chase, if_neg isRoot, if_neg isRoot]
            exact ih (forest.parent_lt var inside) (by omega) (by omega)

theorem root_of_parentOf_eq {var : Var} (isRoot : parentOf classes.parent var = var) :
    classes.root var = var :=
  chase_of_root isRoot _

theorem root_parentOf (forest : classes.Forest) (var : Var) :
    classes.root (parentOf classes.parent var) = classes.root var := by
  by_cases isRoot : parentOf classes.parent var = var
  · rw [isRoot]
  · rcases Nat.lt_or_ge var classes.size with inside | past
    · have few : classes.higher var < classes.parent.size := higher_lt_size inside
      have closer := forest.higher_parent_lt inside isRoot
      obtain ⟨fuel, size_eq⟩ : ∃ fuel, classes.parent.size = fuel + 1 :=
        ⟨classes.parent.size - 1, by omega⟩
      have step : classes.root var = chase classes.parent fuel (parentOf classes.parent var) := by
        rw [root, size_eq, chase, if_neg isRoot]
      rw [step, root, size_eq]
      exact forest.chase_eq_of_higher_le (forest.parent_lt var inside) (by omega) (by omega)
    · exact absurd (parentOf_of_size_le past) isRoot

theorem parentOf_root (forest : classes.Forest) (var : Var) :
    parentOf classes.parent (classes.root var) = classes.root var := by
  induction var using forest.induction with
  | root var isRoot => rw [root_of_parentOf_eq isRoot, isRoot]
  | below var _ _ ih =>
      rw [← forest.root_parentOf var]
      exact ih

theorem root_root (forest : classes.Forest) (var : Var) :
    classes.root (classes.root var) = classes.root var :=
  root_of_parentOf_eq (forest.parentOf_root var)

theorem root_eq_self_iff (forest : classes.Forest) (var : Var) :
    classes.root var = var ↔ parentOf classes.parent var = var := by
  constructor
  · intro isRoot
    rw [← isRoot, forest.parentOf_root]
  · exact root_of_parentOf_eq

theorem root_lt (forest : classes.Forest) {var : Var} (inside : var < classes.size) :
    classes.root var < classes.size := by
  induction var using forest.induction with
  | root var isRoot =>
      rw [root_of_parentOf_eq isRoot]
      exact inside
  | below var _ _ ih =>
      rw [← forest.root_parentOf var]
      exact ih (forest.parent_lt var inside)

theorem root_of_size_le {var : Var} (past : classes.size ≤ var) : classes.root var = var :=
  root_of_parentOf_eq (parentOf_of_size_le past)

theorem rank_le_root (forest : classes.Forest) {var : Var} (inside : var < classes.size) :
    classes.rankOf var ≤ classes.rankOf (classes.root var) := by
  induction var using forest.induction with
  | root var isRoot => exact Nat.le_of_eq (by rw [root_of_parentOf_eq isRoot])
  | below var _ below ih =>
      have first := forest.rank_lt var inside below
      have rest := ih (forest.parent_lt var inside)
      rw [forest.root_parentOf] at rest
      omega

theorem rank_lt_root (forest : classes.Forest) {var : Var} (inside : var < classes.size)
    (below : parentOf classes.parent var ≠ var) :
    classes.rankOf var < classes.rankOf (classes.root var) := by
  have first := forest.rank_lt var inside below
  have rest := forest.rank_le_root (forest.parent_lt var inside)
  rw [forest.root_parentOf] at rest
  omega

/-- Whatever sends every variable where its parent goes, and stays at roots, is the root. -/
theorem root_unique (forest : classes.Forest) {target : Var → Var}
    (fixed : ∀ var, parentOf classes.parent var = var → target var = var)
    (climbs : ∀ var, target (parentOf classes.parent var) = target var) (var : Var) :
    classes.root var = target var := by
  induction var using forest.induction with
  | root var isRoot => rw [root_of_parentOf_eq isRoot, fixed var isRoot]
  | below var _ _ ih => rw [← forest.root_parentOf var, ih, climbs]

end Forest

/-- The same classes with the same bounds, perhaps with shorter paths. -/
structure Agrees (classes other : Classes) : Prop where
  forest : other.Forest
  size_eq : other.size = classes.size
  root_eq : ∀ var, other.root var = classes.root var
  rank_eq : other.rank = classes.rank
  bound_eq : other.bound = classes.bound

namespace Agrees

variable {classes other third : Classes}

theorem refl (forest : classes.Forest) : classes.Agrees classes :=
  ⟨forest, rfl, fun _ => rfl, rfl, rfl⟩

theorem trans (first : classes.Agrees other) (second : other.Agrees third) :
    classes.Agrees third where
  forest := second.forest
  size_eq := second.size_eq.trans first.size_eq
  root_eq var := (second.root_eq var).trans (first.root_eq var)
  rank_eq := second.rank_eq.trans first.rank_eq
  bound_eq := second.bound_eq.trans first.bound_eq

theorem boundOf_eq (agrees : classes.Agrees other) (var : Var) :
    other.boundOf var = classes.boundOf var := by
  rw [boundOf, boundOf, agrees.bound_eq]

end Agrees

namespace Forest

variable {classes : Classes}

/-- A variable may be put directly below its root. -/
theorem redirect (forest : classes.Forest) {var : Var} (inside : var < classes.size)
    (below : parentOf classes.parent var ≠ var) :
    classes.Agrees { classes with
      parent := classes.parent.setIfInBounds var (classes.root var) } := by
  have parent_eq := parentOf_setIfInBounds classes.parent var (classes.root var)
  have rank_lt := forest.rank_lt_root inside below
  have shortened : Forest { classes with
      parent := classes.parent.setIfInBounds var (classes.root var) } := by
    constructor
    case rank_size => simpa [size] using forest.rank_size
    case bound_size => simpa [size] using forest.bound_size
    case parent_lt =>
      intro other otherInside
      simp only [size, Array.size_setIfInBounds] at otherInside ⊢
      rw [parent_eq other inside]
      split
      · exact forest.root_lt inside
      · exact forest.parent_lt other otherInside
    case rank_lt =>
      intro other otherInside
      simp only [size, Array.size_setIfInBounds] at otherInside
      rw [parent_eq other inside]
      split
      case isTrue same =>
        subst same
        intro _
        exact rank_lt
      case isFalse => exact forest.rank_lt other otherInside
    case parts_lt =>
      intro other otherInside
      simp only [size, Array.size_setIfInBounds] at otherInside ⊢
      exact forest.parts_lt other otherInside
  refine ⟨shortened, by simp [size], ?_, rfl, rfl⟩
  apply shortened.root_unique
  · intro other isRoot
    rw [parent_eq other inside] at isRoot
    split at isRoot
    case isTrue same =>
      subst same
      exact isRoot
    case isFalse => exact root_of_parentOf_eq isRoot
  · intro other
    rw [parent_eq other inside]
    split
    case isTrue same =>
      subst same
      exact forest.root_root other
    case isFalse => exact forest.root_parentOf other

theorem shorten_agrees {parents : Array Var} {rank : Array Nat} {bound : Array Bound}
    (forest : Forest ⟨parents, rank, bound⟩) (fuel : Nat) (var : Var) :
    Agrees ⟨parents, rank, bound⟩
      ⟨shorten (root ⟨parents, rank, bound⟩ var) fuel parents var, rank, bound⟩ := by
  induction fuel generalizing parents var with
  | zero => exact .refl forest
  | succ fuel ih =>
      simp only [shorten]
      split
      case isTrue => exact .refl forest
      case isFalse far =>
        -- The variable is not a root, since its parent would be that root.
        have below : parentOf parents var ≠ var := by
          intro isRoot
          apply far
          rw [isRoot]
          exact (root_of_parentOf_eq isRoot).symm
        have inside : var < parents.size := by
          by_contra past
          exact below (parentOf_of_size_le (Nat.not_lt.mp past))
        have once := forest.redirect inside below
        have same : root ⟨parents.setIfInBounds var (root ⟨parents, rank, bound⟩ var), rank, bound⟩
            (parentOf parents var) = root ⟨parents, rank, bound⟩ var :=
          (once.root_eq _).trans (forest.root_parentOf var)
        have rest := ih once.forest (parentOf parents var)
        rw [same] at rest
        exact once.trans rest

/-- Finding a root gives the root and leaves the classes as they are. -/
theorem find_spec (forest : classes.Forest) (var : Var) :
    (classes.find var).1 = classes.root var ∧ classes.Agrees (classes.find var).2 := by
  rcases classes with ⟨parents, rank, bound⟩
  exact ⟨rfl, forest.shorten_agrees parents.size var⟩

theorem parentOf_push (parents : Array Var) (var : Var) :
    parentOf (parents.push parents.size) var = parentOf parents var := by
  simp only [parentOf, Array.getD_eq_getD_getElem?, Array.getElem?_push]
  split
  case isTrue same =>
    subst same
    simp
  case isFalse => rfl

theorem rankOf_push (bound : Bound) (var : Var) :
    (classes.push bound).rankOf var = classes.rankOf var := by
  simp only [push, rankOf, Array.getD_eq_getD_getElem?, Array.getElem?_push]
  split
  case isTrue same =>
    subst same
    simp
  case isFalse => rfl

theorem boundOf_push (forest : classes.Forest) (bound : Bound) (var : Var) :
    (classes.push bound).boundOf var =
      if var = classes.size then bound else classes.boundOf var := by
  simp only [push, boundOf, Array.getD_eq_getD_getElem?, Array.getElem?_push, forest.bound_size]
  split <;> rfl

@[simp]
theorem size_push (classes : Classes) (bound : Bound) :
    (classes.push bound).size = classes.size + 1 := by
  simp [push, size]

theorem push (forest : classes.Forest) {bound : Bound}
    (parts_lt : ∀ part ∈ bound.parts, part < classes.size) : (classes.push bound).Forest := by
  constructor
  case rank_size => simpa [Classes.push, size] using forest.rank_size
  case bound_size => simpa [Classes.push, size] using forest.bound_size
  case parent_lt =>
    intro var inside
    rw [size_push] at inside ⊢
    change parentOf (classes.parent.push classes.parent.size) var < _
    rw [parentOf_push]
    rcases Nat.lt_succ_iff_lt_or_eq.mp inside with old | rfl
    · exact Nat.lt_succ_of_lt (forest.parent_lt var old)
    · exact (parentOf_of_size_le (Nat.le_refl _)).symm ▸ inside
  case rank_lt =>
    intro var inside
    change parentOf (classes.parent.push classes.parent.size) var ≠ var →
      _ < (classes.push bound).rankOf (parentOf (classes.parent.push classes.parent.size) var)
    rw [parentOf_push, rankOf_push, rankOf_push]
    intro below
    rcases Nat.lt_or_ge var classes.size with old | past
    · exact forest.rank_lt var old below
    · exact absurd (parentOf_of_size_le past) below
  case parts_lt =>
    intro var inside part member
    rw [size_push] at inside ⊢
    rw [forest.boundOf_push] at member
    split at member
    case isTrue => exact Nat.lt_succ_of_lt (parts_lt part member)
    case isFalse other =>
      have old : var < classes.size := Nat.lt_of_le_of_ne (Nat.le_of_lt_succ inside) other
      exact Nat.lt_succ_of_lt (forest.parts_lt var old part member)

theorem root_push (forest : classes.Forest) {bound : Bound}
    (parts_lt : ∀ part ∈ bound.parts, part < classes.size) (var : Var) :
    (classes.push bound).root var = classes.root var := by
  apply (forest.push parts_lt).root_unique
  · intro var isRoot
    apply root_of_parentOf_eq
    rw [← parentOf_push]
    exact isRoot
  · intro var
    rw [← forest.root_parentOf var]
    exact congrArg classes.root (parentOf_push classes.parent var)

/-- What linking does: all variables of two classes have one root, which has the new bound. -/
structure Links (classes : Classes) (left right : Var) (bound : Bound) (linked : Classes)
    (winner : Var) : Prop where
  forest : linked.Forest
  size_eq : linked.size = classes.size
  winner_eq : winner = left ∨ winner = right
  root_eq : ∀ var, linked.root var =
    if classes.root var = left ∨ classes.root var = right then winner else classes.root var
  bound_eq : ∀ var, linked.boundOf var = if var = winner then bound else classes.boundOf var

/-- The classes with a root put below another one, and with other ranks. -/
def attached (classes : Classes) (winner loser : Var) (bound : Bound) (rank : Array Nat) : Classes :=
  ⟨classes.parent.setIfInBounds loser winner, rank, classes.bound.setIfInBounds winner bound⟩

section Attach

variable {winner loser : Var} {bound : Bound} {rank : Array Nat}

@[simp]
theorem size_attached : (attached classes winner loser bound rank).size = classes.size := by
  simp [attached, size]

theorem parentOf_attached (insideLoser : loser < classes.size) (var : Var) :
    parentOf (attached classes winner loser bound rank).parent var =
      if var = loser then winner else parentOf classes.parent var :=
  parentOf_setIfInBounds classes.parent loser winner var insideLoser

theorem boundOf_attached (forest : classes.Forest) (insideWinner : winner < classes.size)
    (var : Var) :
    boundOf (attached classes winner loser bound rank) var =
      if var = winner then bound else classes.boundOf var :=
  getD_setIfInBounds (forest.bound_size ▸ insideWinner) bound var .free

theorem forest_attached (forest : classes.Forest) (insideWinner : winner < classes.size)
    (insideLoser : loser < classes.size) (rootWinner : classes.root winner = winner)
    (differ : winner ≠ loser) (parts_lt : ∀ part ∈ bound.parts, part < classes.size)
    (rank_size : rank.size = classes.size)
    (rank_eq : ∀ var, var ≠ winner → rank.getD var 0 = classes.rankOf var)
    (rank_le : classes.rankOf winner ≤ rank.getD winner 0)
    (rank_lt : classes.rankOf loser < rank.getD winner 0) :
    Forest (attached classes winner loser bound rank) := by
  have rank_le_all : ∀ var, classes.rankOf var ≤ rank.getD var 0 := by
    intro var
    by_cases same : var = winner
    · subst same
      exact rank_le
    · exact Nat.le_of_eq (rank_eq var same).symm
  constructor
  case rank_size => exact rank_size.trans size_attached.symm
  case bound_size => simpa [attached, size] using forest.bound_size
  case parent_lt =>
    intro var inside
    rw [size_attached] at inside ⊢
    rw [parentOf_attached insideLoser]
    split
    · exact insideWinner
    · exact forest.parent_lt var inside
  case rank_lt =>
    intro var inside
    rw [size_attached] at inside
    rw [parentOf_attached insideLoser]
    split
    case isTrue same =>
      subst same
      intro _
      change rank.getD var 0 < rank.getD winner 0
      rw [rank_eq var (Ne.symm differ)]
      exact rank_lt
    case isFalse =>
      intro below
      -- The winner is a root and stays one, so the rank of this variable has not changed.
      have notWinner : var ≠ winner := by
        rintro rfl
        exact below ((forest.root_eq_self_iff var).mp rootWinner)
      change rank.getD var 0 < rank.getD _ 0
      rw [rank_eq var notWinner]
      exact Nat.lt_of_lt_of_le (forest.rank_lt var inside below) (rank_le_all _)
  case parts_lt =>
    intro var inside part member
    rw [size_attached] at inside ⊢
    rw [boundOf_attached forest insideWinner] at member
    split at member
    · exact parts_lt part member
    · exact forest.parts_lt var inside part member

theorem root_attached (forest : classes.Forest)
    (isForest : Forest (attached classes winner loser bound rank))
    (insideLoser : loser < classes.size) (rootWinner : classes.root winner = winner)
    (rootLoser : classes.root loser = loser) (differ : winner ≠ loser) (var : Var) :
    (attached classes winner loser bound rank).root var =
      if classes.root var = loser then winner else classes.root var := by
  revert var
  apply isForest.root_unique
  · intro var isRoot
    rw [parentOf_attached insideLoser] at isRoot
    split at isRoot
    case isTrue same => exact absurd (isRoot.trans same) differ
    case isFalse other => simp [root_of_parentOf_eq isRoot, other]
  · intro var
    rw [parentOf_attached insideLoser]
    split
    case isTrue same =>
      subst same
      simp [rootWinner, rootLoser, differ]
    case isFalse => rw [forest.root_parentOf]

/-- A root may be put below another one, as long as ranks still increase. -/
theorem attach (forest : classes.Forest) (insideWinner : winner < classes.size)
    (insideLoser : loser < classes.size) (rootWinner : classes.root winner = winner)
    (rootLoser : classes.root loser = loser) (differ : winner ≠ loser)
    (parts_lt : ∀ part ∈ bound.parts, part < classes.size) (rank_size : rank.size = classes.size)
    (rank_eq : ∀ var, var ≠ winner → rank.getD var 0 = classes.rankOf var)
    (rank_le : classes.rankOf winner ≤ rank.getD winner 0)
    (rank_lt : classes.rankOf loser < rank.getD winner 0) :
    Links classes winner loser bound (attached classes winner loser bound rank) winner := by
  have isForest : Forest (attached classes winner loser bound rank) :=
    forest.forest_attached insideWinner insideLoser rootWinner differ parts_lt rank_size rank_eq
      rank_le rank_lt
  refine ⟨isForest, size_attached, .inl rfl, ?_, forest.boundOf_attached insideWinner⟩
  intro var
  rw [forest.root_attached isForest insideLoser rootWinner rootLoser differ]
  by_cases first : classes.root var = winner
  · simp [first, differ]
  · simp [first]

end Attach

theorem Links.symm {left right winner : Var} {bound : Bound} {linked : Classes}
    (links : Links classes left right bound linked winner) :
    Links classes right left bound linked winner where
  forest := links.forest
  size_eq := links.size_eq
  winner_eq := links.winner_eq.symm
  root_eq var := by
    rw [links.root_eq]
    simp only [or_comm]
  bound_eq := links.bound_eq

theorem link_spec (forest : classes.Forest) {left right : Var} {bound : Bound}
    (insideLeft : left < classes.size) (insideRight : right < classes.size)
    (rootLeft : classes.root left = left) (rootRight : classes.root right = right)
    (differ : left ≠ right) (parts_lt : ∀ part ∈ bound.parts, part < classes.size) :
    ∃ winner, Links classes left right bound (classes.link left right bound) winner := by
  unfold link
  split
  case isTrue lower =>
    refine ⟨right, Links.symm ?_⟩
    exact forest.attach insideRight insideLeft rootRight rootLeft (Ne.symm differ) parts_lt
      forest.rank_size (fun _ _ => rfl) (Nat.le_refl _) lower
  case isFalse notLower =>
    refine ⟨left, ?_⟩
    have ranks : ∀ var, (if classes.rankOf left = classes.rankOf right then
          classes.rank.setIfInBounds left (classes.rankOf left + 1) else classes.rank).getD var 0 =
        if var = left ∧ classes.rankOf left = classes.rankOf right then classes.rankOf left + 1
        else classes.rankOf var := by
      intro var
      split
      case isTrue tie =>
        rw [getD_setIfInBounds (forest.rank_size ▸ insideLeft)]
        simp only [tie, and_true]
        rfl
      case isFalse noTie =>
        rw [if_neg (fun both => noTie both.2)]
        rfl
    apply forest.attach insideLeft insideRight rootLeft rootRight differ parts_lt
    · split
      · simpa using forest.rank_size
      · exact forest.rank_size
    · intro var other
      rw [ranks, if_neg (by simp [other])]
    · rw [ranks]
      split
      · exact Nat.le_succ _
      · exact Nat.le_refl _
    · rw [ranks]
      split
      case isTrue tie => omega
      case isFalse noTie =>
        simp only [true_and] at noTie
        omega

end Forest

end Classes

end Simplicity.Typing
