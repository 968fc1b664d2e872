import Simplicity.Proofs.Typing.Unification

/-!
# Chains of parents and the size of classes

What the forest of type variables looks like from below and from above. From below, every variable has a
chain of parents that comes to an end, and finding a root puts exactly the variables of that chain
directly below their root. From above, a class whose root has rank `n` has at least `2 ^ n` variables: a
root gains a rank only if another class is joined with its own whose root has the same rank.

So ranks stay below the number of binary digits of the number of variables. With less than `2 ^ 64` of
them, a rank that is kept in a byte never comes to where it could not be raised.
-/

namespace Simplicity.Typing

/-- The chain of parents of a variable ends at a variable that is its own parent. -/
inductive ChainEnds (parents : Array Var) : Var → Var → Prop where
  | root {var : Var} (isRoot : parents[var]? = some var) : ChainEnds parents var var
  | climb {var parent root : Var} (isParent : parents[var]? = some parent) (differ : parent ≠ var)
      (ends : ChainEnds parents parent root) : ChainEnds parents var root

/-- A variable is on the chain of parents that starts at another one. -/
inductive OnChain (parents : Array Var) (start : Var) : Var → Prop where
  | start : OnChain parents start start
  | parent {var parent : Var} (on : OnChain parents start var)
      (isParent : parents[var]? = some parent) : OnChain parents start parent

theorem ChainEnds.unique {parents : Array Var} {var root root' : Var}
    (ends : ChainEnds parents var root) (ends' : ChainEnds parents var root') : root = root' := by
  induction ends with
  | root isRoot =>
      cases ends' with
      | root => rfl
      | climb isParent differ =>
          rw [isRoot] at isParent
          exact absurd (Option.some.inj isParent).symm differ
  | climb isParent differ _ ih =>
      cases ends' with
      | root isRoot =>
          rw [isRoot] at isParent
          exact absurd (Option.some.inj isParent).symm differ
      | climb isParent' _ ends' =>
          rw [isParent] at isParent'
          cases isParent'
          exact ih ends'

namespace Classes

theorem getElem?_parent {parents : Array Var} {var : Var} (inside : var < parents.size) :
    parents[var]? = some (parentOf parents var) := by
  simp [parentOf, inside]

/-- The variables of the class of a root. -/
def members (classes : Classes) (root : Var) : Finset Var :=
  (Finset.range classes.size).filter fun var => classes.root var = root

/-- The classes are a forest, in which the size of a class is at least two to the rank of its root. -/
structure Ranked (classes : Classes) : Prop where
  forest : classes.Forest
  two_pow_rank_le : ∀ var < classes.size, classes.root var = var →
    2 ^ classes.rankOf var ≤ (classes.members var).card

/-- Joins classes as `link` does where ranks are kept in bytes: a rank of 255 is raised no more. -/
def linkByte (classes : Classes) (left right : Var) (bound : Bound) : Classes :=
  let lower := classes.rankOf left < classes.rankOf right
  let root := if lower then right else left
  let child := if lower then left else right
  { parent := classes.parent.setIfInBounds child root
    rank :=
      if classes.rankOf root = classes.rankOf child then
        classes.rank.setIfInBounds root (min (classes.rankOf root + 1) 255)
      else classes.rank
    bound := classes.bound.setIfInBounds root bound }

section Chains

variable {classes : Classes} {parents : Array Var} {var other top : Var}

theorem onChain_iff (inside : var < parents.size) :
    OnChain parents var other ↔ other = var ∨ OnChain parents (parentOf parents var) other := by
  constructor
  · intro on
    induction on with
    | start => exact .inl rfl
    | parent on isParent ih =>
        rcases ih with rfl | on
        · rw [getElem?_parent inside, Option.some.injEq] at isParent
          exact .inr (isParent ▸ .start)
        · exact .inr (.parent on isParent)
  · rintro (rfl | on)
    · exact .start
    · induction on with
      | start => exact .parent .start (getElem?_parent inside)
      | parent _ isParent ih => exact .parent ih isParent

theorem onChain_of_root (isRoot : parentOf parents var = var) (on : OnChain parents var other) :
    other = var := by
  induction on with
  | start => rfl
  | parent _ isParent ih =>
      subst ih
      obtain ⟨inside, -⟩ := Array.getElem?_eq_some_iff.mp isParent
      rw [getElem?_parent inside, isRoot, Option.some.injEq] at isParent
      exact isParent.symm

/-- A chain does not change if a variable that is not on it is given another parent. -/
theorem onChain_setIfInBounds_iff {start : Var} (parent : Var) (off : ¬ OnChain parents start var) :
    OnChain (parents.setIfInBounds var parent) start other ↔ OnChain parents start other := by
  constructor
  · intro on
    induction on with
    | start => exact .start
    | parent _ isParent ih =>
        rw [Array.getElem?_setIfInBounds_ne (by rintro rfl; exact off ih)] at isParent
        exact .parent ih isParent
  · intro on
    induction on with
    | start => exact .start
    | parent on isParent ih =>
        refine .parent ih ?_
        rw [Array.getElem?_setIfInBounds_ne (by rintro rfl; exact off on)]
        exact isParent

/-- The variables of a chain are put directly below a root, and all others stay where they are. -/
structure Shortens (parents : Array Var) (var top : Var) (shortened : Array Var) : Prop where
  on_chain : ∀ other, OnChain parents var other → shortened[other]? = some top
  off_chain : ∀ other, ¬ OnChain parents var other → shortened[other]? = parents[other]?

namespace Shortens

/-- A root and the variables directly below it are where they are put. -/
theorem refl (inside : var < parents.size) (topInside : top < parents.size)
    (isParent : parentOf parents var = top) (isRoot : parentOf parents top = top) :
    Shortens parents var top parents := by
  refine ⟨?_, fun _ _ => rfl⟩
  intro other on
  rcases (onChain_iff inside).mp on with rfl | on
  · rw [getElem?_parent inside, isParent]
  · rw [isParent] at on
    obtain rfl := onChain_of_root isRoot on
    rw [getElem?_parent topInside, isRoot]

/-- A variable that is put below a root need not be looked at again. -/
theorem of_parent {shortened : Array Var} (inside : var < parents.size)
    (off : ¬ OnChain parents (parentOf parents var) var)
    (rest : Shortens (parents.setIfInBounds var top) (parentOf parents var) top shortened) :
    Shortens parents var top shortened := by
  have same : ∀ other, OnChain (parents.setIfInBounds var top) (parentOf parents var) other ↔
      OnChain parents (parentOf parents var) other :=
    fun other => onChain_setIfInBounds_iff top off
  constructor
  · intro other on
    rcases (onChain_iff inside).mp on with rfl | on
    · rw [rest.off_chain other (mt (same other).mp off), Array.getElem?_setIfInBounds_self_of_lt inside]
    · exact rest.on_chain other ((same other).mpr on)
  · intro other offChain
    rw [onChain_iff inside, not_or] at offChain
    rw [rest.off_chain other (mt (same other).mp offChain.2),
      Array.getElem?_setIfInBounds_ne (Ne.symm offChain.1)]

end Shortens

namespace Forest

theorem chainEnds (forest : classes.Forest) (inside : var < classes.size) :
    ChainEnds classes.parent var (classes.root var) := by
  induction var using forest.induction with
  | root var isRoot =>
      rw [root_of_parentOf_eq isRoot]
      exact .root ((getElem?_parent inside).trans (congrArg some isRoot))
  | below var _ below ih =>
      rw [← forest.root_parentOf var]
      exact .climb (getElem?_parent inside) below (ih (forest.parent_lt var inside))

theorem chainEnds_iff (forest : classes.Forest) (inside : var < classes.size) :
    ChainEnds classes.parent var top ↔ classes.root var = top := by
  constructor
  · exact (forest.chainEnds inside).unique
  · rintro rfl
    exact forest.chainEnds inside

theorem rank_le_of_onChain (forest : classes.Forest) (on : OnChain classes.parent var other) :
    classes.rankOf var ≤ classes.rankOf other := by
  induction on with
  | start => exact Nat.le_refl _
  | @parent between parent _ isParent ih =>
      obtain ⟨inside, -⟩ := Array.getElem?_eq_some_iff.mp isParent
      rw [getElem?_parent inside, Option.some.injEq] at isParent
      subst isParent
      by_cases isRoot : parentOf classes.parent between = between
      · rw [isRoot]
        exact ih
      · exact Nat.le_trans ih (Nat.le_of_lt (forest.rank_lt between inside isRoot))

/-- A variable is not on the chain of its parent, since ranks increase. -/
theorem not_onChain_parent (forest : classes.Forest) (inside : var < classes.size)
    (below : parentOf classes.parent var ≠ var) :
    ¬ OnChain classes.parent (parentOf classes.parent var) var := by
  intro on
  have le := forest.rank_le_of_onChain on
  have lt := forest.rank_lt var inside below
  omega

/-- The fuel for shortening a path lasts to its end. -/
theorem shorten_shortens {rank : Array Nat} {bound : Array Bound}
    (forest : Forest ⟨parents, rank, bound⟩) {fuel : Nat} (inside : var < parents.size)
    (enough : higher ⟨parents, rank, bound⟩ var ≤ fuel) :
    Shortens parents var (root ⟨parents, rank, bound⟩ var)
      (shorten (root ⟨parents, rank, bound⟩ var) fuel parents var) := by
  induction fuel generalizing parents var with
  | zero =>
      have isRoot : parentOf parents var = var := by
        by_contra below
        have closer := forest.higher_parent_lt inside below
        omega
      rw [root_of_parentOf_eq isRoot]
      exact .refl inside inside isRoot isRoot
  | succ fuel ih =>
      rw [shorten]
      split
      case isTrue near =>
        exact .refl inside (forest.root_lt inside) near (forest.parentOf_root var)
      case isFalse far =>
        -- The variable is not a root, since its parent would be that root.
        have below : parentOf parents var ≠ var := by
          intro isRoot
          apply far
          rw [isRoot]
          exact (root_of_parentOf_eq isRoot).symm
        have once := forest.redirect inside below
        have same : root ⟨parents.setIfInBounds var (root ⟨parents, rank, bound⟩ var), rank, bound⟩
            (parentOf parents var) = root ⟨parents, rank, bound⟩ var :=
          (once.root_eq _).trans (forest.root_parentOf var)
        have closer : higher ⟨parents.setIfInBounds var (root ⟨parents, rank, bound⟩ var), rank, bound⟩
            (parentOf parents var) < higher ⟨parents, rank, bound⟩ var := by
          have closer := forest.higher_parent_lt inside below
          simpa [higher, size, rankOf] using closer
        have parentInside := once.size_eq.symm ▸ forest.parent_lt var inside
        have rest := ih once.forest parentInside (Nat.le_of_lt_succ (Nat.lt_of_lt_of_le closer enough))
        rw [same] at rest
        exact .of_parent inside (forest.not_onChain_parent inside below) rest

/-- Finding a root shortens the path to it, as far as it goes. -/
theorem find_shortens (forest : classes.Forest) (inside : var < classes.size) :
    Shortens classes.parent var (classes.root var) (classes.find var).2.parent := by
  rcases classes with ⟨parents, rank, bound⟩
  exact forest.shorten_shortens inside (Nat.le_of_lt (higher_lt_size inside))

/-- Finding a root leaves all chains with the ends that they have. -/
theorem chainEnds_find_iff (forest : classes.Forest) (inside : other < classes.size) :
    ChainEnds (classes.find var).2.parent other top ↔ ChainEnds classes.parent other top := by
  have agrees := (forest.find_spec var).2
  rw [forest.chainEnds_iff inside, ← agrees.root_eq]
  exact agrees.forest.chainEnds_iff (agrees.size_eq ▸ inside)

end Forest

end Chains

section Ranks

variable {classes other linked : Classes} {left right winner var : Var} {bound : Bound}

theorem card_members_le_size (classes : Classes) (root : Var) :
    (classes.members root).card ≤ classes.size := by
  simpa [members] using Finset.card_filter_le (Finset.range classes.size) _

namespace Ranked

/-- With fewer than `2 ^ 64` variables, ranks stay below 64. -/
theorem rank_lt (ranked : classes.Ranked) (few : classes.size < 2 ^ 64)
    (inside : var < classes.size) : classes.rankOf var < 64 := by
  have forest := ranked.forest
  have size_le := ranked.two_pow_rank_le _ (forest.root_lt inside) (forest.root_root var)
  have fits : 2 ^ classes.rankOf (classes.root var) < 2 ^ 64 :=
    Nat.lt_of_le_of_lt (Nat.le_trans size_le (card_members_le_size classes _)) few
  exact Nat.lt_of_le_of_lt (forest.rank_le_root inside)
    ((Nat.pow_lt_pow_iff_right (by decide)).mp fits)

theorem empty : Classes.empty.Ranked :=
  ⟨Forest.empty, fun _ inside => absurd inside (Nat.not_lt_zero _)⟩

theorem agrees (ranked : classes.Ranked) (agrees : classes.Agrees other) : other.Ranked := by
  refine ⟨agrees.forest, ?_⟩
  intro var inside isRoot
  rw [agrees.size_eq] at inside
  rw [agrees.root_eq] at isRoot
  have same : other.members var = classes.members var := by
    simp only [members, agrees.size_eq, agrees.root_eq]
  rw [same, rankOf, agrees.rank_eq]
  exact ranked.two_pow_rank_le var inside isRoot

theorem push (ranked : classes.Ranked) (parts_lt : ∀ part ∈ bound.parts, part < classes.size) :
    (classes.push bound).Ranked := by
  have forest := ranked.forest
  refine ⟨forest.push parts_lt, ?_⟩
  intro var inside isRoot
  rw [Forest.size_push] at inside
  rw [forest.root_push parts_lt] at isRoot
  rw [Forest.rankOf_push]
  have grows : classes.members var ⊆ (classes.push bound).members var := by
    intro member
    simp only [members, Finset.mem_filter, Finset.mem_range, Forest.size_push,
      forest.root_push parts_lt]
    exact And.imp_left Nat.lt_succ_of_lt
  rcases Nat.lt_succ_iff_lt_or_eq.mp inside with old | rfl
  · exact Nat.le_trans (ranked.two_pow_rank_le var old isRoot) (Finset.card_le_card grows)
  · -- The new variable has rank zero, and is in its own class.
    have rank_eq : classes.rankOf classes.size = 0 := by
      simp [rankOf, Array.getD_eq_getD_getElem?, forest.rank_size]
    rw [rank_eq, Nat.pow_zero, Nat.one_le_iff_ne_zero, Finset.card_ne_zero]
    refine ⟨classes.size, ?_⟩
    simp [members, forest.root_push parts_lt, isRoot]

end Ranked

/-- A rank changes only if two roots of one rank are linked, and then by one. -/
theorem rankOf_link (inside : left < classes.rank.size) (var : Var) :
    (classes.link left right bound).rankOf var =
      if var = left ∧ classes.rankOf left = classes.rankOf right then classes.rankOf left + 1
      else classes.rankOf var := by
  unfold link
  split
  case isTrue lower =>
    rw [if_neg (by omega)]
    rfl
  case isFalse =>
    by_cases tie : classes.rankOf left = classes.rankOf right
    · simp only [tie, if_true, and_true]
      exact getD_setIfInBounds inside _ var 0
    · simp only [tie, if_false, and_false]
      rfl

theorem linkByte_eq (low : classes.rankOf left < 255) :
    classes.linkByte left right bound = classes.link left right bound := by
  by_cases lower : classes.rankOf left < classes.rankOf right
  · simp only [linkByte, link, lower, if_true, Nat.ne_of_gt lower, if_false]
  · simp only [linkByte, link, lower, if_false, Nat.min_eq_left (Nat.succ_le_of_lt low)]

section Links

variable (links : Forest.Links classes left right bound linked winner)
include links

/-- The winner takes over the variables of both classes. -/
theorem card_members_winner (differ : left ≠ right) :
    (classes.members left).card + (classes.members right).card ≤ (linked.members winner).card := by
  have apart : Disjoint (classes.members left) (classes.members right) := by
    rw [members, members, Finset.disjoint_filter]
    intro var _ inLeft inRight
    exact differ (inLeft.symm.trans inRight)
  rw [← Finset.card_union_of_disjoint apart]
  apply Finset.card_le_card
  intro var
  simp only [members, Finset.mem_union, Finset.mem_filter, Finset.mem_range, links.size_eq,
    links.root_eq]
  rintro (⟨inside, inLeft⟩ | ⟨inside, inRight⟩)
  · exact ⟨inside, if_pos (.inl inLeft)⟩
  · exact ⟨inside, if_pos (.inr inRight)⟩

/-- The variables of all other classes stay where they are. -/
theorem members_subset_of_links (notLeft : var ≠ left) (notRight : var ≠ right) :
    classes.members var ⊆ linked.members var := by
  intro member
  simp only [members, Finset.mem_filter, Finset.mem_range, links.size_eq, links.root_eq]
  rintro ⟨inside, isMember⟩
  refine ⟨inside, ?_⟩
  rw [isMember, if_neg (by simp [notLeft, notRight])]

end Links

/-- Linking keeps classes as large as ranks say. -/
theorem Ranked.link (ranked : classes.Ranked) (insideLeft : left < classes.size)
    (insideRight : right < classes.size) (rootLeft : classes.root left = left)
    (rootRight : classes.root right = right) (differ : left ≠ right)
    (parts_lt : ∀ part ∈ bound.parts, part < classes.size) :
    (classes.link left right bound).Ranked := by
  have forest := ranked.forest
  rcases forest.link_spec insideLeft insideRight rootLeft rootRight differ parts_lt with
    ⟨winner, links⟩
  refine ⟨links.forest, ?_⟩
  intro var inside isRoot
  rw [rankOf_link (forest.rank_size ▸ insideLeft)]
  have largeLeft := ranked.two_pow_rank_le left insideLeft rootLeft
  have largeRight := ranked.two_pow_rank_le right insideRight rootRight
  by_cases isWinner : var = winner
  · subst isWinner
    have large := card_members_winner links differ
    split
    case isTrue tie =>
      rw [Nat.pow_succ]
      rw [← tie.2] at largeRight
      omega
    case isFalse =>
      rcases links.winner_eq with rfl | rfl <;> omega
  · -- A root that is not the winner was one before, and is neither of the two.
    have isRoot' := isRoot
    rw [links.root_eq] at isRoot'
    split at isRoot'
    case isTrue => exact absurd isRoot'.symm isWinner
    case isFalse neither =>
      rw [isRoot', not_or] at neither
      rw [if_neg fun tie => neither.1 tie.1]
      exact Nat.le_trans (ranked.two_pow_rank_le var (links.size_eq ▸ inside) isRoot')
        (Finset.card_le_card (members_subset_of_links links neither.1 neither.2))

end Ranks

end Classes

end Simplicity.Typing
