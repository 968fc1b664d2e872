import Simplicity.Proofs.Typing.Forest

/-!
# Unification

What classes of variables say is what they demand of an assignment: variables of one class are
assigned the same, and the bound of a root fits what its class is assigned. The assignments that
satisfy these demands are the models of the classes.

Unifying a list of pairs narrows the models down to those that assign the same to both sides of
every pair, and it fails only if there are none. Models need not assign types. A `Frame` has as much
structure as unification looks at: constructors can be told apart, and a sum or a product determines
its parts. Types are one frame. The classes themselves are another, in which they have a model even
if some class would have to contain itself.

Each pair that is taken from the list either was in one class already or leaves one class fewer and
adds at most two pairs. The length of the list and twice the number of classes is therefore a bound
on the pairs that will be taken, and the fuel of the loop is never used up.
-/

namespace Simplicity.Typing

/-- Something that variables can be assigned: it is known which elements are the unit, sums and
products. -/
structure Frame (T : Type) where
  IsUnit : T → Prop
  IsSum : T → T → T → Prop
  IsProd : T → T → T → Prop
  sum_inj : ∀ {whole left right left' right'}, IsSum whole left right → IsSum whole left' right' →
    left = left' ∧ right = right'
  prod_inj : ∀ {whole left right left' right'}, IsProd whole left right →
    IsProd whole left' right' → left = left' ∧ right = right'
  unit_ne_sum : ∀ {whole left right}, IsUnit whole → ¬ IsSum whole left right
  unit_ne_prod : ∀ {whole left right}, IsUnit whole → ¬ IsProd whole left right
  sum_ne_prod : ∀ {whole left right left' right'}, IsSum whole left right →
    ¬ IsProd whole left' right'

namespace Frame

variable {T : Type} (frame : Frame T) (value : Var → T)

/-- An element is of the shape that a bound gives, with the parts that an assignment gives. -/
def Fits : Bound → T → Prop
  | .free, _ => True
  | .unit, whole => frame.IsUnit whole
  | .sum left right, whole => frame.IsSum whole (value left) (value right)
  | .prod left right, whole => frame.IsProd whole (value left) (value right)

/-- An assignment satisfies the demands of classes. -/
def Models (classes : Classes) : Prop :=
  ∀ var, value (classes.root var) = value var ∧
    frame.Fits value (classes.boundOf (classes.root var)) (value var)

/-- An assignment assigns the same to both sides of every pair. -/
def Equates (pairs : List (Var × Var)) : Prop :=
  ∀ pair ∈ pairs, value pair.1 = value pair.2

variable {frame value}

theorem not_fits_of_merge?_eq_none {left right : Bound} (clash : left.merge? right = none)
    {whole : T} (fitsLeft : frame.Fits value left whole) : ¬ frame.Fits value right whole := by
  intro fitsRight
  cases left <;> cases right <;> simp only [Bound.merge?, reduceCtorEq] at clash <;>
    simp only [Fits] at fitsLeft fitsRight
  · exact frame.unit_ne_sum fitsLeft fitsRight
  · exact frame.unit_ne_prod fitsLeft fitsRight
  · exact frame.unit_ne_sum fitsRight fitsLeft
  · exact frame.sum_ne_prod fitsLeft fitsRight
  · exact frame.unit_ne_prod fitsRight fitsLeft
  · exact frame.sum_ne_prod fitsRight fitsLeft

/-- To fit two bounds is to fit the merged bound, as long as the parts are the same. -/
theorem fits_merge?_iff {left right bound : Bound} {more : List (Var × Var)}
    (merged : left.merge? right = some (bound, more)) {whole : T} :
    frame.Fits value bound whole ∧ Equates value more ↔
      frame.Fits value left whole ∧ frame.Fits value right whole := by
  cases left <;> cases right <;> simp only [Bound.merge?, reduceCtorEq] at merged <;> cases merged
  case sum.sum left right left' right' =>
    simp only [Fits, Equates, List.forall_mem_cons, List.not_mem_nil, false_implies,
      implies_true, and_true]
    constructor
    · rintro ⟨fits, sameLeft, sameRight⟩
      exact ⟨fits, sameLeft ▸ sameRight ▸ fits⟩
    · rintro ⟨fits, fits'⟩
      exact ⟨fits, frame.sum_inj fits fits'⟩
  case prod.prod left right left' right' =>
    simp only [Fits, Equates, List.forall_mem_cons, List.not_mem_nil, false_implies,
      implies_true, and_true]
    constructor
    · rintro ⟨fits, sameLeft, sameRight⟩
      exact ⟨fits, sameLeft ▸ sameRight ▸ fits⟩
    · rintro ⟨fits, fits'⟩
      exact ⟨fits, frame.prod_inj fits fits'⟩
  all_goals simp [Fits, Equates]

theorem fits_congr {value' : Var → T} {bound : Bound}
    (agree : ∀ part ∈ bound.parts, value part = value' part) {whole : T} :
    frame.Fits value bound whole ↔ frame.Fits value' bound whole := by
  cases bound <;> simp_all [Fits, Bound.parts]

@[simp]
theorem equates_nil : Equates value [] := by
  simp [Equates]

@[simp]
theorem equates_cons {left right : Var} {work : List (Var × Var)} :
    Equates value ((left, right) :: work) ↔ value left = value right ∧ Equates value work := by
  simp [Equates]

@[simp]
theorem equates_append {work more : List (Var × Var)} :
    Equates value (work ++ more) ↔ Equates value work ∧ Equates value more := by
  simp [Equates, or_imp, forall_and]

end Frame

namespace Classes

open Forest in
theorem models_of_agrees {classes other : Classes} (agrees : classes.Agrees other) {T : Type}
    (frame : Frame T) (value : Var → T) :
    frame.Models value other ↔ frame.Models value classes := by
  simp only [Frame.Models, agrees.root_eq, agrees.boundOf_eq]

/-- The number of classes. -/
def count (classes : Classes) : Nat :=
  ((Finset.range classes.size).filter fun var => classes.root var = var).card

theorem count_le_size (classes : Classes) : classes.count ≤ classes.size := by
  simpa [count] using Finset.card_filter_le (Finset.range classes.size) _

theorem Agrees.count_eq {classes other : Classes} (agrees : classes.Agrees other) :
    other.count = classes.count := by
  simp only [count, agrees.size_eq, agrees.root_eq]

namespace Forest

variable {classes linked : Classes} {left right winner : Var} {bound : Bound}

/-- Of two roots that are linked, the one that does not win is no root any more. -/
theorem Links.count_eq (links : Links classes left right bound linked winner)
    (insideLeft : left < classes.size) (insideRight : right < classes.size)
    (rootLeft : classes.root left = left) (rootRight : classes.root right = right)
    (differ : left ≠ right) : linked.count + 1 = classes.count := by
  obtain ⟨loser, insideLoser, rootLoser, isLoser⟩ : ∃ loser, loser < classes.size ∧
      classes.root loser = loser ∧
        (winner = left ∧ loser = right ∨ winner = right ∧ loser = left) := by
    rcases links.winner_eq with isLeft | isRight
    · exact ⟨right, insideRight, rootRight, .inl ⟨isLeft, rfl⟩⟩
    · exact ⟨left, insideLeft, rootLeft, .inr ⟨isRight, rfl⟩⟩
  have erased : (Finset.range linked.size).filter (fun var => linked.root var = var) =
      ((Finset.range classes.size).filter fun var => classes.root var = var).erase loser := by
    ext var
    simp only [Finset.mem_filter, Finset.mem_erase, Finset.mem_range, links.size_eq, links.root_eq]
    split
    case isTrue among =>
      constructor
      · rintro ⟨inside, isWinner⟩
        subst isWinner
        refine ⟨?_, inside, ?_⟩
        · rcases isLoser with ⟨rfl, rfl⟩ | ⟨rfl, rfl⟩
          · exact differ
          · exact Ne.symm differ
        · rcases isLoser with ⟨rfl, rfl⟩ | ⟨rfl, rfl⟩
          · exact rootLeft
          · exact rootRight
      · rintro ⟨notLoser, inside, isRoot⟩
        rw [isRoot] at among
        refine ⟨inside, ?_⟩
        rcases isLoser with ⟨rfl, rfl⟩ | ⟨rfl, rfl⟩
        · exact (among.resolve_right notLoser).symm
        · exact (among.resolve_left notLoser).symm
    case isFalse neither =>
      constructor
      · rintro ⟨inside, isRoot⟩
        refine ⟨?_, inside, isRoot⟩
        rintro rfl
        apply neither
        rw [rootLoser]
        rcases isLoser with ⟨-, rfl⟩ | ⟨-, rfl⟩
        · exact .inr rfl
        · exact .inl rfl
      · rintro ⟨-, inside, isRoot⟩
        exact ⟨inside, isRoot⟩
  rw [count, erased, Finset.card_erase_add_one]
  · rfl
  · simp [insideLoser, rootLoser]

/-- A class that is joined from two demands what the two did, and that both are assigned the same,
once the pairs of parts are equated. -/
theorem Links.models_iff (links : Links classes left right bound linked winner)
    (rootLeft : classes.root left = left) (rootRight : classes.root right = right)
    {more : List (Var × Var)}
    (merged : (classes.boundOf left).merge? (classes.boundOf right) = some (bound, more))
    {T : Type} (frame : Frame T) (value : Var → T) :
    frame.Models value linked ∧ Frame.Equates value more ↔
      frame.Models value classes ∧ value left = value right := by
  have winner_root : linked.root left = winner ∧ linked.root right = winner := by
    simp [links.root_eq, rootLeft, rootRight]
  constructor
  · rintro ⟨models, equates⟩
    have sameLeft : value winner = value left := by
      rw [← winner_root.1]
      exact (models left).1
    have sameRight : value winner = value right := by
      rw [← winner_root.2]
      exact (models right).1
    refine ⟨?_, sameLeft.symm.trans sameRight⟩
    intro var
    have demands := models var
    rw [links.root_eq, links.bound_eq] at demands
    split at demands
    case isTrue among =>
      rw [if_pos rfl] at demands
      have both := (Frame.fits_merge?_iff merged).mp ⟨demands.2, equates⟩
      rcases among with isLeft | isRight
      · rw [isLeft]
        exact ⟨sameLeft.symm.trans demands.1, both.1⟩
      · rw [isRight]
        exact ⟨sameRight.symm.trans demands.1, both.2⟩
    case isFalse neither =>
      have notWinner : classes.root var ≠ winner := by
        intro isWinner
        rw [isWinner] at neither
        exact neither links.winner_eq
      rw [if_neg notWinner] at demands
      exact demands
  · rintro ⟨models, same⟩
    have fitsLeft := (models left).2
    have fitsRight := (models right).2
    rw [rootLeft, same] at fitsLeft
    rw [rootRight] at fitsRight
    rcases (Frame.fits_merge?_iff merged).mpr ⟨fitsLeft, fitsRight⟩ with ⟨fits, equates⟩
    refine ⟨?_, equates⟩
    have sameWinner : value winner = value right := by
      rcases links.winner_eq with isLeft | isRight
      · rw [isLeft]
        exact same
      · rw [isRight]
    intro var
    have demands := models var
    rw [links.root_eq, links.bound_eq]
    split
    case isTrue among =>
      have sameVar : value right = value var := by
        rcases among with isLeft | isRight
        · rw [← same, ← isLeft]
          exact demands.1
        · rw [← isRight]
          exact demands.1
      rw [if_pos rfl, ← sameVar]
      exact ⟨sameWinner, fits⟩
    case isFalse neither =>
      have notWinner : classes.root var ≠ winner := by
        intro isWinner
        rw [isWinner] at neither
        exact neither links.winner_eq
      rw [if_neg notWinner]
      exact demands

end Forest

theorem parts_of_merge? {left right bound : Bound} {more : List (Var × Var)}
    (merged : left.merge? right = some (bound, more)) {size : Nat}
    (insideLeft : ∀ part ∈ left.parts, part < size)
    (insideRight : ∀ part ∈ right.parts, part < size) :
    (∀ part ∈ bound.parts, part < size) ∧ ∀ pair ∈ more, pair.1 < size ∧ pair.2 < size := by
  cases left <;> cases right <;> simp only [Bound.merge?, reduceCtorEq] at merged <;>
    cases merged <;> simp_all [Bound.parts]

theorem length_of_merge? {left right bound : Bound} {more : List (Var × Var)}
    (merged : left.merge? right = some (bound, more)) : more.length ≤ 2 := by
  cases left <;> cases right <;> simp only [Bound.merge?, reduceCtorEq] at merged <;>
    cases merged <;> simp

/-- Classes that demand what others do and that pairs are equated besides. -/
structure Unifies (classes : Classes) (work : List (Var × Var)) (unified : Classes) : Prop where
  forest : unified.Forest
  size_eq : unified.size = classes.size
  models_iff : ∀ {T : Type} (frame : Frame T) (value : Var → T),
    frame.Models value unified ↔ frame.Models value classes ∧ Frame.Equates value work

/-- What unifying pairs may come to: classes that demand it besides, or an error if there are no
models that equate all pairs. -/
def UnifiesOrFails (node : Nat) (classes : Classes) (work : List (Var × Var))
    (result : Except TypeError Classes) : Prop :=
  (∃ unified, result = .ok unified ∧ Unifies classes work unified) ∨
    (∃ left right, result = .error (.unify node left right)) ∧
      ∀ {T : Type} (frame : Frame T) (value : Var → T), frame.Models value classes →
        ¬ Frame.Equates value work

/-- Other classes and pairs with the same models may be unified instead. -/
theorem UnifiesOrFails.of_models_iff {node : Nat} {classes classes' : Classes}
    {work work' : List (Var × Var)} {result : Except TypeError Classes}
    (outcome : UnifiesOrFails node classes' work' result) (size_eq : classes'.size = classes.size)
    (same : ∀ {T : Type} (frame : Frame T) (value : Var → T),
      frame.Models value classes' ∧ Frame.Equates value work' ↔
        frame.Models value classes ∧ Frame.Equates value work) :
    UnifiesOrFails node classes work result := by
  rcases outcome with ⟨unified, ran, unifies⟩ | ⟨ran, fails⟩
  · refine .inl ⟨unified, ran, unifies.forest, unifies.size_eq.trans size_eq, ?_⟩
    intro T frame value
    rw [unifies.models_iff, same]
  · refine .inr ⟨ran, ?_⟩
    intro T frame value models equates
    have both := (same frame value).mpr ⟨models, equates⟩
    exact fails frame value both.1 both.2

section Step

variable {classes : Classes} {left right : Var} {work : List (Var × Var)}

/-- A pair whose variables have the same root is equated already. -/
theorem models_iff_of_sameRoot (sameRoot : classes.root left = classes.root right) {T : Type}
    (frame : Frame T) (value : Var → T) :
    frame.Models value classes ∧ Frame.Equates value work ↔
      frame.Models value classes ∧ Frame.Equates value ((left, right) :: work) := by
  rw [Frame.equates_cons]
  constructor
  · rintro ⟨models, equates⟩
    have same : value left = value right := by
      rw [← (models left).1, ← (models right).1, sameRoot]
    exact ⟨models, same, equates⟩
  · rintro ⟨models, -, equates⟩
    exact ⟨models, equates⟩

/-- A pair whose roots have bounds that do not go together cannot be equated. -/
theorem not_equates_of_clash
    (clash : (classes.boundOf (classes.root left)).merge? (classes.boundOf (classes.root right)) =
      none) {T : Type} (frame : Frame T) (value : Var → T) (models : frame.Models value classes) :
    ¬ Frame.Equates value ((left, right) :: work) := by
  intro equates
  have same : value left = value right := (Frame.equates_cons.mp equates).1
  have fitsLeft := (models left).2
  have fitsRight := (models right).2
  rw [same] at fitsLeft
  exact Frame.not_fits_of_merge?_eq_none clash fitsLeft fitsRight

/-- Linking the roots of a pair equates it, up to the pairs that are left by merging the bounds. -/
theorem models_iff_of_links {linked : Classes} {bound : Bound} {more : List (Var × Var)}
    {winner : Var} (forest : classes.Forest)
    (links : Forest.Links classes (classes.root left) (classes.root right) bound linked winner)
    (merged : (classes.boundOf (classes.root left)).merge? (classes.boundOf (classes.root right)) =
      some (bound, more)) {T : Type} (frame : Frame T) (value : Var → T) :
    frame.Models value linked ∧ Frame.Equates value (more ++ work) ↔
      frame.Models value classes ∧ Frame.Equates value ((left, right) :: work) := by
  have values : frame.Models value classes →
      (value (classes.root left) = value (classes.root right) ↔ value left = value right) := by
    intro models
    rw [(models left).1, (models right).1]
  rw [Frame.equates_append, ← and_assoc,
    links.models_iff (forest.root_root left) (forest.root_root right) merged, Frame.equates_cons]
  constructor
  · rintro ⟨⟨models, same⟩, equates⟩
    exact ⟨models, (values models).mp same, equates⟩
  · rintro ⟨models, same, equates⟩
    exact ⟨⟨models, (values models).mpr same⟩, equates⟩

end Step

/-- Unification narrows the models down to those that equate all pairs, or there are none. Each pair
either needs nothing or leaves one class less, at the price of two more pairs. -/
theorem unifyAll_spec (node : Nat) {fuel : Nat} {work : List (Var × Var)} {classes : Classes}
    (forest : classes.Forest)
    (inside : ∀ pair ∈ work, pair.1 < classes.size ∧ pair.2 < classes.size)
    (enough : work.length + 2 * classes.count ≤ fuel) :
    UnifiesOrFails node classes work (unifyAll node fuel work classes) := by
  induction fuel generalizing work classes with
  | zero =>
      have isNil : work = [] := List.length_eq_zero_iff.mp (by omega)
      subst isNil
      exact .inl ⟨classes, rfl, forest, rfl, by simp⟩
  | succ fuel ih =>
      rcases work with _ | ⟨⟨left, right⟩, work⟩
      · exact .inl ⟨classes, rfl, forest, rfl, by simp⟩
      rcases forest.find_spec left with ⟨first_eq, first⟩
      rcases first.forest.find_spec right with ⟨second_eq, second⟩
      have agrees := first.trans second
      have sameModels : ∀ {T : Type} (frame : Frame T) (value : Var → T),
          frame.Models value ((classes.find left).2.find right).2 ∧
              Frame.Equates value ((left, right) :: work) ↔
            frame.Models value classes ∧ Frame.Equates value ((left, right) :: work) := by
        intro T frame value
        rw [models_of_agrees agrees frame value]
      apply UnifiesOrFails.of_models_iff _ agrees.size_eq sameModels
      simp only [unifyAll, first_eq, second_eq, first.root_eq, ← agrees.root_eq]
      rw [← agrees.size_eq, List.forall_mem_cons] at inside
      rw [← agrees.count_eq, List.length_cons] at enough
      -- Only the classes with shortened paths matter from here on.
      have forest := agrees.forest
      generalize ((classes.find left).2.find right).2 = found at forest inside enough ⊢
      rcases inside with ⟨⟨insideLeft, insideRight⟩, inside⟩
      split
      case isTrue sameRoot =>
        apply UnifiesOrFails.of_models_iff _ rfl (models_iff_of_sameRoot sameRoot)
        exact ih forest inside (by omega)
      case isFalse differ =>
        have rootLeft := forest.root_root left
        have rootRight := forest.root_root right
        have rootInsideLeft := forest.root_lt insideLeft
        have rootInsideRight := forest.root_lt insideRight
        split
        case h_1 clash => exact .inr ⟨⟨_, _, rfl⟩, not_equates_of_clash clash⟩
        case h_2 bound more merged =>
          rcases parts_of_merge? merged (forest.parts_lt _ rootInsideLeft)
            (forest.parts_lt _ rootInsideRight) with ⟨parts_lt, more_lt⟩
          rcases forest.link_spec rootInsideLeft rootInsideRight rootLeft rootRight differ
            parts_lt with ⟨winner, links⟩
          have fewer := links.count_eq rootInsideLeft rootInsideRight rootLeft rootRight differ
          have short := length_of_merge? merged
          apply UnifiesOrFails.of_models_iff _ links.size_eq
            (models_iff_of_links forest links merged)
          apply ih links.forest
          · rw [links.size_eq, List.forall_mem_append]
            exact ⟨more_lt, inside⟩
          · rw [List.length_append]
            omega

/-- Two variables are unified, or cannot be assigned the same. -/
theorem unify_spec (node : Nat) {classes : Classes} (forest : classes.Forest) {left right : Var}
    (insideLeft : left < classes.size) (insideRight : right < classes.size) :
    (∃ unified, classes.unify left right node = .ok unified ∧
        Unifies classes [(left, right)] unified) ∨
      (∃ leftShape rightShape,
          classes.unify left right node = .error (.unify node leftShape rightShape)) ∧
        ∀ {T : Type} (frame : Frame T) (value : Var → T), frame.Models value classes →
          value left ≠ value right := by
  have enough : [(left, right)].length + 2 * classes.count ≤ 2 * classes.size + 1 := by
    have := classes.count_le_size
    simp only [List.length_singleton]
    omega
  simpa [UnifiesOrFails, Frame.Equates, unify] using
    unifyAll_spec node forest (by simp [insideLeft, insideRight]) enough

theorem models_empty {T : Type} (frame : Frame T) (value : Var → T) :
    frame.Models value .empty := by
  intro var
  have isRoot : empty.root var = var := Forest.root_of_size_le (Nat.zero_le _)
  rw [isRoot]
  exact ⟨rfl, by simp [boundOf, empty, Frame.Fits]⟩

theorem Forest.empty : Classes.empty.Forest := by
  constructor <;> simp [Classes.empty, size]

/-- A new variable is assigned what its bound fits, and that is all it demands. -/
theorem models_push {classes : Classes} (forest : classes.Forest) {bound : Bound}
    (parts_lt : ∀ part ∈ bound.parts, part < classes.size) {T : Type} (frame : Frame T)
    (value : Var → T) :
    frame.Models value (classes.push bound) ↔
      frame.Models value classes ∧ frame.Fits value bound (value classes.size) := by
  have newRoot : classes.root classes.size = classes.size := Forest.root_of_size_le (Nat.le_refl _)
  have rootNew : ∀ {var}, classes.root var = classes.size → var = classes.size := by
    intro var isNew
    rcases Nat.lt_or_ge var classes.size with old | past
    · exact absurd isNew (Nat.ne_of_lt (forest.root_lt old))
    · rw [Forest.root_of_size_le past] at isNew
      exact isNew
  simp only [Frame.Models, forest.root_push parts_lt, forest.boundOf_push]
  constructor
  · intro models
    have demands := models classes.size
    rw [newRoot, if_pos rfl] at demands
    refine ⟨?_, demands.2⟩
    intro var
    have demands := models var
    split at demands
    case isTrue isNew =>
      refine ⟨demands.1, ?_⟩
      rw [isNew, boundOf_of_size_le (Nat.le_of_eq forest.bound_size)]
      trivial
    case isFalse => exact demands
  · rintro ⟨models, fits⟩ var
    refine ⟨(models var).1, ?_⟩
    split
    case isTrue isNew =>
      rw [rootNew isNew]
      exact fits
    case isFalse => exact (models var).2

end Classes

end Simplicity.Typing
