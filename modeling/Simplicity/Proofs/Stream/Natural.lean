import Mathlib.Algebra.Ring.Nat
import Simplicity.Proofs.Stream.Recognition
import Simplicity.Stream.Natural

/-!
# The code for positive integers is canonical

The code of a number is a row of ones, a zero, and the low bits of one number after another, each
of which is the logarithm of the next. The writer builds the row from the outside, by recursion on
the number; the decoder counts the ones first and then climbs from one number to the next. Both
are compared with the climb: `Climbs count start value written` says that `count` levels lead from
`start` to `value` and take the bits `written`.

The decoder stops a climb at a logarithm above 30, and gives up at the fifth one. The first of these
is what keeps a number in range, and no number in range needs a fifth one.
-/

namespace Simplicity

/-- The code of a number as a list of bits. -/
def naturalBits (value : Nat) : List Bool :=
  if value ≤ 1 then [false]
  else true :: (naturalBits value.log2 ++ BitString.lowBits value value.log2)
termination_by value
decreasing_by exact (Nat.log2_lt (by omega)).2 Nat.lt_two_pow_self

/-- The number of ones in front of the code of a number. -/
def naturalDepth (value : Nat) : Nat :=
  if value ≤ 1 then 0 else naturalDepth value.log2 + 1
termination_by value
decreasing_by exact (Nat.log2_lt (by omega)).2 Nat.lt_two_pow_self

/-- The bits of the code of a number that come after the first zero. -/
def naturalTail (value : Nat) : List Bool :=
  if value ≤ 1 then [] else naturalTail value.log2 ++ BitString.lowBits value value.log2
termination_by value
decreasing_by exact (Nat.log2_lt (by omega)).2 Nat.lt_two_pow_self

theorem log2_lt_self {value : Nat} (large : ¬ value ≤ 1) : value.log2 < value :=
  (Nat.log2_lt (by omega)).2 Nat.lt_two_pow_self

theorem log2_pos {value : Nat} (large : ¬ value ≤ 1) : 0 < value.log2 :=
  (Nat.le_log2 (by omega)).2 (by omega)

theorem naturalBits_eq (value : Nat) :
    naturalBits value =
      List.replicate (naturalDepth value) true ++ false :: naturalTail value := by
  induction value using Nat.strongRecOn with
  | ind value ih =>
      rw [naturalBits, naturalDepth, naturalTail]
      split
      · rfl
      · rename_i large
        rw [ih _ (log2_lt_self large), List.replicate_succ]
        simp

namespace BitString

@[simp]
theorem toList_appendCode (out : BitString) (value : Nat) :
    (out.appendCode value).toList = out.toList ++ naturalBits value := by
  induction value using Nat.strongRecOn generalizing out with
  | ind value ih =>
      rw [appendCode, naturalBits]
      split
      · simp
      · rename_i large
        rw [toList_appendBits, ih _ (log2_lt_self large)]
        simp

theorem appendNatural_eq_ok_iff (out : BitString) (value : Nat) (field : Field)
    (result : BitString) :
    out.appendNatural value field = .ok result ↔
      (0 < value ∧ value ≤ maxNatural) ∧ result.toList = out.toList ++ naturalBits value := by
  simp only [appendNatural]
  split
  case isTrue outside =>
    constructor
    · intro impossible
      cases impossible
    · rintro ⟨⟨positive, small⟩, -⟩
      omega
  case isFalse inside =>
    rw [← toList_appendCode, toList_inj]
    constructor
    · intro succeeds
      cases succeeds
      exact ⟨by omega, rfl⟩
    · rintro ⟨-, rfl⟩
      rfl

end BitString

/-- `count` levels lead from one number to another: each number on the way is the logarithm of the
next, whose low bits are written. -/
def Climbs : (count start value : Nat) → List Bool → Prop
  | 0, start, value, written => value = start ∧ written = []
  | count + 1, start, value, written =>
      start ≤ 30 ∧ ∃ low front back, (low < 2 ^ start ∧ front = BitString.lowBits low start) ∧
        Climbs count (2 ^ start + low) value back ∧ written = front ++ back

namespace Decoder

theorem ones_recognizes (field : Field) (allowed : Nat) :
    (ones field allowed).Recognizes fun value written =>
      value ≤ allowed ∧ written = List.replicate value true ++ [false] := by
  induction allowed with
  | zero =>
      rw [ones]
      refine ((bit_recognizes field).cond (Recognizes.throw _) (Recognizes.pure 0)).congr ?_
      intro value written
      constructor
      · rintro (⟨_, -, impossible⟩ | ⟨_, rfl, rfl, rfl⟩)
        · exact impossible.elim
        · exact ⟨Nat.le_refl 0, rfl⟩
      · rintro ⟨within, rfl⟩
        have noneRead : value = 0 := Nat.le_zero.mp within
        subst noneRead
        exact .inr ⟨[], rfl, rfl, rfl⟩
  | succ allowed ih =>
      rw [ones]
      refine ((bit_recognizes field).cond (ih.bind fun count _ => Recognizes.pure (count + 1))
        (Recognizes.pure 0)).congr ?_
      intro value written
      constructor
      · rintro (⟨_, rfl, count, _, _, ⟨within, rfl⟩, ⟨rfl, rfl⟩, rfl⟩ | ⟨_, rfl, rfl, rfl⟩)
        · exact ⟨by omega, by simp [List.replicate_succ]⟩
        · exact ⟨Nat.zero_le _, rfl⟩
      · rintro ⟨within, rfl⟩
        cases value with
        | zero => exact .inr ⟨[], rfl, rfl, rfl⟩
        | succ count =>
            left
            exact ⟨_, rfl, count, _, [], ⟨by omega, rfl⟩, ⟨rfl, rfl⟩, (List.append_nil _).symm⟩

theorem levels_recognizes (field : Field) (count start : Nat) :
    (levels field count start).Recognizes (Climbs count start) := by
  induction count generalizing start with
  | zero =>
      rw [levels]
      exact Recognizes.pure start
  | succ count ih =>
      rw [levels]
      by_cases high : 30 < start
      · rw [if_pos high]
        refine (Recognizes.throw _).congr ?_
        intro value written
        simp only [Climbs, false_iff]
        omega
      · rw [if_neg high]
        refine ((bits_recognizes start field).bind fun low _ => ih (1 <<< start + low)).congr ?_
        intro value written
        rw [Nat.one_shiftLeft]
        simp only [Climbs]
        have low : start ≤ 30 := by omega
        simp [low]

end Decoder

theorem log2_two_pow_add {exponent low : Nat} (small : low < 2 ^ exponent) :
    (2 ^ exponent + low).log2 = exponent := by
  rw [Nat.log2_eq_iff (by omega), Nat.pow_succ]
  omega

/-- A number consists of a leading bit at the place of its logarithm and of what is below. -/
theorem exists_two_pow_add {value : Nat} (positive : value ≠ 0) :
    ∃ low, low < 2 ^ value.log2 ∧ value = 2 ^ value.log2 + low := by
  have lower := Nat.log2_self_le positive
  have upper : value < 2 ^ (value.log2 + 1) := Nat.lt_log2_self
  rw [Nat.pow_succ] at upper
  exact ⟨value - 2 ^ value.log2, by omega, by omega⟩

/-- The last level of a climb. The decoder takes levels from the front, and the recursion of the
code from the back. -/
theorem climbs_succ_iff (count start value : Nat) (written : List Bool) :
    Climbs (count + 1) start value written ↔
      ∃ middle front, Climbs count start middle front ∧ middle ≤ 30 ∧
        (value ≠ 0 ∧ value.log2 = middle) ∧
        written = front ++ BitString.lowBits value middle := by
  induction count generalizing start written with
  | zero =>
      constructor
      · rintro ⟨within, low, front, back, ⟨small, rfl⟩, ⟨rfl, rfl⟩, rfl⟩
        refine ⟨start, [], ⟨rfl, rfl⟩, within, ⟨by have := Nat.two_pow_pos start; omega,
          log2_two_pow_add small⟩, ?_⟩
        rw [BitString.lowBits_two_pow_add]
        simp
      · rintro ⟨middle, front, ⟨rfl, rfl⟩, within, ⟨positive, rfl⟩, rfl⟩
        rcases exists_two_pow_add positive with ⟨low, small, split⟩
        refine ⟨within, low, _, [], ⟨small, rfl⟩, ⟨split, rfl⟩, ?_⟩
        rw [split, log2_two_pow_add small, BitString.lowBits_two_pow_add]
        simp
  | succ count ih =>
      constructor
      · rintro ⟨within, low, front, back, low_bits, climbs, rfl⟩
        rcases (ih _ _).mp climbs with ⟨middle, front', climbs', within', top, rfl⟩
        exact ⟨middle, front ++ front', ⟨within, low, front, front', low_bits, climbs', rfl⟩,
          within', top, by simp⟩
      · rintro ⟨middle, _, ⟨within, low, front, front', low_bits, climbs', rfl⟩, within', top, rfl⟩
        refine ⟨within, low, front, front' ++ BitString.lowBits value middle, low_bits, ?_,
          by simp⟩
        exact (ih _ _).mpr ⟨middle, front', climbs', within', top, rfl⟩

theorem le_maxNatural_iff {value : Nat} (positive : value ≠ 0) :
    value ≤ maxNatural ↔ value.log2 ≤ 30 := by
  have bound := Nat.log2_lt (k := 31) positive
  rw [show (2 : Nat) ^ 31 = maxNatural + 1 by rfl] at bound
  omega

/-- From one on a climb is the tail of a code, and its levels are the ones in front of it. -/
theorem climbs_one_iff (count value : Nat) (written : List Bool) :
    Climbs count 1 value written ↔
      (0 < value ∧ value ≤ maxNatural) ∧ count = naturalDepth value ∧
        written = naturalTail value := by
  induction count generalizing value written with
  | zero =>
      rw [naturalDepth, naturalTail]
      constructor
      · rintro ⟨rfl, rfl⟩
        exact ⟨by decide, rfl, rfl⟩
      · rintro ⟨⟨positive, -⟩, flat, tail⟩
        split at flat
        case isTrue small =>
          rw [if_pos small] at tail
          exact ⟨by omega, tail⟩
        case isFalse => omega
  | succ count ih =>
      rw [climbs_succ_iff, naturalDepth, naturalTail]
      constructor
      · rintro ⟨middle, front, climbs, within, ⟨nonzero, rfl⟩, rfl⟩
        rcases (ih _ _).mp climbs with ⟨⟨positive, -⟩, depth, rfl⟩
        have large : ¬ value ≤ 1 := by
          intro small
          have one : value = 1 := by omega
          subst one
          exact absurd positive (by decide)
        rw [if_neg large, if_neg large]
        exact ⟨⟨by omega, (le_maxNatural_iff nonzero).mpr within⟩, by omega, rfl⟩
      · rintro ⟨⟨positive, small⟩, depth, rfl⟩
        have nonzero : value ≠ 0 := by omega
        have large : ¬ value ≤ 1 := by
          intro atMost
          rw [if_pos atMost] at depth
          omega
        have within := (le_maxNatural_iff nonzero).mp small
        rw [if_neg large] at depth ⊢
        refine ⟨value.log2, naturalTail value.log2, ?_, within, ⟨nonzero, rfl⟩, rfl⟩
        rw [ih]
        refine ⟨⟨log2_pos large, ?_⟩, by omega, rfl⟩
        exact Nat.le_trans within (by decide)

theorem naturalDepth_le_of_lt_two_pow {bound depth : Nat}
    (lower : ∀ value < bound, naturalDepth value ≤ depth) :
    ∀ value < 2 ^ bound, naturalDepth value ≤ depth + 1 := by
  intro value small
  rw [naturalDepth]
  split
  · omega
  · rename_i large
    exact Nat.succ_le_succ (lower _ ((Nat.log2_lt (by omega)).mpr small))

theorem naturalDepth_le_maxNesting {value : Nat} (small : value ≤ maxNatural) :
    naturalDepth value ≤ maxNesting := by
  have noOnes : ∀ value < 2, naturalDepth value ≤ 0 := by
    intro value small
    exact Nat.le_of_eq (by rw [naturalDepth, if_pos (by omega)])
  have three := naturalDepth_le_of_lt_two_pow
    (naturalDepth_le_of_lt_two_pow (naturalDepth_le_of_lt_two_pow noOnes))
  have fewer : ∀ value < 31, naturalDepth value ≤ 3 := by
    intro value below
    exact three value (Nat.lt_of_lt_of_le below (by decide))
  exact naturalDepth_le_of_lt_two_pow fewer value (Nat.lt_of_le_of_lt small (by decide))

/-- The decoder reads exactly the codes of the numbers in range. -/
theorem Decoder.natural_recognizes (field : Field) :
    (Decoder.natural field).Recognizes fun value written =>
      (0 < value ∧ value ≤ maxNatural) ∧ written = naturalBits value := by
  refine ((ones_recognizes field maxNesting).bind fun count _ =>
    levels_recognizes field count 1).congr ?_
  intro value written
  rw [naturalBits_eq]
  constructor
  · rintro ⟨count, front, back, ⟨-, rfl⟩, climbs, rfl⟩
    rcases (climbs_one_iff _ _ _).mp climbs with ⟨inRange, rfl, rfl⟩
    exact ⟨inRange, by simp⟩
  · rintro ⟨inRange, rfl⟩
    refine ⟨naturalDepth value, _, naturalTail value,
      ⟨naturalDepth_le_maxNesting inRange.2, rfl⟩, ?_, by simp⟩
    exact (climbs_one_iff _ _ _).mpr ⟨inRange, rfl, rfl⟩

end Simplicity
