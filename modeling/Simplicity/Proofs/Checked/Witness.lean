import Simplicity.Proofs.Checked.Expression
import Simplicity.Proofs.Value.Inversion

/-!
# Checked witnesses

A witness is read against an expression that may be any, and it may afterwards be asked for its values
at another one. Reading a value off bits goes no further than there are bits, so what is left over when
it is done is not below zero.
-/

namespace Simplicity

namespace Checked

/-! ### Reading witnesses -/

def decodeWitness (bytes : ByteArray) (expression : Expression) (limits : Limits) :
    Attempt Error Witness := do
  Attempt.of limits.check
  if limits.maxWitnessBytes < bytes.size then
    throw (.inputTooLarge .witness bytes.size limits.maxWitnessBytes)
  let (values, cursor) ←
    runReader (Reading.readValues expression expression.witnessNodes []) (.ofBytes bytes)
  (finishStream cursor .witness).adapt fun
    | .trailingBytes _ consumed _ => .witnessLength cursor.source.length consumed
    | cause => .malformed cause
  return ⟨values⟩

/-- Whatever the bytes and the expression are, decoding a witness never faults. -/
theorem decodeWitness_eq (bytes : ByteArray) (expression : Expression) (limits : Limits) :
    decodeWitness bytes expression limits = .of (Witness.decode bytes expression limits) := by
  rw [decodeWitness, Witness.decode, Attempt.of_bind]
  congr 1
  funext checked
  split
  case isTrue => rfl
  case isFalse =>
    simp only [Reading.readValues_eq, runReader_eq]
    cases Witness.readValues expression expression.witnessNodes [] (.ofBytes bytes) with
    | error error cursor => rfl
    | ok values cursor =>
        simp only [pure_bind, finishStream_eq]
        cases cursor.finish .witness with
        | error error => cases error <;> rfl
        | ok found => rfl

/-! ### Values -/

def bitAt? (bits : BitString) (index : Nat) : Checked (Option Bool) := do
  if index < bits.length then
    return some (← bitAt bits.bytes index)
  else
    return none

def readAll (bits : BitString) :
    List Value.Step → List Value → (consumed : Nat) → Attempt Value.Error (List Value × Nat)
  | [], values, consumed => return (values, consumed)
  | .decode ty :: steps, values, consumed =>
    if ty.width = 0 then
      readAll bits steps (.unit :: values) consumed
    else
      match ty with
      | .unit => readAll bits steps (.unit :: values) consumed
      | .sum leftTy rightTy => do
          match ← bitAt? bits consumed with
          | none => throw (.endOfBits consumed)
          | some false => readAll bits (.decode leftTy :: .wrapLeft :: steps) values (consumed + 1)
          | some true => readAll bits (.decode rightTy :: .wrapRight :: steps) values (consumed + 1)
      | .prod firstTy secondTy =>
          readAll bits (.decode firstTy :: .decode secondTy :: .pair :: steps) values consumed
  | .wrapLeft :: steps, values, consumed => do
      let (inner, values) ← Attempt.of (Value.pop values)
      readAll bits steps (.left inner :: values) consumed
  | .wrapRight :: steps, values, consumed => do
      let (inner, values) ← Attempt.of (Value.pop values)
      readAll bits steps (.right inner :: values) consumed
  | .pair :: steps, values, consumed => do
      let (second, values) ← Attempt.of (Value.pop values)
      let (first, values) ← Attempt.of (Value.pop values)
      readAll bits steps (.pair first second :: values) consumed
termination_by steps => stackWeight Value.Step.weight steps
decreasing_by
  all_goals simp only [stackWeight, Value.Step.weight, Ty.sum.sizeOf_spec, Ty.prod.sizeOf_spec,
    Ty.unit.sizeOf_spec]
  all_goals omega

def valueOfBits (bits : BitString) (ty : Ty) : Attempt Value.Error Value := do
  let (values, consumed) ← readAll bits [.decode ty] [] 0
  let unused ← minus bits.length consumed
  if 0 < unused then
    throw (.trailingBits unused)
  let (value, _) ← Attempt.of (Value.pop values)
  return value

def valuesOf (witness : Witness) (expression : Expression) : Attempt Error (List Value) := do
  Attempt.of (witness.checkCount expression)
  (expression.witnessNodes.zip witness.values).mapM fun (node, bits) => do
    let ty ← Attempt.of (Witness.targetOf expression node)
    (valueOfBits bits ty).adapt fun _ => .witnessType node

theorem bitAt?_eq (bits : BitString) (index : Nat) : bitAt? bits index = pure (bits.get? index) := by
  rw [bitAt?, BitString.get?]
  split
  case isTrue inside =>
    have inByte := bits.div_lt_size inside
    rw [bitAt_eq inByte, Simplicity.bitAt, dif_pos inByte]
    rfl
  case isFalse => rfl

theorem readAll_eq (bits : BitString) (steps : List Value.Step) (values : List Value)
    (consumed : Nat) :
    readAll bits steps values consumed = .of (Value.readAll bits steps values consumed) := by
  fun_induction Value.readAll bits steps values consumed with
  | case1 values consumed =>
      rw [readAll]
      rfl
  | case2 ty steps values consumed narrow ih => cases ty <;> rw [readAll, if_pos narrow, ih]
  | case3 steps values consumed wide => exact absurd rfl wide
  | case4 steps values consumed leftTy rightTy ended wide =>
      rw [readAll, if_neg wide]
      simp only [bitAt?_eq, ended, liftM_pure, pure_bind]
      rfl
  | case5 steps values consumed leftTy rightTy found wide ih =>
      rw [readAll, if_neg wide]
      simp only [bitAt?_eq, found, liftM_pure, pure_bind, ih]
  | case6 steps values consumed leftTy rightTy found wide ih =>
      rw [readAll, if_neg wide]
      simp only [bitAt?_eq, found, liftM_pure, pure_bind, ih]
  | case7 steps values consumed firstTy secondTy wide ih => rw [readAll, if_neg wide, ih]
  | case8 steps values consumed ih =>
      rw [readAll]
      simp only [ih, Attempt.of_bind]
  | case9 steps values consumed ih =>
      rw [readAll]
      simp only [ih, Attempt.of_bind]
  | case10 steps values consumed ih =>
      rw [readAll]
      simp only [ih, Attempt.of_bind]

theorem consumed_le_of_readAll {bits : BitString} {ty : Ty} {values : List Value} {consumed : Nat}
    (ran : Value.readAll bits [.decode ty] [] 0 = .ok (values, consumed)) :
    consumed ≤ bits.length := by
  rcases Value.starts_or_readAll_ends bits ty (Nat.zero_le _) with
    ⟨value, written, encodes, starts⟩ | ⟨-, ends⟩
  · rw [Value.readAll_of_encodes encodes starts, Value.readAll] at ran
    cases ran
    simpa using starts.length_le
  · rw [ends] at ran
    cases ran

theorem valueOfBits_eq (bits : BitString) (ty : Ty) :
    valueOfBits bits ty = .of (Value.ofBits bits ty) := by
  rw [valueOfBits, Value.ofBits, readAll_eq, Attempt.of_bind]
  cases ran : Value.readAll bits [.decode ty] [] 0 with
  | error error => rfl
  | ok result =>
      rcases result with ⟨values, consumed⟩
      have le := consumed_le_of_readAll ran
      simp only [Attempt.of_ok, pure_bind, minus_eq le, liftM_pure]
      split
      · rfl
      · simp only [Attempt.of_bind, Attempt.of_pure]

theorem valuesOf_eq (witness : Witness) (expression : Expression) :
    valuesOf witness expression = .of (witness.toValues expression) := by
  rw [valuesOf, Witness.toValues, Attempt.of_bind]
  congr 1
  funext checked
  apply Attempt.mapM_eq_of
  rintro ⟨node, bits⟩
  simp only [Witness.decodeValue, Attempt.of_bind]
  congr 1
  funext ty
  rw [valueOfBits_eq]
  cases Value.ofBits bits ty <;> rfl

end Checked

end Simplicity
