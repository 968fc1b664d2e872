import Simplicity.Proofs.Expression.Encoding
import Simplicity.Proofs.Program.Sharing
import Simplicity.Proofs.Witness.Encoding

/-!
# Limits only filter

Four limits are looked at in three stages of decoding, and each stage may fail for other reasons before
it looks at a limit or after. Still, what comes out within limits is what comes out within the loosest
ones, unless it is the complaint that a limit is exceeded: `Filters` relates the two outcomes, and
passes from the stages to the whole.

A program that is decoded within the loosest limits is decoded within others if it keeps to them. So
whatever is accepted within limits is accepted within wider ones, as the same program.
-/

namespace Simplicity

/-- The error says that a limit is exceeded. -/
def Error.exceedsLimit : Error → Bool
  | .inputTooLarge _ _ _ | .tooManyNodes _ _ | .costExceeded _ _ => true
  | _ => false

namespace Limits

/-- The highest limit of a size, one less than two to the power 64. -/
def maxSize : Nat :=
  18446744073709551615

/-- Limits that are as high as can be, without a budget. -/
def loosest : Limits where
  maxNodes := maxSize
  maxProgramBytes := maxSize
  maxWitnessBytes := maxSize
  costBudget := none

/-- No size is limited by more than the highest limit. -/
structure Representable (limits : Limits) : Prop where
  maxNodes : limits.maxNodes ≤ maxSize
  maxProgramBytes : limits.maxProgramBytes ≤ maxSize
  maxWitnessBytes : limits.maxWitnessBytes ≤ maxSize

/-- No limit is tighter, and there is a budget only where there was one. -/
structure Within (limits wider : Limits) : Prop where
  maxNodes : limits.maxNodes ≤ wider.maxNodes
  maxProgramBytes : limits.maxProgramBytes ≤ wider.maxProgramBytes
  maxWitnessBytes : limits.maxWitnessBytes ≤ wider.maxWitnessBytes
  costBudget : ∀ budget, wider.costBudget = some budget →
    ∃ tighter, limits.costBudget = some tighter ∧ tighter ≤ budget

/-- A cost is within the budget, if there is one. -/
def Affords (limits : Limits) (cost : Cost) : Prop :=
  ∀ budget, limits.costBudget = some budget → cost.milli ≤ budget

variable {limits wider : Limits} {cost : Cost}

theorem validate_eq_ok_iff : limits.validate = .ok () ↔
    (0 < limits.maxNodes ∧ 0 < limits.maxProgramBytes ∧ 0 < limits.maxWitnessBytes) ∧
      limits.costBudget ≠ some 0 := by
  simp only [validate]
  split
  · simp_all
  split
  · simp_all
  split
  · simp_all
  split
  · simp_all
  · simp_all [Nat.pos_iff_ne_zero]

theorem Within.validate (within : limits.Within wider) (valid : limits.validate = .ok ()) :
    wider.validate = .ok () := by
  rw [validate_eq_ok_iff] at valid ⊢
  rcases valid with ⟨⟨nodes, program, witness⟩, budget⟩
  refine ⟨⟨Nat.lt_of_lt_of_le nodes within.maxNodes,
    Nat.lt_of_lt_of_le program within.maxProgramBytes,
    Nat.lt_of_lt_of_le witness within.maxWitnessBytes⟩, ?_⟩
  intro nothing
  rcases within.costBudget 0 nothing with ⟨tighter, isBudget, le⟩
  exact budget (Nat.le_zero.mp le ▸ isBudget)

theorem Within.affords (within : limits.Within wider) (affords : limits.Affords cost) :
    wider.Affords cost := by
  intro budget isBudget
  rcases within.costBudget budget isBudget with ⟨tighter, isTighter, le⟩
  exact Nat.le_trans (affords tighter isTighter) le

theorem check_of_valid (valid : limits.validate = .ok ()) : limits.check = .ok () := by
  rw [check, valid]
  rfl

theorem check_loosest : loosest.check = .ok () :=
  rfl

end Limits

/-- The outcome within limits is the one within others, or says that a limit is exceeded. -/
def Filters {α : Type} (limited loose : Except Error α) : Prop :=
  limited = loose ∨ ∃ error, limited = .error error ∧ error.exceedsLimit = true

namespace Filters

variable {α β : Type} {limited loose : Except Error α}

theorem refl (outcome : Except Error α) : Filters outcome outcome :=
  .inl rfl

theorem exceeded {error : Error} (exceeds : error.exceedsLimit = true) :
    Filters (.error error) loose :=
  .inr ⟨error, rfl, exceeds⟩

/-- One stage after another filters if both do. -/
theorem bind {next next' : α → Except Error β} (filters : Filters limited loose)
    (filtersNext : ∀ value, Filters (next value) (next' value)) :
    Filters (limited >>= next) (loose >>= next') := by
  rcases filters with rfl | ⟨error, rfl, exceeds⟩
  · cases limited with
    | error error => exact .refl _
    | ok value => exact filtersNext value
  · exact .exceeded exceeds

theorem eq_ok {value : α} (filters : Filters limited loose) (succeeds : limited = .ok value) :
    loose = .ok value := by
  rcases filters with rfl | ⟨error, rfl, -⟩
  · exact succeeds
  · cases succeeds

theorem eq_error {error : Error} (filters : Filters limited loose) (fails : limited = .error error) :
    loose = .error error ∨ error.exceedsLimit = true := by
  rcases filters with rfl | ⟨cause, rfl, exceeds⟩
  · exact .inl fails
  · cases fails
    exact .inr exceeds

end Filters

variable {limits : Limits}

namespace Expression

theorem readNodes_eq_or_tooManyNodes (representable : limits.Representable) (cursor : Cursor) :
    readNodes limits.maxNodes cursor = readNodes Limits.maxSize cursor ∨
      ∃ count rest, readNodes limits.maxNodes cursor =
        .error (.tooManyNodes count limits.maxNodes) rest := by
  simp only [readNodes, Bind.bind, EStateM.bind]
  cases (Decoder.natural .nodeCount).orReject cursor with
  | error error rest => exact .inl rfl
  | ok count rest =>
      by_cases tooMany : limits.maxNodes < count
      · right
        refine ⟨count, rest, ?_⟩
        simp only [tooMany, if_true]
        rfl
      · left
        have few : ¬ Limits.maxSize < count := by
          have := representable.maxNodes
          omega
        simp only [tooMany, few, if_false]

theorem decode_of_valid (valid : limits.validate = .ok ()) (bytes : ByteArray) :
    decode bytes limits =
      if limits.maxProgramBytes < bytes.size then
        .error (.inputTooLarge .program bytes.size limits.maxProgramBytes)
      else
        match readNodes limits.maxNodes (.ofBytes bytes) with
        | .error error _ => .error error
        | .ok nodes cursor =>
            (cursor.finish .program).mapError .malformed >>= fun _ => ofNodes nodes := by
  rw [decode, Limits.check_of_valid valid]
  by_cases large : limits.maxProgramBytes < bytes.size
  · simp only [large, if_true]
    rfl
  · simp only [large, if_false]
    rfl

theorem decode_filters (valid : limits.validate = .ok ()) (representable : limits.Representable)
    (bytes : ByteArray) : Filters (decode bytes limits) (decode bytes .loosest) := by
  rw [decode_of_valid valid, decode_of_valid rfl]
  rcases Nat.lt_or_ge limits.maxProgramBytes bytes.size with large | small
  · rw [if_pos large]
    exact .exceeded rfl
  · have small' : ¬ Limits.loosest.maxProgramBytes < bytes.size :=
      Nat.not_lt.mpr (Nat.le_trans small representable.maxProgramBytes)
    rw [if_neg (Nat.not_lt.mpr small), if_neg small']
    rcases readNodes_eq_or_tooManyNodes representable (.ofBytes bytes) with
      same | ⟨count, rest, tooMany⟩
    · rw [same]
      exact .refl _
    · rw [tooMany]
      exact .exceeded rfl

theorem decode_of_loosest {bytes : ByteArray} {expression : Expression}
    (valid : limits.validate = .ok ()) (small : bytes.size ≤ limits.maxProgramBytes)
    (within : expression.size ≤ limits.maxNodes)
    (decodes : decode bytes .loosest = .ok expression) : decode bytes limits = .ok expression :=
  decode_of_encode valid small within (encode_of_decode decodes).2

end Expression

namespace Witness

variable {expression : Expression} {bytes : ByteArray}

theorem decode_filters (valid : limits.validate = .ok ()) (representable : limits.Representable)
    (bytes : ByteArray) (expression : Expression) :
    Filters (decode bytes expression limits) (decode bytes expression .loosest) := by
  rw [decode, decode, Limits.check_of_valid valid, Limits.check_loosest]
  rcases Nat.lt_or_ge limits.maxWitnessBytes bytes.size with large | small
  · simp only [large, if_true]
    exact .exceeded rfl
  · have small' : ¬ Limits.loosest.maxWitnessBytes < bytes.size :=
      Nat.not_lt.mpr (Nat.le_trans small representable.maxWitnessBytes)
    simp only [Nat.not_lt.mpr small, small', if_false]
    exact .refl _

theorem decode_of_loosest {witness : Witness} (valid : limits.validate = .ok ())
    (small : bytes.size ≤ limits.maxWitnessBytes)
    (decodes : decode bytes expression .loosest = .ok witness) :
    decode bytes expression limits = .ok witness := by
  rw [decode_eq_ok_iff] at decodes ⊢
  exact ⟨valid, small, decodes.2.2⟩

end Witness

namespace Program

variable {expression : Expression} {witness : Witness} {program : Program}

theorem checkBudget_eq_ok_iff {cost : Cost} : checkBudget limits cost = .ok () ↔ limits.Affords cost := by
  rw [checkBudget, Limits.Affords]
  cases limits.costBudget with
  | none => simp
  | some budget =>
      by_cases above : budget < cost.milli
      · simp [above]
      · simp [above, Nat.not_lt.mp above]

theorem checkBudget_filters (cost : Cost) :
    Filters (checkBudget limits cost) (checkBudget .loosest cost) := by
  rw [checkBudget]
  cases limits.costBudget with
  | none => exact .refl _
  | some budget =>
      dsimp only
      split
      · exact .exceeded rfl
      · exact .refl _

theorem analyse_filters (valid : limits.validate = .ok ()) (expression : Expression)
    (witness : Witness) :
    Filters (analyse expression witness limits) (analyse expression witness .loosest) := by
  rw [analyse, analyse, Limits.check_of_valid valid, Limits.check_loosest]
  exact .bind (.refl _) fun _ => .bind (.refl _) fun roots => .bind (.refl _) fun _ =>
    .bind (.refl _) fun bounds => .bind (checkBudget_filters _) fun _ => .refl _

theorem affords_of_analyse (accepted : analyse expression witness limits = .ok program) :
    limits.Affords program.bounds.cost := by
  rcases analyse_eq_ok_iff.mp accepted with
    ⟨-, roots, -, -, bounds, -, affordable, annotated, -, rfl⟩
  exact checkBudget_eq_ok_iff.mp affordable

theorem analyse_of_loosest (valid : limits.validate = .ok ())
    (affords : limits.Affords program.bounds.cost)
    (accepted : analyse expression witness .loosest = .ok program) :
    analyse expression witness limits = .ok program := by
  rcases analyse_eq_ok_iff.mp accepted with
    ⟨-, roots, rooted, shared, bounds, bounded, -, annotated, annotates, rfl⟩
  rw [analyse_eq_ok_iff]
  exact ⟨Limits.check_of_valid valid, roots, rooted, shared, bounds, bounded,
    checkBudget_eq_ok_iff.mpr affords, annotated, annotates, rfl⟩

theorem decode_filters (valid : limits.validate = .ok ()) (representable : limits.Representable)
    (bytes witnessBytes : ByteArray) :
    Filters (decode bytes witnessBytes limits) (decode bytes witnessBytes .loosest) :=
  .bind (Expression.decode_filters valid representable bytes) fun expression =>
    .bind (Witness.decode_filters valid representable witnessBytes expression) fun witness =>
      analyse_filters valid expression witness

/-- A program keeps to the limits within which it has been decoded. -/
structure Keeps (program : Program) (bytes witnessBytes : ByteArray) (limits : Limits) : Prop where
  valid : limits.validate = .ok ()
  programBytes : bytes.size ≤ limits.maxProgramBytes
  witnessBytes : witnessBytes.size ≤ limits.maxWitnessBytes
  nodes : program.expression.size ≤ limits.maxNodes
  cost : limits.Affords program.bounds.cost

variable {bytes witnessBytes : ByteArray}

theorem keeps_of_decode (decodes : decode bytes witnessBytes limits = .ok program) :
    program.Keeps bytes witnessBytes limits := by
  rcases exists_ok_of_bind decodes with ⟨expression, decodesExpression, afterExpression⟩
  rcases exists_ok_of_bind afterExpression with ⟨witness, decodesWitness, accepted⟩
  rcases Expression.encode_of_decode decodesExpression with ⟨⟨valid, small, within⟩, -⟩
  rcases Witness.decode_eq_ok_iff.mp decodesWitness with ⟨-, smallWitness, -⟩
  refine ⟨valid, small, smallWitness, ?_, affords_of_analyse accepted⟩
  rw [(analyse_eq_ok accepted).1]
  exact within

theorem decode_of_loosest (keeps : program.Keeps bytes witnessBytes limits)
    (decodes : decode bytes witnessBytes .loosest = .ok program) :
    decode bytes witnessBytes limits = .ok program := by
  rcases exists_ok_of_bind decodes with ⟨expression, decodesExpression, afterExpression⟩
  rcases exists_ok_of_bind afterExpression with ⟨witness, decodesWitness, accepted⟩
  have within : expression.size ≤ limits.maxNodes := by
    rw [← (analyse_eq_ok accepted).1]
    exact keeps.nodes
  rw [decode, Expression.decode_of_loosest keeps.valid keeps.programBytes within decodesExpression]
  change Witness.decode witnessBytes expression limits >>= _ = _
  rw [Witness.decode_of_loosest keeps.valid keeps.witnessBytes decodesWitness]
  exact analyse_of_loosest keeps.valid keeps.cost accepted

theorem Keeps.mono {wider : Limits} (keeps : program.Keeps bytes witnessBytes limits)
    (within : limits.Within wider) : program.Keeps bytes witnessBytes wider where
  valid := within.validate keeps.valid
  programBytes := Nat.le_trans keeps.programBytes within.maxProgramBytes
  witnessBytes := Nat.le_trans keeps.witnessBytes within.maxWitnessBytes
  nodes := Nat.le_trans keeps.nodes within.maxNodes
  cost := within.affords keeps.cost

/-- Bytes are decoded within limits exactly if they are decoded within the loosest ones and the program
keeps to the limits, and it is the same program. If they are not decoded within limits that are valid,
it is for the reason for which they are not decoded within the loosest ones, or because they exceed a
limit. What is decoded within limits is decoded within wider ones. -/
theorem decode_eq_ok_iff_loosest (representable : limits.Representable)
    (bytes witnessBytes : ByteArray) :
    (∀ program, decode bytes witnessBytes limits = .ok program ↔
      limits.validate = .ok () ∧ bytes.size ≤ limits.maxProgramBytes ∧
        witnessBytes.size ≤ limits.maxWitnessBytes ∧
        decode bytes witnessBytes .loosest = .ok program ∧
        program.expression.size ≤ limits.maxNodes ∧
        ∀ budget, limits.costBudget = some budget → program.bounds.cost.milli ≤ budget) ∧
    (∀ error, limits.validate = .ok () → decode bytes witnessBytes limits = .error error →
      decode bytes witnessBytes .loosest = .error error ∨
        (∃ stream length limit, error = .inputTooLarge stream length limit) ∨
        (∃ count limit, error = .tooManyNodes count limit) ∨
        ∃ cost budget, error = .costExceeded cost budget) ∧
    ∀ wider program, limits.Within wider → decode bytes witnessBytes limits = .ok program →
      decode bytes witnessBytes wider = .ok program := by
  have loosest_of_decode : ∀ {program}, decode bytes witnessBytes limits = .ok program →
      decode bytes witnessBytes .loosest = .ok program := fun decodes =>
    (decode_filters (keeps_of_decode decodes).valid representable bytes witnessBytes).eq_ok decodes
  refine ⟨?_, ?_, ?_⟩
  · intro program
    constructor
    · intro decodes
      have keeps := keeps_of_decode decodes
      exact ⟨keeps.valid, keeps.programBytes, keeps.witnessBytes, loosest_of_decode decodes,
        keeps.nodes, keeps.cost⟩
    · rintro ⟨valid, small, smallWitness, decodes, within, affords⟩
      exact decode_of_loosest ⟨valid, small, smallWitness, within, affords⟩ decodes
  · intro error valid fails
    rcases (decode_filters valid representable bytes witnessBytes).eq_error fails with
      same | exceeds
    · exact .inl same
    · right
      cases error with
      | inputTooLarge stream length limit => exact .inl ⟨stream, length, limit, rfl⟩
      | tooManyNodes count limit => exact .inr (.inl ⟨count, limit, rfl⟩)
      | costExceeded cost budget => exact .inr (.inr ⟨cost, budget, rfl⟩)
      | _ => cases exceeds
  · intro wider program within decodes
    exact decode_of_loosest ((keeps_of_decode decodes).mono within) (loosest_of_decode decodes)

/-- The program that is a lone unit is decoded within the strict limits, and therefore within the
standard and the loosest ones. -/
theorem decode_eq_ok_iff_loosest_loneUnit :
    Limits.strict.Representable ∧ Limits.strict.Within .standard ∧
      ∃ program, decode ⟨#[0x24]⟩ ⟨#[]⟩ .strict = .ok program ∧
        decode ⟨#[0x24]⟩ ⟨#[]⟩ .loosest = .ok program ∧
        decode ⟨#[0x24]⟩ ⟨#[]⟩ .standard = .ok program := by
  have representable : Limits.strict.Representable := ⟨by decide, by decide, by decide⟩
  have within : Limits.strict.Within .standard :=
    ⟨by decide, by decide, by decide, fun _ impossible => nomatch impossible⟩
  have decoded : (decode ⟨#[0x24]⟩ ⟨#[]⟩ .strict).isOk = true := by
    decide +kernel
  have limited := decode_eq_ok_iff_loosest representable ⟨#[0x24]⟩ ⟨#[]⟩
  cases decodes : decode ⟨#[0x24]⟩ ⟨#[]⟩ .strict with
  | error error =>
      rw [decodes] at decoded
      cases decoded
  | ok program =>
      exact ⟨representable, within, program, rfl, ((limited.1 program).mp decodes).2.2.2.1,
        limited.2.2 _ program within decodes⟩

end Program

end Simplicity
