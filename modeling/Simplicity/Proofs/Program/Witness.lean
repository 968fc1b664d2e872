import Simplicity.Proofs.Root.Existence
import Simplicity.Proofs.Witness.Encoding

/-!
# The witness of a program

A witness is a list of bits for each witness node. Nothing in it says which expression it was made for,
and whoever makes a program of an expression and a witness is only asked for the right number of values.

A witness that was made for the expression, out of values or by reading bytes, can be read again: its
values have the types of their nodes, and its bytes give it back. That is so for every program that was
decoded. Any other witness has a value that does not fit its node, and a program can hold such a one.
-/

namespace Simplicity

namespace Witness

/-- The witness has been made for the expression, out of values or by reading bytes. -/
inductive MadeFor (witness : Witness) (expression : Expression) : Prop where
  | ofValues {values : List Value} (made : Witness.ofValues expression values = .ok witness) :
      MadeFor witness expression
  | decode {bytes : ByteArray} {limits : Limits}
      (read : Witness.decode bytes expression limits = .ok witness) : MadeFor witness expression

/-- The witness can be read for the expression: as values, and as the bytes that it is written as. -/
structure Readable (witness : Witness) (expression : Expression) : Prop where
  values : ∃ values, witness.toValues expression = .ok values
  bytes : ∀ limits : Limits, limits.validate = .ok () →
    witness.encode.size ≤ limits.maxWitnessBytes →
      Witness.decode witness.encode expression limits = .ok witness

variable {expression : Expression} {witness : Witness}

theorem madeFor_iff : witness.MadeFor expression ↔
    ∃ values, Encodes expression expression.witnessNodes values witness.values := by
  constructor
  · rintro (made | read)
    · exact ⟨_, ofValues_eq_ok_iff.mp made⟩
    · exact (decode_eq_ok_iff.mp read).2.2.1
  · rintro ⟨values, encodes⟩
    exact .ofValues (ofValues_eq_ok_iff.mpr encodes)

theorem MadeFor.readable (made : witness.MadeFor expression) : witness.Readable expression := by
  rcases madeFor_iff.mp made with ⟨values, encodes⟩
  refine ⟨⟨values, toValues_eq_ok_iff.mpr encodes⟩, ?_⟩
  intro limits valid small
  exact decode_eq_ok_iff.mpr ⟨valid, small, ⟨values, encodes⟩, rfl⟩

theorem Readable.madeFor (readable : witness.Readable expression) : witness.MadeFor expression := by
  rcases readable.values with ⟨values, read⟩
  exact .ofValues (ofValues_eq_ok_iff.mpr (toValues_eq_ok_iff.mp read))

theorem decodeValue_eq_error {node : Nat} {bits : BitString} {error : Error}
    (fails : decodeValue expression node bits = .error error) : error = .witnessType node := by
  rw [decodeValue, targetOf] at fails
  cases typed : expression.arrow? node with
  | none =>
      rw [typed] at fails
      cases fails
      rfl
  | some arrow =>
      rw [typed] at fails
      change (Value.ofBits bits arrow.target).mapError _ = _ at fails
      cases read : Value.ofBits bits arrow.target with
      | ok value =>
          rw [read] at fails
          cases fails
      | error cause =>
          rw [read] at fails
          cases fails
          rfl

/-- As many values as there are witness nodes are refused only for the type of one of them. -/
theorem toValues_eq_error (counted : witness.size = expression.witnessNodes.length) {error : Error}
    (fails : witness.toValues expression = .error error) :
    ∃ node ∈ expression.witnessNodes, error = .witnessType node := by
  rw [toValues, checkCount_of_counted counted] at fails
  rcases mapM_eq_error_iff.mp fails with ⟨before, ⟨node, bits⟩, after, split, -, failsHere⟩
  have member : node ∈ expression.witnessNodes :=
    (List.of_mem_zip (split ▸ List.mem_append_right _ List.mem_cons_self)).1
  exact ⟨node, member, decodeValue_eq_error failsHere⟩

end Witness

namespace Program

variable {expression : Expression} {witness : Witness} {limits : Limits} {program : Program}

/-- A program that was decoded has a witness that can be read. -/
theorem readable_of_decode {bytes bytes' : ByteArray}
    (decoded : decode bytes bytes' limits = .ok program) :
    program.witness.Readable program.expression := by
  rcases exists_ok_of_bind decoded with ⟨expression, -, afterExpression⟩
  rcases exists_ok_of_bind afterExpression with ⟨witness, read, accepted⟩
  rcases analyse_eq_ok accepted with ⟨rfl, rfl, -⟩
  exact (Witness.MadeFor.decode read).readable

/-- The witness of a program can be read exactly if it was made for the expression of the program.
Otherwise there is a value for each witness node, but one of them does not have the type of its node. -/
theorem readable_iff_madeFor_of_analyse (accepted : analyse expression witness limits = .ok program) :
    (program.witness.Readable program.expression ↔ witness.MadeFor expression) ∧
      (¬ witness.MadeFor expression → ∃ node ∈ expression.witnessNodes,
        witness.toValues expression = .error (.witnessType node)) := by
  have counted := size_witness_of_analyse accepted
  rcases analyse_eq_ok accepted with ⟨rfl, rfl, -⟩
  refine ⟨⟨Witness.Readable.madeFor, Witness.MadeFor.readable⟩, ?_⟩
  intro notMade
  cases read : program.witness.toValues program.expression with
  | ok values =>
      exact absurd (.ofValues (Witness.ofValues_eq_ok_iff.mpr (Witness.toValues_eq_ok_iff.mp read)))
        notMade
  | error error =>
      rcases Witness.toValues_eq_error counted read with ⟨node, member, rfl⟩
      exact ⟨node, member, rfl⟩

/-- A single node is a program with any witness that has the right number of values. -/
theorem exists_analyse_of_size_one {expression : Expression} (single : expression.size = 1)
    (witness : Witness) (counted : witness.size = expression.witnessNodes.length) :
    ∃ program, analyse expression witness .standard = .ok program := by
  rcases Expression.exists_identityRoots counted with ⟨roots, rooted⟩
  rcases Expression.exists_annotatedRoots counted with ⟨annotations, annotated⟩
  rcases expression.exists_nodeBounds with ⟨bounds, bounded⟩
  have shared : checkSharing expression.nodes.toList roots.toList = .ok () := by
    have oneNode : expression.nodes.toList.length = 1 := single
    have oneRoot : roots.toList.length = 1 := roots.length_toList.trans single
    rcases List.length_eq_one_iff.mp oneNode with ⟨node, nodes_eq⟩
    rcases List.length_eq_one_iff.mp oneRoot with ⟨root, roots_eq⟩
    rw [nodes_eq, roots_eq]
    cases hidden : node.isHidden <;>
      simp [checkSharing, SeenNodes.meet, SeenNodes.empty, hidden, bind, Except.bind, pure, Except.pure]
  exact ⟨_, analyse_eq_ok_iff.mpr ⟨rfl, roots, rooted, shared, _, Expression.bounds_eq_ok bounded, rfl, _,
    Expression.annotatedRoot_eq_ok annotated, rfl⟩⟩

/-- A lone witness node has the type `1 ⊢ 1`, and takes the one value of that type. -/
theorem readable_iff_madeFor_of_loneWitness : ∃ expression witness program,
    Expression.ofNodes #[.witness] = .ok expression ∧
      Witness.ofValues expression [.unit] = .ok witness ∧
      analyse expression witness .standard = .ok program ∧
      program.witness.Readable program.expression := by
  let expression : Expression :=
    ⟨⟨#[.witness], by decide, by decide⟩, #[some ⟨.unit, .unit⟩], by decide, by decide, rfl, rfl⟩
  rcases @exists_analyse_of_size_one expression rfl ⟨[.empty]⟩ rfl with ⟨program, accepted⟩
  have made : Witness.ofValues expression [.unit] = .ok ⟨[.empty]⟩ := by decide +kernel
  exact ⟨expression, _, program, rfl, made, accepted,
    (readable_iff_madeFor_of_analyse accepted).1.mpr (.ofValues made)⟩

/-- A lone witness node takes the bit that was made for a choice, although it has no use for it. -/
theorem exists_unreadable_witness : ∃ choice expression witness program,
    Expression.ofNodes #[.witness, .unit, .case 1 1, .comp 0 2] = .ok choice ∧
      Expression.ofNodes #[.witness] = .ok expression ∧
      Witness.ofValues choice [.pair (.right .unit) .unit] = .ok witness ∧
      analyse expression witness .standard = .ok program ∧
      witness.toValues expression = .error (.witnessType 0) ∧
      ∀ limits, Witness.decode witness.encode expression limits ≠ .ok witness := by
  let choice : Expression :=
    ⟨⟨#[.witness, .unit, .case 1 1, .comp 0 2], by decide, by decide⟩,
      #[some ⟨.unit, .prod .bit .unit⟩, some ⟨.prod .unit .unit, .unit⟩,
        some ⟨.prod .bit .unit, .unit⟩, some ⟨.unit, .unit⟩],
      by decide, by decide, rfl, rfl⟩
  let expression : Expression :=
    ⟨⟨#[.witness], by decide, by decide⟩, #[some ⟨.unit, .unit⟩], by decide, by decide, rfl, rfl⟩
  let witness : Witness := ⟨[BitString.empty.push true]⟩
  rcases @exists_analyse_of_size_one expression rfl witness rfl with ⟨program, accepted⟩
  have made : Witness.ofValues choice [.pair (.right .unit) .unit] = .ok witness := by
    decide +kernel
  have refused : witness.toValues expression = .error (.witnessType 0) := by decide +kernel
  refine ⟨choice, expression, witness, program, rfl, rfl, made, accepted, refused, ?_⟩
  intro limits read
  rcases (Witness.MadeFor.decode read).readable.values with ⟨values, values_eq⟩
  rw [refused] at values_eq
  cases values_eq

end Program

end Simplicity
