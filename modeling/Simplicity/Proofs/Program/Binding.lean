import Simplicity.Proofs.Program.Representation
import Simplicity.Proofs.Root.Annotated
import Simplicity.Proofs.Witness.Encoding

/-!
# The annotated root binds the bytes

Accepted bytes of a program and its witness can be read off the annotated root, unless the
compression function has a collision on the way. The tree of a program is known from its annotated
root, a program is known from its tree, as nothing in it stands twice and its nodes are in canonical
order, and there is one way to write a program and its witness.
-/

namespace Simplicity.Program

/-- The applications of the compression function that make the annotated root of a program. -/
def annotatedTrail (program : Program) : List (Digest × Block) :=
  program.expression.annotatedTrail program.witness

variable {expression expression' : Expression} {witness witness' : Witness}
  {limits limits' : Limits} {program program' : Program}

theorem unfolding_eq_of_annotated_eq (accepted : analyse expression witness limits = .ok program)
    (accepted' : analyse expression' witness' limits' = .ok program')
    (free : Sha256.CollisionFree
      (expression.annotatedTrail witness ++ expression'.annotatedTrail witness'))
    (same : program.roots.annotated = program'.roots.annotated) :
    expression.unfoldingAt witness expression.root =
      expression'.unfoldingAt witness' expression'.root := by
  rcases analyse_eq_ok accepted with ⟨-, -, annotates, -⟩
  rcases analyse_eq_ok accepted' with ⟨-, -, annotates', -⟩
  rcases exists_ok_of_bind annotates with ⟨roots, ran, isRoot⟩
  rcases exists_ok_of_bind annotates' with ⟨roots', ran', isRoot'⟩
  have sameKind := expression.visible.trans expression'.visible.symm
  apply Expression.unfoldingAt_eq_of_root_eq ran ran' free expression.last.isLt
    expression'.last.isLt sameKind
  rw [Dag.resultAt_eq roots expression.last.isLt, Dag.resultAt_eq roots' expression'.last.isLt]
  exact (Except.ok.inj isRoot).trans (same.trans (Except.ok.inj isRoot').symm)

/-- An accepted program is written as the bytes that it was read from. -/
theorem encode_of_decode {bytes witnessBytes : ByteArray}
    (accepted : decode bytes witnessBytes limits = .ok program) :
    analyse program.expression program.witness limits = .ok program ∧
      program.encode = .ok (bytes, witnessBytes) := by
  rcases exists_ok_of_bind accepted with ⟨expression, decodes, afterExpression⟩
  rcases exists_ok_of_bind afterExpression with ⟨witness, decodesWitness, analysed⟩
  rcases analyse_eq_ok analysed with ⟨rfl, rfl, -⟩
  refine ⟨analysed, ?_⟩
  rw [encode, (Expression.encode_of_decode decodes).2,
    (Witness.decode_eq_ok_iff.mp decodesWitness).2.2.2]
  rfl

/-- Accepted bytes that are not the same have different annotated roots, unless the compression
function has a collision among its applications that make these roots, or gives the initial state
there. The limits need not be the same. -/
theorem annotated_ne_of_decode {bytes bytes' witnessBytes witnessBytes' : ByteArray}
    (accepted : decode bytes witnessBytes limits = .ok program)
    (accepted' : decode bytes' witnessBytes' limits' = .ok program')
    (different : (bytes, witnessBytes) ≠ (bytes', witnessBytes'))
    (free : Sha256.CollisionFree (program.annotatedTrail ++ program'.annotatedTrail)) :
    program.roots.annotated ≠ program'.roots.annotated := by
  intro same
  rcases encode_of_decode accepted with ⟨analysed, encodes⟩
  rcases encode_of_decode accepted' with ⟨analysed', encodes'⟩
  have sameTree := unfolding_eq_of_annotated_eq analysed analysed' free same
  rcases eq_of_analyse analysed analysed' sameTree with ⟨sameExpression, sameWitness⟩
  rw [encode, sameExpression, sameWitness, ← encode, encodes'] at encodes
  exact different (Except.ok.inj encodes).symm

/-- A lone node that discards its input and a lone witness node are told apart. -/
theorem annotated_ne_of_loneNodes : ∃ program program',
    decode ⟨#[0x24]⟩ .empty .standard = .ok program ∧
      decode ⟨#[0x38]⟩ .empty .standard = .ok program' ∧
      Sha256.CollisionFree (program.annotatedTrail ++ program'.annotatedTrail) ∧
      program.roots.annotated ≠ program'.roots.annotated := by
  have checked : ((decode ⟨#[0x24]⟩ .empty .standard).toOption.any fun program =>
      (decode ⟨#[0x38]⟩ .empty .standard).toOption.any fun program' =>
        decide (Sha256.CollisionFree (program.annotatedTrail ++ program'.annotatedTrail))) =
          true := by
    decide +kernel
  cases accepted : decode ⟨#[0x24]⟩ .empty .standard with
  | error error =>
      rw [accepted] at checked
      cases checked
  | ok program =>
      cases accepted' : decode ⟨#[0x38]⟩ .empty .standard with
      | error error =>
          rw [accepted, accepted'] at checked
          cases checked
      | ok program' =>
          rw [accepted, accepted'] at checked
          have free := of_decide_eq_true checked
          exact ⟨program, program', rfl, rfl, free,
            annotated_ne_of_decode accepted accepted' (by decide) free⟩

end Simplicity.Program
