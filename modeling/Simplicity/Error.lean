import Simplicity.Limits
import Simplicity.Stream.Error
import Simplicity.Typing.Error

/-!
# Rejections

Everything for which a program is rejected, from its bits to its cost.
-/

namespace Simplicity

/-- Node codes that are set aside and belong to no combinator here. -/
inductive ReservedCode where
  | jet
  | word
  | fail
  | stop
  deriving DecidableEq, Repr

def ReservedCode.name : ReservedCode → String
  | .jet => "jet"
  | .word => "word"
  | .fail => "fail"
  | .stop => "stop"

/-- Why a program is rejected. -/
inductive Error where
  | malformed (cause : StreamError)
  | reserved (index : Nat) (code : ReservedCode)
  /-- A child offset reaches before the first node. -/
  | offsetOutOfRange (index offset : Nat)
  /-- A node refers to itself or to a later node. -/
  | forwardReference (index child : Nat)
  | invalidLimits (cause : Limits.Error)
  | emptyProgram
  /-- The program declares more nodes than the limits allow. -/
  | tooManyNodes (count limit : Nat)
  /-- A byte sequence is longer than the limits allow. -/
  | inputTooLarge (stream : Stream) (length limit : Nat)
  /-- A node has a hidden child where none may be. -/
  | hiddenChild (index : Nat)
  | hiddenRoot
  /-- The nodes leave the canonical order at an index. -/
  | notInCanonicalOrder (index : Nat)
  /-- A node that needs a type has none. -/
  | untyped (index : Nat)
  | illTyped (cause : TypeError)
  /-- Two nodes are the same and should have been one. -/
  | sharingNotMaximal (first second : Nat)
  /-- The value of a witness node does not belong to its type. -/
  | witnessType (node : Nat)
  /-- There are more or fewer values than witness nodes. -/
  | witnessCount (expected got : Nat)
  /-- The witness bits end too early or too late for the witness types. -/
  | witnessLength (available consumed : Nat)
  /-- The program costs more than the budget. -/
  | costExceeded (cost budget : Nat)
  deriving DecidableEq, Repr

def Error.message : Error → String
  | .malformed cause => s!"malformed encoding: {cause.message}"
  | .reserved index code => s!"node {index}: unsupported node code `{code.name}`"
  | .offsetOutOfRange index offset => s!"node {index}: child offset {offset} is out of range"
  | .forwardReference index child => s!"node {index}: child {child} does not precede its parent"
  | .invalidLimits cause => s!"invalid limits: {cause.message}"
  | .emptyProgram => "program has no nodes"
  | .tooManyNodes count limit => s!"program declares {count} nodes, limit is {limit}"
  | .inputTooLarge stream length limit =>
      s!"{stream.name} input is {length} bytes, limit is {limit}"
  | .hiddenChild index => s!"node {index}: hidden child is not allowed here"
  | .hiddenRoot => "root node is hidden"
  | .notInCanonicalOrder index => s!"node {index} is not in canonical order"
  | .untyped index => s!"node {index} has no inferred type"
  | .illTyped cause => s!"type mismatch: {cause.message}"
  | .sharingNotMaximal first second =>
      s!"nodes {first} and {second} are identical; sharing is not maximal"
  | .witnessType node => s!"witness node {node}: value does not match its type"
  | .witnessCount expected got => s!"expected {expected} witness values, got {got}"
  | .witnessLength available consumed =>
      s!"witness data has {available} bits, decoding stopped at bit {consumed}"
  | .costExceeded cost budget => s!"program cost {cost} exceeds budget {budget}"

/-- Usable limits, or the rejection of unusable ones. -/
def Limits.check (limits : Limits) : Except Simplicity.Error Unit :=
  limits.validate.mapError .invalidLimits

end Simplicity
