import Simplicity.Datum.Basic
import Simplicity.Program

/-!
# Reading settings and reports

Which data stand for limits, digests, costs, bounds, roots and reports.
-/

namespace Simplicity

/-- A member that may be missing or must have a given form. -/
def Datum.orDefault {α : Type} (read : Datum → Option α) (default : α) : Option Datum → Option α
  | none => some default
  | some datum => read datum

/-- A budget: a number of 32 bits, or nothing. -/
def Datum.budget? : Datum → Option (Option Nat)
  | .null => some none
  | datum => datum.word32?.map some

namespace Limits

def memberNames : List String :=
  [Member.maxNodes.name, Member.maxProgramBytes.name, Member.maxWitnessBytes.name,
    Member.costBudget.name]

/-- Limits, in which a member that is missing has its standard value. -/
def ofDatum? (datum : Datum) : Option Limits := do
  match ← datum.optionalMembers? memberNames with
  | [nodes, program, witness, budget] =>
      let maxNodes ← Datum.orDefault Datum.word64? standard.maxNodes nodes
      let maxProgramBytes ← Datum.orDefault Datum.word64? standard.maxProgramBytes program
      let maxWitnessBytes ← Datum.orDefault Datum.word64? standard.maxWitnessBytes witness
      let costBudget ← Datum.orDefault Datum.budget? standard.costBudget budget
      return { maxNodes, maxProgramBytes, maxWitnessBytes, costBudget }
  | _ => none

end Limits

/-- A digest, as its text. -/
def Digest.ofDatum? : Datum → Option Digest
  | .text value => (Digest.parse value).toOption
  | _ => none

/-- A cost, as its number of units. -/
def Cost.ofDatum? (datum : Datum) : Option Cost :=
  datum.word32?.map Cost.mk

namespace Bounds

def memberNames : List String :=
  ["cost", "extra_cells", "extra_frames"]

/-- Bounds, all members of which are there. -/
def ofDatum? (datum : Datum) : Option Bounds := do
  match ← datum.members? memberNames with
  | [cost, cells, frames] =>
      let cost ← Cost.ofDatum? cost
      let cells ← cells.word64?
      let frames ← frames.word64?
      return { cost, cells, frames }
  | _ => none

end Bounds

namespace Roots

def memberNames : List String :=
  ["cmr", "imr", "amr"]

/-- Roots, all members of which are there. -/
def ofDatum? (datum : Datum) : Option Roots := do
  match ← datum.members? memberNames with
  | [commitment, identity, annotated] =>
      let commitment ← Digest.ofDatum? commitment
      let identity ← Digest.ofDatum? identity
      let annotated ← Digest.ofDatum? annotated
      return { commitment, identity, annotated }
  | _ => none

end Roots

namespace Report

def memberNames : List String :=
  ["cmr", "imr", "amr", "cost", "weight", "extra_cells", "extra_frames", "nodes",
    "witness_nodes", "witness_bits"]

/-- A report, all members of which are there. -/
def ofDatum? (datum : Datum) : Option Report := do
  match ← datum.members? memberNames with
  | [commitment, identity, annotated, cost, weight, cells, frames, nodes, witnessNodes,
      witnessBits] =>
      let commitment ← Digest.ofDatum? commitment
      let identity ← Digest.ofDatum? identity
      let annotated ← Digest.ofDatum? annotated
      let cost ← Cost.ofDatum? cost
      let weight ← weight.word32?
      let cells ← cells.word64?
      let frames ← frames.word64?
      let nodes ← nodes.word64?
      let witnessNodes ← witnessNodes.word64?
      let witnessBits ← witnessBits.word64?
      let roots : Roots := { commitment, identity, annotated }
      return { roots, cost, weight, cells, frames, nodes, witnessNodes, witnessBits }
  | _ => none

/-- The members of a report as they are written, in the order of their names. -/
def memberTexts (report : Report) : List String :=
  [quoted report.roots.commitment, quoted report.roots.identity, quoted report.roots.annotated,
    toString report.cost.milli, toString report.weight, toString report.cells,
    toString report.frames, toString report.nodes, toString report.witnessNodes,
    toString report.witnessBits]
where
  /-- A digest in quotation marks. -/
  quoted (digest : Digest) : String :=
    "\"" ++ digest.toHex ++ "\""

/-- The text of a report: a record with a member on each line. -/
def text (report : Report) : String :=
  let lines := (memberNames.zip report.memberTexts).map fun (name, value) =>
    "  \"" ++ name ++ "\": " ++ value
  "\x7b\n" ++ String.intercalate ",\n" lines ++ "\n\x7d"

end Report

end Simplicity
