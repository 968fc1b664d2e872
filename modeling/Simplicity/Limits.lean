/-!
# Limits

Programs come from strangers, so decoding works within limits. Limits are plain data that a host
may keep among its settings. A limit of zero would reject everything and is taken for a mistake,
which every decoder looks for first.
-/

namespace Simplicity

structure Limits where
  /-- The most nodes that a program may declare. -/
  maxNodes : Nat
  /-- The most bytes that a program may take. -/
  maxProgramBytes : Nat
  /-- The most bytes that a witness may take. -/
  maxWitnessBytes : Nat
  /-- The highest cost of a program in milli weight units, if there is one. -/
  costBudget : Option Nat
  deriving DecidableEq, Repr

namespace Limits

inductive Member where
  | maxNodes
  | maxProgramBytes
  | maxWitnessBytes
  | costBudget
  deriving DecidableEq, Repr

def Member.name : Member → String
  | .maxNodes => "max_nodes"
  | .maxProgramBytes => "max_program_bytes"
  | .maxWitnessBytes => "max_witness_bytes"
  | .costBudget => "cost_budget"

inductive Error where
  /-- A member that must be positive is zero. -/
  | zero (member : Member)
  deriving DecidableEq, Repr

def Error.message : Error → String
  | .zero member => s!"limit `{member.name}` must be greater than zero"

/-- Generous limits without a budget. -/
def standard : Limits where
  maxNodes := 8000000
  maxProgramBytes := 4194304
  maxWitnessBytes := 4194304
  costBudget := none

/-- Tight limits for programs from the network. -/
def strict : Limits where
  maxNodes := 65536
  maxProgramBytes := 65536
  maxWitnessBytes := 65536
  costBudget := some 4000000

instance : Inhabited Limits :=
  ⟨standard⟩

/-- The limits with another budget. -/
def withBudget (limits : Limits) (budget : Nat) : Limits :=
  { limits with costBudget := some budget }

/-- Looks for a limit of zero. -/
def validate (limits : Limits) : Except Error Unit :=
  if limits.maxNodes = 0 then .error (.zero .maxNodes)
  else if limits.maxProgramBytes = 0 then .error (.zero .maxProgramBytes)
  else if limits.maxWitnessBytes = 0 then .error (.zero .maxWitnessBytes)
  else if limits.costBudget = some 0 then .error (.zero .costBudget)
  else .ok ()

end Limits

end Simplicity
