import Simplicity.Datum.Form
import Simplicity.Sample
import Simplicity.Text.Blank
import Simplicity.Text.Number
import Simplicity.Text.Quoted

/-!
# The command line

The tool inspects one program. Arguments are read from left to right and a later one overrides
an earlier one of its kind; the strict profile replaces all limits but a budget that has been
given. `run` says what is printed and how the tool ends; printing is left to `main`.
-/

namespace Simplicity.CommandLine

inductive UsageError where
  /-- A flag that takes bytes comes last. -/
  | missingBytes (flag : String)
  /-- The bytes given with a flag are not hexadecimal. -/
  | invalidBytes (flag : String) (cause : Hex.Error)
  | missingSample
  | unknownSample (name : String)
  | missingBudget
  /-- The budget is no number in range. -/
  | invalidBudget (text : String) (cause : Text.NumberError)
  | unknownArgument (argument : String)
  | missingProgram
  deriving DecidableEq, Repr

/-- The text of a complaint about hexadecimal text. -/
def hexMessage : Hex.Error → String
  | .oddLength => "Odd number of digits"
  | .invalidDigit byte position =>
      s!"Invalid character {Text.quoteChar (Char.ofNat byte.toNat)} at position {position}"

def UsageError.message : UsageError → String
  | .missingBytes flag => s!"{flag} needs a hex value"
  | .invalidBytes flag cause => s!"{flag}: {hexMessage cause}"
  | .missingSample => "--fixture needs a name"
  | .unknownSample name => s!"unknown fixture `{name}`"
  | .missingBudget => "--budget needs a value"
  | .invalidBudget text cause => s!"invalid budget `{text}`: {cause.message}"
  | .unknownArgument argument => s!"unknown argument `{argument}`"
  | .missingProgram => "missing --program or --fixture"

def usage : String :=
  "usage: simplicity-inspect (--program <hex> [--witness <hex>] | --fixture type-skip) " ++
    "[--strict] [--budget <milli-wu>] [--verbose]"

/-- What the arguments ask for. -/
structure Options where
  /-- The bytes of the program, once they are given. -/
  program : Option ByteArray
  witness : ByteArray
  limits : Limits
  verbose : Bool

namespace Options

def initial : Options :=
  ⟨none, .empty, .standard, false⟩

/-- The options under the strict profile, which leaves a budget that has been given. -/
def makeStrict (options : Options) : Options :=
  let limits :=
    match options.limits.costBudget with
    | none => Limits.strict
    | some budget => Limits.strict.withBudget budget
  { options with limits }

def useSample (options : Options) : Options :=
  { options with program := some Sample.program, witness := Sample.witness }

end Options

/-- Reads the bytes given with a flag. -/
def bytesArgument (flag value : String) : Except UsageError ByteArray :=
  match Hex.decode (Text.trim value) with
  | .ok bytes => .ok ⟨bytes.toArray⟩
  | .error cause => .error (.invalidBytes flag cause)

/-- Reads the number given as a budget. -/
def budgetArgument (value : String) : Except UsageError Nat :=
  (Text.number Cost.maxMilli value).mapError (.invalidBudget value)

/-- Reads arguments one after another. -/
def parseFrom : List String → Options → Except UsageError Options
  | [], options => .ok options
  | "--program" :: rest, options =>
      match rest with
      | [] => .error (.missingBytes "--program")
      | value :: rest => do
          let bytes ← bytesArgument "--program" value
          parseFrom rest { options with program := some bytes }
  | "--witness" :: rest, options =>
      match rest with
      | [] => .error (.missingBytes "--witness")
      | value :: rest => do
          let bytes ← bytesArgument "--witness" value
          parseFrom rest { options with witness := bytes }
  | "--fixture" :: rest, options =>
      match rest with
      | [] => .error .missingSample
      | name :: rest =>
          if name = "type-skip" then parseFrom rest options.useSample
          else .error (.unknownSample name)
  | "--strict" :: rest, options => parseFrom rest options.makeStrict
  | "--budget" :: rest, options =>
      match rest with
      | [] => .error .missingBudget
      | value :: rest => do
          let budget ← budgetArgument value
          parseFrom rest { options with limits := options.limits.withBudget budget }
  | "--verbose" :: rest, options => parseFrom rest { options with verbose := true }
  | "-v" :: rest, options => parseFrom rest { options with verbose := true }
  | argument :: _, _ => .error (.unknownArgument argument)

def parse (arguments : List String) : Except UsageError Options :=
  parseFrom arguments .initial

/-- What the tool prints and how it ends. -/
structure Outcome where
  code : UInt8
  output : String
  errors : String
  deriving DecidableEq, Repr

namespace Outcome

def refused (error : UsageError) : Outcome :=
  ⟨2, "", error.message ++ "\n" ++ usage ++ "\n"⟩

def invalidLimits (error : Limits.Error) : Outcome :=
  ⟨2, "", "ERROR invalid limits err=" ++ error.message ++ "\n"⟩

def rejected (error : Error) : Outcome :=
  ⟨1, "", "ERROR program rejected err=" ++ error.message ++ "\n"⟩

def accepted (report : Report) : Outcome :=
  ⟨0, report.text ++ "\n", ""⟩

end Outcome

def inspect (program witness : ByteArray) (limits : Limits) : Outcome :=
  match limits.validate with
  | .error error => .invalidLimits error
  | .ok () =>
      match Program.decode program witness limits with
      | .error error => .rejected error
      | .ok program => .accepted program.report

def run (arguments : List String) : Outcome :=
  match parse arguments with
  | .error error => .refused error
  | .ok options =>
      match options.program with
      | none => .refused .missingProgram
      | some program => inspect program options.witness options.limits

end Simplicity.CommandLine
