/-!
# Bitstream failures

A program travels as two bitstreams. Each failure below names the stream it was met in, and
where a single field was being read or written, that field.
-/

namespace Simplicity

/-- The two bitstreams of a program. -/
inductive Stream where
  /-- The combinators of the expression. -/
  | program
  /-- The values of its witness nodes. -/
  | witness
  deriving DecidableEq, Repr

def Stream.name : Stream → String
  | .program => "program"
  | .witness => "witness"

/-- A field of one of the streams, as messages name it. -/
structure Field where
  stream : Stream
  name : String
  deriving DecidableEq, Repr

/-- A failure to read or to write a bitstream. -/
inductive StreamError where
  /-- The bits ended inside a field. -/
  | unexpectedEnd (field : Field)
  /-- A field holds a number that the positive-integer code does not cover. -/
  | naturalOverflow (field : Field)
  /-- A bit of the padding that starts at `position` is set. -/
  | illegalPadding (stream : Stream) (position : Nat)
  /-- A whole byte or more is left over after the last field. -/
  | trailingBytes (stream : Stream) (consumed remaining : Nat)
  deriving DecidableEq, Repr

namespace StreamError

/-- The stream in which a failure was met. -/
def stream : StreamError → Stream
  | .unexpectedEnd field => field.stream
  | .naturalOverflow field => field.stream
  | .illegalPadding stream _ => stream
  | .trailingBytes stream _ _ => stream

def message : StreamError → String
  | .unexpectedEnd field => s!"{field.stream.name} bitstream ended early while reading {field.name}"
  | .naturalOverflow field =>
      s!"{field.stream.name} bitstream encodes an out-of-range natural for {field.name}"
  | .illegalPadding stream position =>
      s!"{stream.name} bitstream has non-zero padding after bit {position}"
  | .trailingBytes stream consumed remaining =>
      s!"{stream.name} bitstream has {remaining} unused bits after bit {consumed}"

end StreamError

end Simplicity
