/-!
# Characters in messages

A character of which a message complains is shown between apostrophes. An apostrophe, a backslash
and the control characters that have a name are written with a backslash, and other characters
that cannot be seen by their number.
-/

namespace Simplicity.Text

def hexNumber (number : Nat) : String :=
  String.ofList (Nat.toDigits 16 number)

/-- The character can be seen; this is asked only of the first 256 code points. -/
def isVisible (character : Char) : Bool :=
  let point := character.toNat
  (0x20 ≤ point && point < 0x7f) || (0xa0 < point && point != 0xad)

/-- A character as a message shows it. -/
def quoteChar (character : Char) : String :=
  let shown :=
    match character with
    | '\x00' => "\\0"
    | '\t' => "\\t"
    | '\n' => "\\n"
    | '\r' => "\\r"
    | '\'' => "\\'"
    | '\\' => "\\\\"
    | character =>
        if isVisible character then character.toString
        else "\\u\x7b" ++ hexNumber character.toNat ++ "\x7d"
  "'" ++ shown ++ "'"

end Simplicity.Text
