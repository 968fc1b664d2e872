/-!
# Blank characters

The characters with the Unicode property `White_Space`, and texts without those at their ends.
-/

namespace Simplicity.Text

/-- The blank characters, as ranges of code points with both ends included. -/
def blankRanges : List (Nat × Nat) :=
  [(0x09, 0x0d), (0x20, 0x20), (0x85, 0x85), (0xa0, 0xa0), (0x1680, 0x1680), (0x2000, 0x200a),
    (0x2028, 0x2029), (0x202f, 0x202f), (0x205f, 0x205f), (0x3000, 0x3000)]

def isBlank (character : Char) : Bool :=
  blankRanges.any fun (first, last) => first ≤ character.toNat && character.toNat ≤ last

/-- The text without the blanks in front and at the end. -/
def trim (text : String) : String :=
  let fromFirst := text.toList.dropWhile isBlank
  String.ofList (fromFirst.reverse.dropWhile isBlank).reverse

end Simplicity.Text
