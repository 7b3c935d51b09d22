/-!
# Blank characters

The characters with the Unicode property `White_Space`.  The core library's
`Char.isWhitespace` knows only some of the ASCII ones.
-/

namespace Reckon.Text

/-- First and last code point of every run of `White_Space` characters. -/
def blankRanges : List (Nat × Nat) :=
  [(0x0009, 0x000D), (0x0020, 0x0020), (0x0085, 0x0085), (0x00A0, 0x00A0),
   (0x1680, 0x1680), (0x2000, 0x200A), (0x2028, 0x2029), (0x202F, 0x202F),
   (0x205F, 0x205F), (0x3000, 0x3000)]

/-- Whether a character is white space. -/
def isBlank (character : Char) : Bool :=
  blankRanges.any fun (first, last) =>
    first ≤ character.toNat && character.toNat ≤ last

end Reckon.Text
