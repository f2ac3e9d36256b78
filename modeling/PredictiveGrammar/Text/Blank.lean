/-!
# Blank characters

Rule text is cut at blank characters, and blank means the Unicode property White_Space. The property
holds of twenty-five code points, kept here as ranges. It is wider than `Char.isWhitespace`, which knows
ASCII only, and it leaves out U+001C to U+001F, U+180E, U+200B and U+FEFF.
-/

namespace PredictiveGrammar.Text

/-- The ranges of White_Space: first and last code point of each. -/
def blankRanges : List (Nat × Nat) :=
  [(0x9, 0xD), (0x20, 0x20), (0x85, 0x85), (0xA0, 0xA0), (0x1680, 0x1680), (0x2000, 0x200A),
    (0x2028, 0x2029), (0x202F, 0x202F), (0x205F, 0x205F), (0x3000, 0x3000)]

/-- Whether a character has the property White_Space. -/
def isBlank (c : Char) : Bool :=
  blankRanges.any fun range => range.1 ≤ c.toNat && c.toNat ≤ range.2

end PredictiveGrammar.Text
