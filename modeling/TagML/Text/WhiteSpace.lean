import TagML.Text.Ranges

/-!
The Unicode property White_Space, and trimming it from both ends of a text.
-/
namespace TagML

namespace WhiteSpace

/-- The ranges of White_Space characters, ascending. -/
def ranges : Array (Nat × Nat) := #[
  (0x9, 0xD), (0x20, 0x20), (0x85, 0x85), (0xA0, 0xA0), (0x1680, 0x1680), (0x2000, 0x200A),
  (0x2028, 0x2029), (0x202F, 0x202F), (0x205F, 0x205F), (0x3000, 0x3000)]

end WhiteSpace

/-- Whether a character has the Unicode property White_Space. -/
def Char.isWhiteSpace (c : Char) : Bool := Ranges.mem WhiteSpace.ranges c.toNat

/-- The text without the White_Space characters at either end. -/
def trimWhiteSpace (s : String) : String :=
  String.ofList ((s.toList.dropWhile Char.isWhiteSpace).reverse.dropWhile Char.isWhiteSpace).reverse

end TagML
