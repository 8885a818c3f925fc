import TagML.Text.GraphemeExtend
import TagML.Text.Printable

/-!
Quoted text: strings between double quotes and characters between single quotes, written so
that every character can be seen.

Tab, carriage return, line feed, backslash and NUL are written `\t`, `\r`, `\n`, `\\` and
`\0`; the enclosing quote is written with a backslash before it (the other quote is not);
a character that extends the grapheme before it, or that is not printable, is written
`\u{…}` with its code point in lowercase hexadecimal without leading zeros; every other
character stands for itself.
-/
namespace TagML

namespace Quoted

/-- Lowercase hexadecimal digits of `n`, without leading zeros. -/
def hex (n : Nat) : String :=
  String.ofList (Nat.toDigits 16 n)

/-- How one character is written between `quote`s. -/
def escape (quote : Char) (c : Char) : String :=
  if c = '\t' then "\\t"
  else if c = '\r' then "\\r"
  else if c = '\n' then "\\n"
  else if c = '\\' then "\\\\"
  else if c.toNat = 0 then "\\0"
  else if c = quote then "\\" ++ c.toString
  else if Char.isGraphemeExtend c || !Char.isPrintable c then "\\u\x7b" ++ hex c.toNat ++ "\x7d"
  else c.toString

/-- A string between double quotes. -/
def string (s : String) : String :=
  "\"" ++ String.join (s.toList.map (escape '"')) ++ "\""

/-- A character between single quotes. -/
def char (c : Char) : String :=
  "'" ++ escape '\'' c ++ "'"

end Quoted

end TagML
