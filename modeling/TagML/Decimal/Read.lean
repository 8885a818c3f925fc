/-!
Reading a double from text.

The text is an optional sign followed by `inf`, `infinity` or `nan` in any case, or by a
decimal: digits with an optional fractional part (at least one digit in all), then an optional
exponent `e` or `E` with an optional sign and at least one digit.  A decimal is rounded to the
nearest double, a tie to the even one; magnitudes far beyond the range of doubles become
infinity or zero without computing their digits.
-/
namespace TagML

namespace Decimal

/-- The value of a list of decimal digits. -/
def digitsValue (ds : List Char) : Nat :=
  ds.foldl (fun n c => 10 * n + (c.toNat - '0'.toNat)) 0

/-- The nearest double to `m · 10^p`. -/
def nearest (m : Nat) (p : Int) : Float :=
  let width : Int := (toString m).length
  if m = 0 then 0.0
  else if p + width > 330 then 1.0 / 0.0
  else if p + width < -360 then 0.0
  else Float.ofScientific m (p < 0) p.natAbs

/-- The unsigned decimal part of a double's text. -/
def readUnsigned? (cs : List Char) : Option Float :=
  let whole := cs.takeWhile Char.isDigit
  let cs := cs.dropWhile Char.isDigit
  let (frac, cs) := match cs with
    | '.' :: r => (r.takeWhile Char.isDigit, r.dropWhile Char.isDigit)
    | r => ([], r)
  let exp? : Option Int := match cs with
    | [] => some 0
    | e :: r =>
      if e = 'e' || e = 'E' then
        let (neg, ds) := match r with
          | '-' :: ds => (true, ds)
          | '+' :: ds => (false, ds)
          | ds => (false, ds)
        if !ds.isEmpty && ds.all Char.isDigit then
          let v : Int := digitsValue ds
          some (if neg then -v else v)
        else none
      else none
  if whole.isEmpty && frac.isEmpty then none
  else exp?.map fun p => nearest (digitsValue (whole ++ frac)) (p - frac.length)

/-- The double a text denotes, if it denotes one. -/
def readDouble? (s : String) : Option Float :=
  let (neg, cs) := match s.toList with
    | '-' :: r => (true, r)
    | '+' :: r => (false, r)
    | r => (false, r)
  let word := String.ofList (cs.map Char.toLower)
  let magnitude :=
    if word = "inf" || word = "infinity" then some (1.0 / 0.0)
    else if word = "nan" then some (0.0 / 0.0)
    else readUnsigned? cs
  magnitude.map fun x => if neg then -x else x

end Decimal

end TagML
