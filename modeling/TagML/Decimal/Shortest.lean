/-!
The shortest decimal that reads back as a given double.

A finite positive double is `m · 2^e`.  The reals that round to it form an interval around it
that reaches halfway to each neighbour, ends included exactly when `m` is even (a tie rounds to
the even neighbour).  For 1, 2, … significant digits we look at the two decimals of that many
digits next to the value; the first count at which one of them lies in the interval wins, and
of two such decimals the nearer one, a tie going to the larger.  Seventeen digits always
suffice for a double.

All comparisons are exact: every quantity is a natural number times powers of 2 and 10, and
two such products are compared by moving the negative powers to the other side.
-/
namespace TagML

namespace Decimal

/-- The sign, exponent field and fraction field of a double's bits. -/
structure Bits where
  negative : Bool
  exponent : Nat
  fraction : Nat

/-- Split a double's bits into sign, 11-bit exponent and 52-bit fraction. -/
def Bits.ofFloat (x : Float) : Bits :=
  let b := x.toBits.toNat
  { negative := b / Nat.pow 2 63 % 2 = 1, exponent := b / Nat.pow 2 52 % 2048,
    fraction := b % Nat.pow 2 52 }

/-- The kinds of doubles. -/
inductive Class where
  | nan
  | infinite (negative : Bool)
  | zero (negative : Bool)
  /-- `m · 2^e`; `narrowBelow` when the gap to the next smaller double is half the gap above,
  which happens at the bottom of each binade but the first. -/
  | finite (negative : Bool) (m : Nat) (e : Int) (narrowBelow : Bool)

/-- Classify a double by its bits. -/
def Bits.classify (b : Bits) : Class :=
  if b.exponent = 2047 then
    if b.fraction = 0 then .infinite b.negative else .nan
  else if b.exponent = 0 then
    if b.fraction = 0 then .zero b.negative else .finite b.negative b.fraction (-1074) false
  else
    .finite b.negative (b.fraction + Nat.pow 2 52) ((b.exponent : Int) - 1075)
      (b.fraction = 0 && b.exponent > 1)

/-- `2^a · 10^b` split into the factor that multiplies and the factor that divides. -/
def scale (a b : Int) : Nat × Nat :=
  (Nat.pow 2 a.toNat * Nat.pow 10 b.toNat, Nat.pow 2 (-a).toNat * Nat.pow 10 (-b).toNat)

/-- Compare `x · 2^a · 10^b` with `y · 2^c · 10^d`. -/
def cmpScaled (x : Nat) (a b : Int) (y : Nat) (c d : Int) : Ordering :=
  let (up, down) := scale (a - c) (b - d)
  compare (x * up) (y * down)

/-- `⌊m · 2^e / 10^k⌋`. -/
def floorDiv (m : Nat) (e k : Int) : Nat :=
  let (up, down) := scale e (-k)
  m * up / down

/-- Whether `10^p ≤ m · 2^e`. -/
def powerBelow (m : Nat) (e : Int) (p : Int) : Bool := cmpScaled 1 0 p m e 0 != .gt

/-- Move `p` toward the exponent with `10^p ≤ m · 2^e < 10^(p+1)`, one step at a time. -/
def correctExponent (m : Nat) (e : Int) : Nat → Int → Int
  | 0, p => p
  | n + 1, p =>
    if !powerBelow m e p then correctExponent m e n (p - 1)
    else if powerBelow m e (p + 1) then correctExponent m e n (p + 1)
    else p

/-- The exponent `p` with `10^p ≤ m · 2^e < 10^(p+1)`, for `m > 0`: an estimate from the
binary exponent, corrected by exact comparison. -/
def decimalExponent (m : Nat) (e : Int) : Int :=
  let log2 : Int := (m.log2 : Int) + e
  correctExponent m e 8 (log2 * 78913 / 262144)

/-- The decimal `d · 10^k` of fewest significant digits inside the rounding interval of
`m · 2^e`, the nearer of two candidates, a tie to the larger.  The interval, scaled by
`2^(e-2)`, runs from `4m - 2` (or `4m - 1` when the gap below is narrow) to `4m + 2`, ends
included when `m` is even. -/
def shortest (m : Nat) (e : Int) (narrowBelow : Bool) : Nat × Int :=
  let lo := if narrowBelow then 4 * m - 1 else 4 * m - 2
  let hi := 4 * m + 2
  let inclusive := m % 2 = 0
  let within (d : Nat) (k : Int) : Bool :=
    let aboveLo := match cmpScaled d 2 k lo e 0 with
      | .gt => true
      | .eq => inclusive
      | .lt => false
    let belowHi := match cmpScaled d 2 k hi e 0 with
      | .lt => true
      | .eq => inclusive
      | .gt => false
    aboveLo && belowHi
  let p := decimalExponent m e
  let pick (n : Nat) : Option (Nat × Int) :=
    let k := p + 1 - n
    let d := floorDiv m e k
    match within d k, within (d + 1) k with
    | true, true =>
      -- compare the value with the midpoint of the two candidates
      match cmpScaled m (e + 1) 0 (2 * d + 1) 0 k with
      | .lt => some (d, k)
      | _ => some (d + 1, k)
    | true, false => some (d, k)
    | false, true => some (d + 1, k)
    | false, false => none
  let rec search : Nat → Nat → Nat × Int
    | 0, n => (floorDiv m e (p + 1 - n), p + 1 - n)
    | fuel + 1, n =>
      match pick n with
      | some r => r
      | none => search fuel (n + 1)
  search 17 1

/-- Drop trailing zero digits: `d · 10^k` with `d` not a multiple of ten (unless zero). -/
def trim (d : Nat) (k : Int) : Nat × Int :=
  let rec go : Nat → Nat → Int → Nat × Int
    | 0, d, k => (d, k)
    | fuel + 1, d, k => if d % 10 = 0 && d ≠ 0 then go fuel (d / 10) (k + 1) else (d, k)
  go (toString d).length d k

/-- The significant digits of `d · 10^k` and the position of the decimal point relative to
their start: `0.d₁d₂… × 10^point`. -/
def digitsAndPoint (d : Nat) (k : Int) : String × Int :=
  let (d, k) := trim d k
  let s := toString d
  (s, k + s.length)

/-- Plain decimal notation with at least one digit after the point. -/
def positional (digits : String) (point : Int) : String :=
  let n : Int := digits.length
  if point ≤ 0 then "0." ++ String.ofList (List.replicate (-point).toNat '0') ++ digits
  else if point < n then
    String.ofList (digits.toList.take point.toNat) ++ "." ++ String.ofList (digits.toList.drop point.toNat)
  else digits ++ String.ofList (List.replicate (point - n).toNat '0') ++ ".0"

/-- Scientific notation: the first digit, the others after a point if there are any, then
`e` and the exponent, with a minus sign when negative. -/
def scientific (digits : String) (point : Int) : String :=
  let first := String.ofList (digits.toList.take 1)
  let rest := String.ofList (digits.toList.drop 1)
  let exp := point - 1
  first ++ (if rest.isEmpty then "" else "." ++ rest) ++ "e"
    ++ (if exp < 0 then "-" else "") ++ toString exp.natAbs

end Decimal

end TagML
