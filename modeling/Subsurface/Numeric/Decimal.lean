/-!
Exact conversions between decimal text and binary64.

A decimal `± digits · 10^exponent` is read as the nearest double, ties to the
even significand, computed on natural numbers so that no intermediate rounding
happens. A finite double is written with the fewest significant digits that
read back as the same double (of two such decimals, the nearer), laid out
positionally for decimal exponents from -4 to 15 and in scientific form
otherwise, always with a point or an exponent so that the text is never taken
for an integer. Float texts, with words for the infinities and NaN, are
read the same way.
-/

namespace Subsurface.Decimal

/-- A decimal numeral as written: sign, digit string value, power of ten, and
whether it was written with neither fraction nor exponent. -/
structure Numeral where
  negative : Bool
  digits : Nat
  exponent : Int
  integral : Bool
  deriving Repr, Inhabited

/-- The double whose bits are `b`, given as a natural number. -/
def ofBitsNat (b : Nat) : Float :=
  Float.ofBits (UInt64.ofNat b)

/-- Nearest double to the positive ratio `n / d`, ties to even. -/
def roundRatio (n d : Nat) : Float :=
  let e : Int := (n.log2 : Int) - (d.log2 : Int)
  let split (q : Int) : Nat × Nat × Nat :=
    if 0 ≤ q then
      let den := d * Nat.pow 2 q.toNat
      (n / den, n % den, den)
    else
      let num := n * Nat.pow 2 (-q).toNat
      (num / d, num % d, d)
  let q0 := e - 52
  let q1 := if (split q0).1 < Nat.pow 2 52 then q0 - 1 else q0
  let q := max q1 (-1074)
  let (m, r, den) := split q
  let up := 2 * r > den || (2 * r == den && m % 2 == 1)
  let m1 := if up then m + 1 else m
  let (m2, q2) := if m1 = Nat.pow 2 53 then (Nat.pow 2 52, q + 1) else (m1, q)
  if q2 > 971 then
    ofBitsNat 0x7FF0000000000000
  else if m2 < Nat.pow 2 52 then
    ofBitsNat m2
  else
    ofBitsNat ((q2 + 1075).toNat * Nat.pow 2 52 + (m2 - Nat.pow 2 52))

/-- Number of decimal digits of a positive natural number. -/
def digitCount (n : Nat) : Nat :=
  (Nat.toDigits 10 n).length

/-- Nearest double to `digits · 10^exponent`, ties to even. -/
def magnitude (digits : Nat) (exponent : Int) : Float :=
  if digits = 0 then 0.0
  else if exponent + digitCount digits > 400 then ofBitsNat 0x7FF0000000000000
  else if exponent + digitCount digits < -400 then 0.0
  else if 0 ≤ exponent then roundRatio (digits * Nat.pow 10 exponent.toNat) 1
  else roundRatio digits (Nat.pow 10 (-exponent).toNat)

/-- The double a numeral denotes: the nearest one, with the numeral's sign. -/
def Numeral.toFloat (x : Numeral) : Float :=
  let v := magnitude x.digits x.exponent
  if x.negative then -v else v

/-- The double a word stands for in place of a number: `NaN`, `inf` or
`Infinity`, `-inf` or `-Infinity`, and `-0` for the negative zero. No other
spelling is a float. -/
def ofWord? : String → Option Float
  | "NaN" => some (0.0 / 0.0)
  | "inf" | "Infinity" => some (1.0 / 0.0)
  | "-inf" | "-Infinity" => some (-(1.0 / 0.0))
  | "-0" => some (-0.0)
  | _ => none

/-- Sign, biased exponent and fraction fields of a double. -/
structure Fields where
  negative : Bool
  biased : Nat
  fraction : Nat

/-- The three fields of a double, read from its bits. -/
def fields (x : Float) : Fields :=
  let b := x.toBits.toNat
  ⟨Nat.pow 2 63 ≤ b, (b / Nat.pow 2 52) % 2048, b % Nat.pow 2 52⟩

/-- Significand `m` and binary exponent `q` of a finite double: its magnitude
is `m · 2^q`. -/
def Fields.significand (f : Fields) : Nat × Int :=
  if f.biased = 0 then (f.fraction, -1074)
  else (f.fraction + Nat.pow 2 52, (f.biased : Int) - 1075)

/-- `m · 2^q ≥ 10^e`, decided exactly. -/
def atLeastPow10 (m : Nat) (q e : Int) : Bool :=
  m * Nat.pow 2 q.toNat * Nat.pow 10 (-e).toNat ≥ Nat.pow 10 e.toNat * Nat.pow 2 (-q).toNat

/-- The decimal exponent of the leading digit of `m · 2^q`, for `m > 0`. -/
def leadingExponent (m : Nat) (q : Int) : Int :=
  let bits : Int := (m.log2 : Int) + q
  let guess := Int.fdiv (bits * 78913) 262144
  if atLeastPow10 m q (guess + 1) then guess + 1
  else if atLeastPow10 m q guess then guess
  else guess - 1

/-- The `n`-digit decimal (`d`, `k`), meaning `d · 10^k`, nearest to `m · 2^q`
among those that lie in its rounding interval, if any. The interval reaches
half a unit in the last place above, and half a unit (a quarter at the bottom
of a binade, `narrowBelow`) below; its ends belong to it when `m` is even. -/
def candidate (m : Nat) (q : Int) (narrowBelow : Bool) (lead : Int) (n : Nat) :
    Option (Nat × Int) :=
  let k := lead - n + 1
  let g := Nat.pow 2 q.toNat * Nat.pow 10 (-k).toNat
  let den := Nat.pow 2 (-q).toNat * Nat.pow 10 k.toNat
  let x4 := 4 * m * g
  let above := 2 * g
  let below := if narrowBelow then g else 2 * g
  let closed := m % 2 == 0
  let fits (d : Nat) : Bool :=
    let y := 4 * d * den
    (if closed then y ≤ x4 + above else y < x4 + above) &&
    (if closed then y + below ≥ x4 else y + below > x4)
  let lo := m * g / den
  let hi := if (m * g) % den = 0 then lo else lo + 1
  match fits lo, fits hi with
  | true, true =>
    let dLo := m * g - lo * den
    let dHi := hi * den - m * g
    if dLo < dHi || (dLo == dHi && lo % 2 == 0) then some (lo, k) else some (hi, k)
  | true, false => some (lo, k)
  | false, true => some (hi, k)
  | false, false => none

/-- Drops trailing zero digits, raising the exponent. -/
def stripZeros (fuel : Nat) (d : Nat) (k : Int) : Nat × Int :=
  match fuel with
  | 0 => (d, k)
  | fuel + 1 => if d ≠ 0 ∧ d % 10 = 0 then stripZeros fuel (d / 10) (k + 1) else (d, k)

/-- Shortest decimal `(d, k)` reading back as the positive finite `m · 2^q`. -/
def shortest (m : Nat) (q : Int) (narrowBelow : Bool) : Nat × Int :=
  let lead := leadingExponent m q
  let found := (List.range 17).findSome? fun i => candidate m q narrowBelow lead (i + 1)
  let (d, k) := found.getD (m, q)
  stripZeros 20 d k

/-- Digits of the shortest decimal of a positive finite double. -/
def shortestOf (f : Fields) : Nat × Int :=
  let (m, q) := f.significand
  shortest m q (f.fraction = 0 && f.biased > 1)

/-- Where a double's text turns scientific and how its exponent is written. -/
structure FloatStyle where
  /-- Lowest decimal exponent of the leading digit written positionally; the
  highest is always 15. -/
  lowestPositional : Int
  /-- Whether a nonnegative exponent carries a plus sign. -/
  plusSign : Bool
  /-- Least number of exponent digits, zeros padding the rest. -/
  exponentDigits : Nat

/-- Doubles in answers: positional from `1e-4` on, exponents signed and of
two digits at least (`1e-05`, `1e+16`). -/
def FloatStyle.answer : FloatStyle := ⟨-4, true, 2⟩

/-- Doubles quoted in messages: positional from `1e-5` on, exponents
unpadded and always signed (`1e-6`, `1e+16`). -/
def FloatStyle.message : FloatStyle := ⟨-5, true, 1⟩

/-- Positional or scientific layout of `d · 10^k`: positional for a leading
digit at exponents from the style's lowest to 15, with at least one digit
after the point; scientific with a point only after a first digit that is
not the only one. -/
def layout (n : FloatStyle) (d : Nat) (k : Int) : String :=
  let s := toString d
  let len : Int := s.length
  let lead := k + len - 1
  if n.lowestPositional ≤ lead ∧ lead < 16 then
    if 0 ≤ k then s ++ String.ofList (List.replicate k.toNat '0') ++ ".0"
    else
      let before := len + k
      if 0 < before then
        String.ofList (s.toList.take before.toNat) ++ "." ++ String.ofList (s.toList.drop before.toNat)
      else "0." ++ String.ofList (List.replicate (-before).toNat '0') ++ s
  else
    let mant := match s.toList with
      | c :: rest => if rest.isEmpty then String.singleton c else String.singleton c ++ "." ++ String.ofList rest
      | [] => "0"
    let mag := toString (if lead < 0 then -lead else lead).toNat
    let expText := String.ofList (List.replicate (n.exponentDigits - mag.length) '0') ++ mag
    mant ++ "e" ++ (if lead < 0 then "-" else if n.plusSign then "+" else "") ++ expText

/-- Text of a double in a style: the shortest decimal that reads back, or
`NaN`, `inf`, `-inf` for the values that have none. -/
def renderIn (n : FloatStyle) (x : Float) : String :=
  if x.isNaN then "NaN"
  else if x.isInf then (if x < 0.0 then "-inf" else "inf")
  else
    let f := fields x
    let sign := if f.negative then "-" else ""
    if f.biased = 0 ∧ f.fraction = 0 then sign ++ "0.0"
    else
      let (d, k) := shortestOf f
      sign ++ layout n d k

/-- Text of a double in answers. -/
def render (x : Float) : String := renderIn FloatStyle.answer x

end Subsurface.Decimal
