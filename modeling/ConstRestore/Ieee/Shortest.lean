/-
  Shortest decimal text of floating point numbers.

  * `Decimal` is `digits · 10^exponent`; `Decimal.positional` writes it without
    an exponent, `Decimal.mantissa` with one digit before the point.
  * `shortest` is the decimal with the fewest digits that reads back as the
    given magnitude; of those the one nearest to it, and of two equally near
    ones the larger.
-/
import ConstRestore.Ieee.Format

namespace ConstRestore.Ieee

/-- A decimal number `digits · 10^exponent`. -/
structure Decimal where
  digits : Nat
  exponent : Int
  deriving DecidableEq

namespace Decimal

/-- The digits as text. -/
def digitChars (d : Decimal) : List Char := Nat.toDigits 10 d.digits

/-- The exponent when one digit stands before the point. -/
def scientificExponent (d : Decimal) : Int := d.exponent + (d.digitChars.length - 1 : Nat)

/-- Plain notation; a point is written only before fraction digits. -/
def positional (d : Decimal) : String :=
  let cs := d.digitChars
  if 0 ≤ d.exponent then String.ofList (cs ++ List.replicate d.exponent.toNat '0')
  else
    let places := (-d.exponent).toNat
    let padded := List.replicate (places + 1 - cs.length) '0' ++ cs
    let whole := padded.length - places
    String.ofList (padded.take whole ++ '.' :: padded.drop whole)

/-- The digits with a point after the first, if there are more. -/
def mantissa (d : Decimal) : String :=
  match d.digitChars with
  | c :: [] => String.ofList [c]
  | c :: cs => String.ofList (c :: '.' :: cs)
  | [] => ""

/-- Drops zeros at the end of the digits. -/
def strip : Nat → Decimal → Decimal
  | 0, d => d
  | fuel + 1, d =>
    if d.digits ≠ 0 ∧ d.digits % 10 = 0 then strip fuel ⟨d.digits / 10, d.exponent + 1⟩ else d

end Decimal

/-- `num / den · 10^(-k)` as a fraction. -/
def scaleDown (num den : Nat) (k : Int) : Nat × Nat :=
  if 0 ≤ k then (num, den * Nat.pow 10 k.toNat) else (num * Nat.pow 10 (-k).toNat, den)

/-- The largest `k` with `10^k ≤ num / den`, for a positive fraction: 1233/4096
    is just below the logarithm of two, and one of three neighbours is right. -/
def floorLog10 (num den : Nat) : Int :=
  let low := floorLog2 num den * 1233 / 4096 - 1
  let reaches (k : Int) : Bool := let (n, d) := scaleDown num den k; decide (d ≤ n)
  if reaches (low + 2) then low + 2 else if reaches (low + 1) then low + 1 else low

/-- The interval of reals that round to a number, in units of the value's
    fraction, with its ends included or not. -/
structure Interval where
  low : Nat
  value : Nat
  high : Nat
  /-- The common denominator. -/
  unit : Nat
  closed : Bool

namespace Interval

/-- The reals that round to `m · 2^e`.  Below a power of two the neighbour is
    half as far, except at the smallest exponent. -/
def ofFinite (f : Format) (m : Nat) (e : Int) : Interval :=
  let narrow := m = 1 <<< f.fractionBits ∧ f.minExponent < e
  let (scale, unit) := dyadic 1 (e - 2)
  { low := (4 * m - if narrow then 1 else 2) * scale
    value := 4 * m * scale
    high := (4 * m + 2) * scale
    unit
    closed := m % 2 = 0 }

/-- Whether `d · 10^k` lies in the interval. -/
def contains (i : Interval) (d : Nat) (k : Int) : Bool :=
  let (ln, ld) := scaleDown i.low i.unit k
  let (hn, hd) := scaleDown i.high i.unit k
  if i.closed then ln ≤ d * ld ∧ d * hd ≤ hn else ln < d * ld ∧ d * hd < hn

/-- The better of the two neighbours of the value among the multiples of
    `10^k`, if the interval holds one. -/
def onGrid (i : Interval) (k : Int) : Option Decimal :=
  let (n, d) := scaleDown i.value i.unit k
  let q := n / d
  match i.contains q k, i.contains (q + 1) k with
  | true, true => some ⟨if 2 * (n % d) < d then q else q + 1, k⟩
  | true, false => some ⟨q, k⟩
  | false, true => some ⟨q + 1, k⟩
  | false, false => none

end Interval

/-- The shortest decimal of a positive finite magnitude `m · 2^e`: the first of
    the grids with 1, 2, … significant digits that has a point in the interval.
    Seventeen digits always suffice for the formats used here. -/
def shortest (f : Format) (m : Nat) (e : Int) : Decimal :=
  let i := Interval.ofFinite f m e
  let top := floorLog10 i.value i.unit
  let found := (List.range 17).findSome? fun (n : Nat) => i.onGrid (top - n)
  Decimal.strip 20 (found.getD ⟨m, 0⟩)

namespace Number

variable {f : Format}

/-- The shortest decimal of a number's magnitude. -/
def decimal (x : Number f) : Decimal :=
  match x.decode with
  | .finite _ 0 _ => ⟨0, 0⟩
  | .finite _ m e => shortest f m e
  | _ => ⟨0, 0⟩

private def sign (x : Number f) : String := if x.negative then "-" else ""

/-- Text without an exponent: `NaN`, `inf`, or the shortest decimal written out. -/
def plainText (x : Number f) : String :=
  match x.decode with
  | .nan .. => "NaN"
  | .infinite _ => x.sign ++ "inf"
  | .finite .. => x.sign ++ x.decimal.positional

/-- Whether a finite number has `10^(-3) ≤ |x| < 10^7`. -/
def isModerate (m : Nat) (e : Int) : Bool :=
  let (num, den) := dyadic m e
  den ≤ num * 1000 ∧ num < den * 10000000

/-- Text with at least one fraction digit: written out between one thousandth
    and ten million, with an exponent after `E` elsewhere. -/
def conversionText (x : Number f) : String :=
  match x.decode with
  | .nan .. => "NaN"
  | .infinite _ => x.sign ++ "Infinity"
  | .finite _ 0 _ => x.sign ++ "0.0"
  | .finite _ m e =>
    let d := x.decimal
    if isModerate m e then
      x.sign ++ d.positional ++ (if 0 ≤ d.exponent then ".0" else "")
    else
      x.sign ++ d.mantissa ++ (if d.digits < 10 then ".0" else "") ++ "E" ++ toString d.scientificExponent

end Number

end ConstRestore.Ieee
