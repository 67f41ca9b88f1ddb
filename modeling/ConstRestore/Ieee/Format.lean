/-
  Binary floating point numbers as bit patterns.

  A `Format` gives the field widths of an interchange format; a `Number f` is
  a bit pattern of that format, so two numbers are equal exactly when their
  bits are (a zero and its negative differ, and a NaN equals itself).

  * `decode` reads a pattern as a sign with a finite magnitude
    `significand · 2^exponent`, an infinity, or a NaN with its payload;
  * `round` is the pattern nearest to a fraction, ties to the even significand,
    overflow to infinity;
  * `convert` changes the format, rounding once; a NaN keeps its sign and the
    leading bits of its payload.
-/
namespace ConstRestore.Ieee

/-- The field widths of a binary interchange format. -/
structure Format where
  /-- Stored bits of the significand. -/
  fractionBits : Nat
  /-- Bits of the biased exponent. -/
  exponentBits : Nat
  deriving DecidableEq

/-- The 32-bit format. -/
abbrev single : Format := ⟨23, 8⟩

/-- The 64-bit format. -/
abbrev double : Format := ⟨52, 11⟩

namespace Format

/-- Sign, exponent and fraction together. -/
abbrev width (f : Format) : Nat := 1 + f.exponentBits + f.fractionBits

/-- The exponent of the last place of the smallest numbers. -/
def minExponent (f : Format) : Int := 2 - (1 <<< (f.exponentBits - 1) : Nat) - f.fractionBits

/-- The magnitude bits of infinity: every exponent bit and no fraction bit. -/
def infinity (f : Format) : Nat := ((1 <<< f.exponentBits) - 1) <<< f.fractionBits

/-- The fraction bit that marks a quiet NaN. -/
def quietBit (f : Format) : Nat := 1 <<< (f.fractionBits - 1)

end Format

/-- A bit pattern of the format `f`. -/
structure Number (f : Format) where
  /-- Sign, exponent and fraction, the sign first. -/
  bits : BitVec f.width
  deriving DecidableEq

/-- What a bit pattern stands for. -/
inductive Datum where
  /-- `significand · 2^exponent`, negated if `negative`. -/
  | finite (negative : Bool) (significand : Nat) (exponent : Int)
  | infinite (negative : Bool)
  /-- Not a number, with its fraction bits. -/
  | nan (negative : Bool) (payload : Nat)
  deriving DecidableEq

/-- `numerator / denominator` rounded to an integer, a half to the even neighbour. -/
def roundHalfEven (numerator denominator : Nat) : Nat :=
  let q := numerator / denominator
  let twice := 2 * (numerator % denominator)
  if twice < denominator ∨ (twice = denominator ∧ q % 2 = 0) then q else q + 1

/-- `m · 2^e` as a fraction. -/
def dyadic (m : Nat) (e : Int) : Nat × Nat :=
  if 0 ≤ e then (m <<< e.toNat, 1) else (m, 1 <<< (-e).toNat)

/-- The largest `e` with `2^e ≤ num / den`, for a positive fraction. -/
def floorLog2 (num den : Nat) : Int :=
  let e : Int := (num.log2 : Int) - den.log2
  let (n, d) := dyadic num (-e)
  if n < d * den then e - 1 else e

namespace Number

variable {f g : Format}

/-- The pattern with the given sign and magnitude bits. -/
def ofFields (f : Format) (negative : Bool) (magnitude : Nat) : Number f :=
  ⟨BitVec.ofNat f.width ((negative.toNat <<< (f.exponentBits + f.fractionBits)) + magnitude)⟩

/-- Whether the sign bit is set. -/
def negative (x : Number f) : Bool := x.bits.msb

/-- Exponent and fraction bits. -/
def magnitude (x : Number f) : Nat := x.bits.toNat % (1 <<< (f.exponentBits + f.fractionBits))

def decode (x : Number f) : Datum :=
  let biased := x.magnitude >>> f.fractionBits
  let fraction := x.magnitude % (1 <<< f.fractionBits)
  if biased = (1 <<< f.exponentBits) - 1 then
    if fraction = 0 then .infinite x.negative else .nan x.negative fraction
  else if biased = 0 then .finite x.negative fraction f.minExponent
  else .finite x.negative ((1 <<< f.fractionBits) + fraction) (f.minExponent + (biased - 1 : Nat))

def isNaN (x : Number f) : Bool := f.infinity < x.magnitude

/-- The number nearest to `num / den`, which is negated if `negative`; a tie
    goes to the even significand.  The exponent of the last place is at least
    `minExponent`, and a significand that rounds up to a power of two carries
    into the exponent field. -/
def round (f : Format) (negative : Bool) (num den : Nat) : Number f :=
  if num = 0 then ofFields f negative 0 else
    let e := max f.minExponent (floorLog2 num den - f.fractionBits)
    let (n, d) := dyadic num (-e)
    let significand := roundHalfEven n (d * den)
    let magnitude := ((e - f.minExponent).toNat <<< f.fractionBits) + significand
    ofFields f negative (min magnitude f.infinity)

/-- The number nearest to `m · 2^e`. -/
def ofDyadic (f : Format) (negative : Bool) (m : Nat) (e : Int) : Number f :=
  let (num, den) := dyadic m e
  round f negative num den

def infinite (f : Format) (negative : Bool) : Number f := ofFields f negative f.infinity

/-- A quiet NaN whose fraction bits include `payload`. -/
def quietNaN (f : Format) (negative : Bool) (payload : Nat) : Number f :=
  ofFields f negative (f.infinity + (payload ||| f.quietBit))

/-- The outcome of an operation without a numerical answer. -/
def invalid (f : Format) : Number f := quietNaN f true 0

/-- The nearest number of another format. -/
def convert (g : Format) (x : Number f) : Number g :=
  match x.decode with
  | .finite s m e => ofDyadic g s m e
  | .infinite s => infinite g s
  | .nan s p => quietNaN g s ((p <<< g.fractionBits) >>> f.fractionBits)

/-- The number nearest to an integer. -/
def ofInt (f : Format) (i : Int) : Number f := round f (i < 0) i.natAbs 1

/-- The integer part, clamped to `lo … hi`; zero for a NaN. -/
def toIntClamped (lo hi : Int) (x : Number f) : Int :=
  match x.decode with
  | .finite s m e =>
    let (num, den) := dyadic m e
    let i : Int := if s then -(num / den : Nat) else (num / den : Nat)
    max lo (min hi i)
  | .infinite s => if s then lo else hi
  | .nan .. => 0

end Number

end ConstRestore.Ieee
