/-
  Arithmetic on floating point numbers, rounded to nearest.

  Every operation computes the exact result as a fraction and rounds it once
  (`remainder` is exact).  A NaN operand is the result, made quiet, the left
  one first; an operation without a numerical answer gives `Number.invalid`.
-/
import ConstRestore.Ieee.Format

namespace ConstRestore.Ieee.Number

variable {f : Format}

/-- The NaN operand that decides a result, if there is one. -/
def propagated (x y : Number f) : Option (Number f) :=
  match x.decode, y.decode with
  | .nan s p, _ => some (quietNaN f s p)
  | _, .nan s p => some (quietNaN f s p)
  | _, _ => none

/-- The opposite sign, also of a zero and of a NaN. -/
def neg (x : Number f) : Number f := ofFields f (!x.negative) x.magnitude

private def signed (negative : Bool) (m : Nat) : Int := if negative then -(m : Int) else m

/-- A sum that is exactly zero is negative only when both terms are. -/
def add (x y : Number f) : Number f :=
  (propagated x y).getD <|
    match x.decode, y.decode with
    | .infinite s, .infinite t => if s = t then x else invalid f
    | .infinite _, _ => x
    | _, .infinite _ => y
    | .finite s m e, .finite t n k =>
      let low := min e k
      let sum := signed s (m <<< (e - low).toNat) + signed t (n <<< (k - low).toNat)
      if sum = 0 then ofFields f (s && t) 0 else ofDyadic f (sum < 0) sum.natAbs low
    | _, _ => invalid f

def sub (x y : Number f) : Number f := (propagated x y).getD (x.add y.neg)

def mul (x y : Number f) : Number f :=
  (propagated x y).getD <|
    let s := x.negative ^^ y.negative
    match x.decode, y.decode with
    | .finite _ m e, .finite _ n k => ofDyadic f s (m * n) (e + k)
    | .finite _ 0 _, _ => invalid f
    | _, .finite _ 0 _ => invalid f
    | _, _ => infinite f s

def div (x y : Number f) : Number f :=
  (propagated x y).getD <|
    let s := x.negative ^^ y.negative
    match x.decode, y.decode with
    | .finite _ 0 _, .finite _ 0 _ => invalid f
    | .finite _ _ _, .finite _ 0 _ => infinite f s
    | .finite _ m e, .finite _ n k =>
      let (num, den) := dyadic m (e - k)
      round f s num (den * n)
    | .finite .., _ => ofFields f s 0
    | _, .finite .. => infinite f s
    | _, _ => invalid f

/-- The remainder of the division truncated toward zero; it has the sign of
    the dividend. -/
def remainder (x y : Number f) : Number f :=
  (propagated x y).getD <|
    match x.decode, y.decode with
    | .finite _ _ _, .finite _ 0 _ => invalid f
    | .finite s m e, .finite _ n k =>
      let low := min e k
      ofDyadic f s ((m <<< (e - low).toNat) % (n <<< (k - low).toNat)) low
    | .finite .., _ => x
    | _, _ => invalid f

end ConstRestore.Ieee.Number
