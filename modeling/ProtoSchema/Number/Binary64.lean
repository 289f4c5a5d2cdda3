/-! # Binary floating-point numbers of 64 bits

A finite `Binary64` is `± mantissa * 2 ^ exponent` with a mantissa below `2 ^ 53`; below the
normal range the exponent is `minExponent`.  `ofDecimal` rounds a decimal to the nearest such
number, a tie to the even mantissa, and overflows to infinity.  Everything is computed on natural
numbers, so every statement about it is one about them. -/

namespace ProtoSchema

/-- A floating-point number: `± mantissa * 2 ^ exponent`, infinite or no number. -/
inductive Binary64 where
  | nan
  | infinite (negative : Bool)
  | finite (negative : Bool) (mantissa : Nat) (exponent : Int)
deriving DecidableEq, Repr, Inhabited

namespace Binary64

/-- Mantissas are below `2 ^ 53`. -/
def mantissaLimit : Nat := 9007199254740992

/-- The exponent of the smallest numbers. -/
def minExponent : Int := -1074

/-- The exponent of the largest finite numbers. -/
def maxExponent : Int := 971

/-- The number with the other sign; the one without a value has no sign. -/
def neg : Binary64 → Binary64
  | nan => nan
  | infinite s => infinite (!s)
  | finite s m q => finite (!s) m q

/-- The integer nearest to `n / d`, a tie to the even one. -/
def roundDiv (n d : Nat) : Nat :=
  if 2 * (n % d) < d then n / d
  else if d < 2 * (n % d) then n / d + 1
  else n / d + (n / d) % 2

/-- The exponent at which the positive fraction `n / d` has a mantissa of 53 bits, or the least
exponent if that is larger. -/
def exponentOf (n d : Nat) : Int :=
  let e : Int := (Nat.log2 n : Int) - (Nat.log2 d : Int)
  let q := if d * Nat.pow 2 e.toNat ≤ n * Nat.pow 2 (-e).toNat then e - 52 else e - 53
  max q minExponent

/-- The number nearest to the fraction `n / d`. -/
def ofFraction (n d : Nat) : Binary64 :=
  if n = 0 then finite false 0 minExponent
  else
    let q := exponentOf n d
    let m := roundDiv (n * Nat.pow 2 (-q).toNat) (d * Nat.pow 2 q.toNat)
    let (m, q) := if m = mantissaLimit then (mantissaLimit / 2, q + 1) else (m, q)
    if q > maxExponent then infinite false else finite false m q

/-- The number nearest to `n * 10 ^ e`.  Exponents so far out that the result is infinite or zero
whatever the digits are decided first. -/
def ofDecimal (n : Nat) (e : Int) : Binary64 :=
  if n = 0 ∨ e + (Nat.log2 n + 1) < -330 then finite false 0 minExponent
  else if e > 310 then infinite false
  else ofFraction (n * Nat.pow 10 e.toNat) (Nat.pow 10 (-e).toNat)

example : ofDecimal 15 (-1) = finite false 6755399441055744 (-52) := by decide +kernel
example : ofDecimal 5 (-324) = finite false 1 (-1074) := by decide +kernel
example : ofDecimal 1 400 = infinite false := by decide +kernel

end Binary64

end ProtoSchema
