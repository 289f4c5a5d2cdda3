import ProtoSchema.Number.Binary64

/-! # Shortest decimals

The text of a floating-point number has the fewest digits that read back as the same number, and
of those with that many digits it is the nearest one.  The decimals that read back are those in
the interval half way to both neighbours (its ends too, if the mantissa is even); the search takes
the grids of one, two, … digits in turn and tests the two grid points around the value, which is
enough, since the value lies between them. -/

namespace ProtoSchema.Binary64

/-- The interval of reals that round to `mantissa * 2 ^ exponent`, in quarters of the last place:
its lower end, the number itself and its upper end. -/
def interval (mantissa : Nat) (exponent : Int) : Nat × Nat × Nat :=
  let low := if mantissa = mantissaLimit / 2 ∧ exponent ≠ minExponent then 4 * mantissa - 1
    else 4 * mantissa - 2
  (low, 4 * mantissa, 4 * mantissa + 2)

/-- The number on the grid of multiples of `10 ^ p`: quarters of its last place are `quarter /
unit` grid steps. -/
structure Grid where
  quarter : Nat
  unit : Nat

def Grid.at (exponent p : Int) : Grid where
  quarter := Nat.pow 2 (exponent - 2).toNat * Nat.pow 10 (-p).toNat
  unit := Nat.pow 10 p.toNat * Nat.pow 2 (2 - exponent).toNat

/-- Does the grid point `d` read back as the number? -/
def Grid.reads (g : Grid) (mantissa : Nat) (exponent : Int) (d : Nat) : Bool :=
  let (low, _, high) := interval mantissa exponent
  if mantissa % 2 = 0 then low * g.quarter ≤ d * g.unit && d * g.unit ≤ high * g.quarter
  else low * g.quarter < d * g.unit && d * g.unit < high * g.quarter

/-- The grid point at or below the number. -/
def Grid.below (g : Grid) (mantissa : Nat) : Nat := 4 * mantissa * g.quarter / g.unit

/-- The nearest grid point; half way it is the upper one. -/
def Grid.nearest (g : Grid) (mantissa : Nat) : Nat :=
  if 2 * (4 * mantissa * g.quarter % g.unit) < g.unit then g.below mantissa
  else g.below mantissa + 1

/-- The nearest of the two grid points around the number that read back, if one does. -/
def Grid.hit (g : Grid) (mantissa : Nat) (exponent : Int) : Option Nat :=
  let d := g.below mantissa
  match g.reads mantissa exponent d, g.reads mantissa exponent (d + 1) with
  | true, true => some (g.nearest mantissa)
  | true, false => some d
  | false, true => some (d + 1)
  | false, false => none

/-- Tries the grid `10 ^ p` and up to `more` finer ones; on the last the nearest point is taken
as it is. -/
def shortestFrom (mantissa : Nat) (exponent : Int) : Nat → Int → Nat × Int
  | 0, p => ((Grid.at exponent p).nearest mantissa, p)
  | more + 1, p =>
    match (Grid.at exponent p).hit mantissa exponent with
    | some d => (d, p)
    | none => shortestFrom mantissa exponent more (p - 1)

/-- The `p` with `10 ^ p ≤ mantissa * 2 ^ exponent < 10 ^ (p + 1)`.  The estimate from the binary
logarithm is off by one at most. -/
def decimalExponent (mantissa : Nat) (exponent : Int) : Int :=
  let p := ((Nat.log2 mantissa : Int) + exponent) * 30103 / 100000
  let reaches (p : Int) : Bool := (Grid.at exponent p).below mantissa ≥ 1
  if reaches (p + 1) then p + 1 else if reaches p then p else p - 1

/-- The shortest decimal `d * 10 ^ p` of a positive number, as `(d, p)`; seventeen digits always
read back. -/
def shortest (mantissa : Nat) (exponent : Int) : Nat × Int :=
  shortestFrom mantissa exponent 16 (decimalExponent mantissa exponent)

/-- The text of the decimal with digits `ds` and last place `10 ^ p`: positional from `10 ^ -4` to
below `10 ^ 16`, with `.0` behind an integer, and scientific elsewhere. -/
def decimalText (ds : List Char) (p : Int) : List Char :=
  let e := p + ds.length - 1
  if -4 ≤ e ∧ e < 16 then
    if 0 ≤ p then ds ++ List.replicate p.toNat '0' ++ ['.', '0']
    else if 0 ≤ e then ds.take (e.toNat + 1) ++ '.' :: ds.drop (e.toNat + 1)
    else '0' :: '.' :: List.replicate (-e - 1).toNat '0' ++ ds
  else
    let tail := match ds with
      | d :: d' :: rest => d :: '.' :: d' :: rest
      | _ => ds
    tail ++ 'e' :: (if e < 0 then ['-'] else []) ++ Nat.toDigits 10 e.natAbs

/-- The digits of `d` without the zeros at their end, which count as places: a carry can leave
some. -/
def significant (d : Nat) : List Char × Nat :=
  let ds := Nat.toDigits 10 d
  let zeros := (ds.reverse.takeWhile (· = '0')).length
  (ds.take (ds.length - zeros), zeros)

/-- A number without a sign is written without one, and so is the one without a value. -/
def text : Binary64 → String
  | nan => "nan"
  | infinite false => "inf"
  | infinite true => "-inf"
  | finite s m q =>
    let body :=
      if m = 0 then ['0', '.', '0']
      else
        let (d, p) := shortest m q
        let (ds, zeros) := significant d
        decimalText ds (p + zeros)
    String.ofList (if s then '-' :: body else body)

example : (ofDecimal 15 (-1)).text = "1.5" := by decide +kernel
example : (ofDecimal 5 (-324)).text = "5e-324" := by decide +kernel
example : (ofDecimal 1 23).text = "1e23" := by decide +kernel
example : (ofDecimal 15 (-6)).text = "1.5e-5" := by decide +kernel
example : (finite true 0 minExponent).text = "-0.0" := by decide +kernel

end ProtoSchema.Binary64
