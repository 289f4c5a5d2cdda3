import ProtoSchema.Token.Basic

/-! # Number literals

An integer is decimal, octal behind a `0` or hexadecimal behind `0x`; a floating-point number has
a point with digits on at least one side, or an exponent.  The longest reading wins, so a point or
an exponent makes a number of what would be an integer by itself, and an exponent without digits
does not belong to the number.  A run of digits that begins with `08` or `09` reads as one zero. -/

namespace ProtoSchema.Token.Number

/-- The value of a digit, in any base up to sixteen. -/
def digit (c : Char) : Nat :=
  if c.isDigit then c.toNat - '0'.toNat
  else if 'a' ≤ c ∧ c ≤ 'f' then c.toNat - 'a'.toNat + 10
  else c.toNat - 'A'.toNat + 10

def isHex (c : Char) : Bool := c.isDigit || ('a' ≤ c && c ≤ 'f') || ('A' ≤ c && c ≤ 'F')

def isOctal (c : Char) : Bool := '0' ≤ c && c ≤ '7'

/-- The value of a run of digits. -/
def value (base : Nat) (ds : List Char) : Nat := ds.foldl (fun n c => n * base + digit c) 0

/-- The longest front part of decimal digits. -/
def digits (cs : List Char) : List Char := cs.takeWhile Char.isDigit

/-- Integers have 64 bits: they are below `2 ^ 64`. -/
def intLimit : Nat := 18446744073709551616

/-- An exponent: the characters that it takes and its value; nothing if no digit follows. -/
def exponent (cs : List Char) : Nat × Int :=
  match cs with
  | c :: rest =>
    if c = 'e' ∨ c = 'E' then
      let (signs, negative) := match rest with
        | '-' :: _ => (1, true)
        | '+' :: _ => (1, false)
        | _ => (0, false)
      let ds := digits (rest.drop signs)
      if ds = [] then (0, 0)
      else (1 + signs + ds.length, if negative then -(value 10 ds : Int) else value 10 ds)
    else (0, 0)
  | [] => (0, 0)

/-- A number of digits before and behind the point, and what follows it. -/
def float (whole fraction rest : List Char) : Binary64 × Nat :=
  let (size, e) := exponent rest
  (Binary64.ofDecimal (value 10 (whole ++ fraction)) (e - fraction.length), size)

/-- An integer literal whose digits are `ds`: its value, unless it is too large.  Digits that are
not octal end an octal literal badly, except right behind the zero. -/
def decimalInt (ds : List Char) : Option Nat :=
  let bounded (n : Nat) : Option Nat := if n < intLimit then some n else none
  match ds with
  | '0' :: c :: rest =>
    if ¬isOctal c then some 0
    else if rest.all isOctal then bounded (value 8 (c :: rest))
    else none
  | _ => bounded (value 10 ds)

/-- Reads the literal that begins with the digit `c`: its kind, or nothing if the integer is too
large, and the number of characters behind `c` that it takes. -/
def read (c : Char) (cs : List Char) : Option Kind × Nat :=
  let more := digits cs
  let whole := c :: more
  let rest := cs.drop more.length
  match rest with
  | '.' :: rest' =>
    let fraction := digits rest'
    let (x, size) := float whole fraction (rest'.drop fraction.length)
    (some (.float x), more.length + 1 + fraction.length + size)
  | _ =>
    let (x, size) := float whole [] rest
    if 0 < size then (some (.float x), more.length + size)
    else
      let hex := match rest with
        | 'x' :: rest' | 'X' :: rest' => if whole = ['0'] then rest'.takeWhile isHex else []
        | _ => []
      if hex = [] then ((decimalInt whole).map .int, more.length)
      else
        let n := value 16 hex
        (if n < intLimit then some (.int n) else none, 1 + hex.length)

/-- Reads the literal that begins with a point and the digits `cs`. -/
def readFraction (cs : List Char) : Kind × Nat :=
  let fraction := digits cs
  let (x, size) := float [] fraction (cs.drop fraction.length)
  (.float x, fraction.length + size)

end ProtoSchema.Token.Number
