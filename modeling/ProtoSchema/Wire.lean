/-! # The binary form of records

A record is a sequence of items, each a number and a value.  In the binary form the number stands
in front of its value, together with the kind of the value: a number, or a run of bytes with its
length in front.  Numbers are written in groups of seven bits, the lowest first. -/

namespace ProtoSchema.Wire

/-- A number in groups of seven bits; all bytes but the last have the highest bit set. -/
def varint (n : Nat) : List UInt8 :=
  if n < 128 then [n.toUInt8] else (n % 128 + 128).toUInt8 :: varint (n / 128)

/-- The number of a signed number: a negative one counts from `2 ^ 64` down. -/
def unsigned (n : Int) : Nat := (n % 18446744073709551616).toNat

/-- What an item of a record holds. -/
inductive Value where
  | number (n : Nat)
  | bytes (b : List UInt8)
deriving DecidableEq, Repr, Inhabited

/-- The values of a record, each behind the number of its item. -/
abbrev Record := List (Nat × Value)

/-- A text is the bytes of its UTF-8 form. -/
def Value.text (s : String) : Value := .bytes s.toUTF8.toList

/-- An item of a record. -/
def item (number : Nat) : Value → List UInt8
  | .number n => varint (8 * number) ++ varint n
  | .bytes b => varint (8 * number + 2) ++ varint b.length ++ b

/-- The items of a record, one behind the other. -/
def encode (r : Record) : List UInt8 := r.flatMap fun e => item e.1 e.2

/-- A record as a value of another one. -/
def Value.record (r : Record) : Value := .bytes (encode r)

/-- An item for each of some values. -/
def each {α : Type} (number : Nat) (value : α → Value) (xs : List α) : Record :=
  xs.map fun x => (number, value x)

/-- An item for a value that may be missing. -/
def whenSome {α : Type} (number : Nat) (value : α → Value) (x : Option α) : Record :=
  each number value x.toList

example : varint 300 = [0xAC, 0x02] := by decide +kernel
example : (varint (unsigned (-1))).length = 10 := by decide +kernel
example : encode [(1, .text "a"), (3, .number 1)] = [0x0A, 1, 0x61, 0x18, 1] := by decide +kernel

end ProtoSchema.Wire
