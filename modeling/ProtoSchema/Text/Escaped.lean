/-! # Bytes inside a string literal

`Escaped.encode` writes any bytes so that they can stand between quotation marks: printable ASCII
as it is, the two quotation marks, the backslash, tab, carriage return and newline behind a
backslash, every other byte as a backslash and three octal digits. -/

namespace ProtoSchema.Escaped

/-- The octal digit `n % 8`. -/
def octalDigit (n : Nat) : Char := Char.ofNat ('0'.toNat + n % 8)

/-- The written form of one byte. -/
def encodeByte (b : UInt8) : List Char :=
  if b = 0x09 then ['\\', 't']
  else if b = 0x0d then ['\\', 'r']
  else if b = 0x0a then ['\\', 'n']
  else if b = 0x5c then ['\\', '\\']
  else if b = 0x27 then ['\\', '\'']
  else if b = 0x22 then ['\\', '"']
  else if 0x20 ≤ b ∧ b ≤ 0x7e then [Char.ofNat b.toNat]
  else ['\\', octalDigit (b.toNat / 64), octalDigit (b.toNat / 8), octalDigit b.toNat]

/-- The written form of a run of bytes, without quotation marks. -/
def encode (bytes : List UInt8) : List Char := bytes.flatMap encodeByte

/-- A text between double quotation marks. -/
def quote (s : String) : String :=
  String.ofList ('"' :: encode s.toUTF8.toList ++ ['"'])

example : encode [0x61, 0x22, 0x0a, 0x01, 0xff] =
    ['a', '\\', '"', '\\', 'n', '\\', '0', '0', '1', '\\', '3', '7', '7'] := by decide

end ProtoSchema.Escaped
