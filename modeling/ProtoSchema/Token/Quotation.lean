import ProtoSchema.Token.Number

/-! # String literals

A string literal stands between two equal quotation marks on one line.  It denotes bytes: a
character stands for its UTF-8 form, and a backslash begins an escape for one byte, a letter, up
to two hexadecimal digits behind `x` or up to three octal digits.  The bytes together must be
UTF-8. -/

namespace ProtoSchema.Token.Quotation

/-- The byte that an escape stands for and the number of characters behind the backslash that it
takes; an unknown or malformed escape has no byte. -/
def escape : List Char → Option UInt8 × Nat
  | [] => (none, 0)
  | c :: cs =>
    match c with
    | 'a' => (some 0x07, 1)
    | 'b' => (some 0x08, 1)
    | 'f' => (some 0x0c, 1)
    | 'n' => (some 0x0a, 1)
    | 'r' => (some 0x0d, 1)
    | 't' => (some 0x09, 1)
    | 'v' => (some 0x0b, 1)
    | '?' => (some 0x3f, 1)
    | '\\' => (some 0x5c, 1)
    | '\'' => (some 0x27, 1)
    | '"' => (some 0x22, 1)
    | _ =>
      if c = 'x' ∨ c = 'X' then
        let ds := (cs.take 2).takeWhile Number.isHex
        (if ds = [] then none else some (UInt8.ofNat (Number.value 16 ds)), 1 + ds.length)
      else if Number.isOctal c then
        let ds := (cs.take 2).takeWhile Number.isOctal
        let n := Number.value 8 (c :: ds)
        (if n < 256 then some (UInt8.ofNat n) else none, 1 + ds.length)
      else (none, 1)

/-- Reads what stands behind the opening quotation mark `quote`, which is at `start`, from `offset`
on: the bytes, and the number of characters up to and including the closing mark. -/
def body (quote : Char) (start : Nat) (offset : Nat) (cs : List Char) :
    Except Fault (List UInt8 × Nat) :=
  match cs with
  | [] => .error (.unterminatedString ⟨start, start + 1⟩)
  | c :: cs =>
    if c = '\n' then .error (.unterminatedString ⟨start, offset⟩)
    else if c = quote then .ok ([], 1)
    else if c = '\\' then
      match escape cs with
      | (none, n) =>
        .error (.invalidEscape ⟨offset, offset + 1 + byteSize (cs.take n)⟩)
      | (some b, n) =>
        match body quote start (offset + 1 + byteSize (cs.take n)) (cs.drop n) with
        | .error f => .error f
        | .ok (bytes, m) => .ok (b :: bytes, 1 + n + m)
    else
      match body quote start (offset + c.utf8Size) cs with
      | .error f => .error f
      | .ok (bytes, m) => .ok (String.utf8EncodeChar c ++ bytes, 1 + m)
termination_by cs.length
decreasing_by all_goals simp only [List.length_drop, List.length_cons]; omega

/-- Reads the literal that begins with the quotation mark `quote` at `start`: its value and the
number of characters behind the mark that it takes. -/
def read (quote : Char) (start : Nat) (cs : List Char) : Except Fault (String × Nat) :=
  match body quote start (start + 1) cs with
  | .error f => .error f
  | .ok (bytes, n) =>
    match String.fromUTF8? bytes.toByteArray with
    | some s => .ok (s, n)
    | none => .error (.invalidEscape ⟨start, start + 1 + byteSize (cs.take n)⟩)

end ProtoSchema.Token.Quotation
