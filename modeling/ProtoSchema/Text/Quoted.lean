import ProtoSchema.Text.Printable

/-! # Quoted text in listings

A listing shows a text between quotation marks so that every character of it can be told: the
quotation mark and the backslash stand behind a backslash, tab, newline, carriage return and the
zero character are a backslash and a letter, other characters that are not printable are written
by number. -/

namespace ProtoSchema.Text

/-- The number of a character in lower case hexadecimal. -/
def hexNumber (c : Char) : List Char := Nat.toDigits 16 c.toNat

/-- A character inside quotation marks. -/
def quoteChar (c : Char) : List Char :=
  if c = '"' then ['\\', '"']
  else if c = '\\' then ['\\', '\\']
  else if c = '\t' then ['\\', 't']
  else if c = '\n' then ['\\', 'n']
  else if c = '\r' then ['\\', 'r']
  else if c.toNat = 0 then ['\\', '0']
  else if isPrintable c then [c]
  else '\\' :: 'u' :: '{' :: hexNumber c ++ ['}']

/-- A text between quotation marks. -/
def quote (s : String) : String := String.ofList ('"' :: s.toList.flatMap quoteChar ++ ['"'])

end ProtoSchema.Text
