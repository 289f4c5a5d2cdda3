import ProtoSchema.Proofs.Token.Literals

/-! # Literals of bytes

Any bytes can be written between quotation marks, whatever text follows: the escapes are read back byte
by byte (`Token.Quotation.body_encode`).  Only then it is decided whether the bytes are UTF-8.  If they
are, the literal is one token, whose value is the text that they encode; otherwise the whole literal is
a fault (`Scan.ofChars_literal`). -/

namespace ProtoSchema

namespace Token.Quotation

variable {bytes : List UInt8} {s : String}

/-- The text that some bytes encode is the one whose UTF-8 form they are. -/
theorem fromUTF8?_eq_some_iff :
    String.fromUTF8? bytes.toByteArray = some s ↔ bytes = s.toUTF8.toList := by
  constructor
  · intro h
    unfold String.fromUTF8? at h
    split at h
    · cases h
      rw [toList_eq]
      simp [String.fromUTF8]
    · cases h
  · rintro rfl
    exact fromUTF8?_toUTF8 s

/-- A literal for some bytes, with its quotation marks. -/
def literal (bytes : List UInt8) : List Char := '"' :: (Escaped.encode bytes ++ ['"'])

theorem literal_append (bytes : List UInt8) (rest : List Char) :
    literal bytes ++ rest = '"' :: (Escaped.encode bytes ++ '"' :: rest) := by
  simp [literal]

/-- The characters behind the opening mark, as they are counted by the reader. -/
theorem take_literal (bytes : List UInt8) (rest : List Char) :
    '"' :: (Escaped.encode bytes ++ '"' :: rest).take ((Escaped.encode bytes).length + 1) =
      literal bytes := by
  rw [literal, List.append_cons, List.take_left' (by simp)]

/-- How a literal for some bytes is read. -/
theorem read_literal (bytes : List UInt8) (rest : List Char) (start : Nat) :
    read '"' start (Escaped.encode bytes ++ '"' :: rest) =
      match String.fromUTF8? bytes.toByteArray with
      | some s => .ok (s, (Escaped.encode bytes).length + 1)
      | none => .error (.invalidEscape ⟨start, start + byteSize (literal bytes)⟩) := by
  simp only [read, body_encode]
  cases String.fromUTF8? bytes.toByteArray with
  | some s => rfl
  | none =>
    rw [← take_literal bytes rest, byteSize_cons, ← Nat.add_assoc]
    rfl

end Token.Quotation

theorem Lexeme.read_quote (offset : Nat) (cs : List Char) :
    Lexeme.read offset '"' cs =
      match Token.Quotation.read '"' offset cs with
      | .ok (s, n) => .ok (some (.string s), n)
      | .error f => .error f := rfl

namespace Scan

open Token.Quotation

/-- A literal for some bytes in front of any text is one token with the value `s` if and only if the
bytes are the UTF-8 form of `s`; if they are not the UTF-8 form of any text, the whole literal is an
invalid escape. -/
theorem ofChars_literal (bytes : List UInt8) (rest : List Char) (lines : LineIndex) (offset : Nat) :
    let stop := offset + byteSize (literal bytes)
    let behind := ofChars lines stop rest
    (∀ s : String, ofChars lines offset (literal bytes ++ rest) =
        ⟨⟨.string s, String.ofList (literal bytes), ⟨offset, stop⟩, lines.position offset⟩ :: behind.tokens,
          behind.ending⟩ ↔
      bytes = s.toUTF8.toList) ∧
    (ofChars lines offset (literal bytes ++ rest) = ⟨[], .fault (.invalidEscape ⟨offset, stop⟩)⟩ ↔
      ∀ s : String, bytes ≠ s.toUTF8.toList) := by
  intro stop behind
  simp only [ne_eq, ← fromUTF8?_eq_some_iff]
  cases htext : String.fromUTF8? bytes.toByteArray with
  | some text =>
    have hstands : (Piece.token (.string text) '"' (Escaped.encode bytes ++ ['"'])).Stands rest := by
      rw [fromUTF8?_eq_some_iff.mp htext]
      exact string_stands text rest
    have hscan : ofChars lines offset (literal bytes ++ rest) =
        ⟨⟨.string text, String.ofList (literal bytes), ⟨offset, stop⟩, lines.position offset⟩ :: behind.tokens,
          behind.ending⟩ := ofChars_token hstands offset
    rw [hscan]
    exact ⟨fun s => by simp, by simp⟩
  | none =>
    have hscan : ofChars lines offset (literal bytes ++ rest) =
        ⟨[], .fault (.invalidEscape ⟨offset, stop⟩)⟩ := by
      rw [literal_append]
      unfold ofChars
      rw [Lexeme.read_quote, read_literal, htext]
    rw [hscan]
    exact ⟨fun s => by simp, by simp⟩

end Scan

end ProtoSchema
