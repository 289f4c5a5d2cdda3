import ProtoSchema.Token.Quotation

/-! # Scanning

`Lexeme.read` takes the next piece off a text: a stretch of blanks, a comment, or a token.  It is
told the first character and what follows, and answers how many more characters the piece takes,
so every piece is non-empty and `Scan.ofChars` ends.  The pieces of a text are consecutive;
`Scan.ofText` keeps the tokens among them. -/

namespace ProtoSchema

namespace Lexeme

/-- Blanks are tab, newline, vertical tab, form feed, carriage return and space. -/
def isBlank (c : Char) : Bool :=
  c == '\t' || c == '\n' || c == '\x0b' || c == '\x0c' || c == '\r' || c == ' '

def isWordStart (c : Char) : Bool := c.isAlpha || c == '_'

def isWordPart (c : Char) : Bool := c.isAlphanum || c == '_'

/-- The number of characters up to and including the first `*/`. -/
def commentLength : List Char → Option Nat
  | [] => none
  | c :: cs =>
    match c, cs with
    | '*', '/' :: _ => some 2
    | _, _ => (commentLength cs).map (· + 1)

/-- Reads the piece that begins with `c` at `offset`, in front of `cs`: its kind, or none if it is
skipped, and the number of further characters in it. -/
def read (offset : Nat) (c : Char) (cs : List Char) : Except Fault (Option Token.Kind × Nat) :=
  if isBlank c then .ok (none, (cs.takeWhile isBlank).length)
  else if isWordStart c then
    let more := cs.takeWhile isWordPart
    .ok (some (.ofWord (String.ofList (c :: more))), more.length)
  else if c.isDigit then
    match Token.Number.read c cs with
    | (some kind, n) => .ok (some kind, n)
    | (none, n) => .error (.integerTooLarge ⟨offset, offset + 1 + n⟩)
  else if c = '"' ∨ c = '\'' then
    match Token.Quotation.read c offset cs with
    | .ok (s, n) => .ok (some (.string s), n)
    | .error f => .error f
  else
    match c, cs with
    | '/', '/' :: cs => .ok (none, 1 + (cs.takeWhile (· ≠ '\n')).length)
    | '/', '*' :: cs =>
      match commentLength cs with
      | some n => .ok (none, 1 + n)
      | none => .error (.unterminatedComment ⟨offset, offset + 2⟩)
    | '.', d :: ds =>
      if d.isDigit then
        let (kind, n) := Token.Number.readFraction (d :: ds)
        .ok (some kind, n)
      else .ok (some (.punct .dot), 0)
    | _, _ =>
      match Punct.ofChar? c with
      | some p => .ok (some (.punct p), 0)
      | none => .error (.unexpectedCharacter c ⟨offset, offset + c.utf8Size⟩)

end Lexeme

namespace Scan

/-- The tokens of the text `cs`, which begins at `offset` of a text with these lines. -/
def ofChars (lines : LineIndex) (offset : Nat) (cs : List Char) : Scan :=
  match cs with
  | [] => ⟨[], .endOfText offset⟩
  | c :: cs =>
    match Lexeme.read offset c cs with
    | .error f => ⟨[], .fault f⟩
    | .ok (kind?, n) =>
      let text := c :: cs.take n
      let stop := offset + byteSize text
      let rest := ofChars lines stop (cs.drop n)
      match kind? with
      | none => rest
      | some kind =>
        { rest with
          tokens := ⟨kind, String.ofList text, ⟨offset, stop⟩, lines.position offset⟩ :: rest.tokens }
termination_by cs.length
decreasing_by all_goals simp only [List.length_drop, List.length_cons]; omega

def ofText (source : String) : Scan := ofChars (.ofText source) 0 source.toList

end Scan

end ProtoSchema
