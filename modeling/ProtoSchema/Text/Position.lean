/-! # Spans, lines and columns

Places in a source text are byte offsets of its UTF-8 form.  A `Span` is a half-open range of
them.  A `LineIndex` lists where the lines of a text begin; `LineIndex.position` turns an offset
into a line and a column, both counted from one, the column in bytes.  Only a newline ends a
line. -/

namespace ProtoSchema

/-- The bytes `[start, stop)` of a source text. -/
structure Span where
  start : Nat
  stop : Nat
deriving DecidableEq, Repr, Inhabited

/-- From the start of `a` to the end of `b`. -/
def Span.join (a b : Span) : Span := ⟨a.start, b.stop⟩

/-- A value and the place where it is written. -/
structure Located (α : Type) where
  value : α
  span : Span
deriving DecidableEq, Repr, Inhabited

/-- A line and a column, both counted from one. -/
structure Position where
  line : Nat
  column : Nat
deriving DecidableEq, Repr, Inhabited

/-- The number of bytes of a run of characters. -/
def byteSize : List Char → Nat
  | [] => 0
  | c :: cs => c.utf8Size + byteSize cs

@[simp] theorem byteSize_nil : byteSize [] = 0 := rfl

@[simp] theorem byteSize_cons (c : Char) (cs : List Char) :
    byteSize (c :: cs) = c.utf8Size + byteSize cs := rfl

@[simp] theorem byteSize_append (cs ds : List Char) :
    byteSize (cs ++ ds) = byteSize cs + byteSize ds := by
  induction cs with
  | nil => simp
  | cons c cs ih => simp [ih, Nat.add_assoc]

/-- The offsets at which the second and later lines of a text begin, in ascending order. -/
structure LineIndex where
  starts : List Nat
deriving Repr

namespace LineIndex

/-- The offsets right behind the newlines of `cs`, which itself begins at `offset`. -/
def startsFrom (offset : Nat) : List Char → List Nat
  | [] => []
  | c :: cs =>
    if c = '\n' then (offset + c.utf8Size) :: startsFrom (offset + c.utf8Size) cs
    else startsFrom (offset + c.utf8Size) cs

def ofText (text : String) : LineIndex := ⟨startsFrom 0 text.toList⟩

/-- The line that holds `offset` is the last one that begins at or before it. -/
def position (index : LineIndex) (offset : Nat) : Position :=
  let before := index.starts.takeWhile (· ≤ offset)
  ⟨before.length + 1, offset - before.getLastD 0 + 1⟩

end LineIndex

/-- The position of `offset` in `text`; offsets past the end are on the last line. -/
def Position.inText (text : String) (offset : Nat) : Position :=
  (LineIndex.ofText text).position offset

example : Position.inText "hello\nworld\nfoo" 5 = ⟨1, 6⟩ := by decide +kernel
example : Position.inText "hello\nworld\nfoo" 6 = ⟨2, 1⟩ := by decide +kernel
example : Position.inText "hello\nworld\nfoo" 15 = ⟨3, 4⟩ := by decide +kernel

end ProtoSchema
