import ProtoSchema.Declaration
import ProtoSchema.Event.Reader

/-! # Parts of statements

Readers for what stands inside a statement: names, numbers, ranges, constants, options and the
types of fields.  Each takes the construct that a fault is to name.  A reader whose name ends in
`From` continues behind a first token that was taken already. -/

namespace ProtoSchema.Reader

/-! ### Names -/

/-- The fault of a reserved word where an identifier must stand. -/
def reservedFault (t : Token) : Option Fault :=
  t.kind.wordClass?.map fun c => .reservedWord t.text c t.span

def identText (t : Token) : Option (Located String) :=
  if t.kind = .ident then some ⟨t.text, t.span⟩ else none

def ident (c : Construct) : Reader (Located String) := do
  refuse reservedFault
  take c "an identifier" identText

/-- The place from the first to the last of some parts. -/
def spanOf (first : Span) (more : List (Located String)) : Span :=
  first.join ((more.getLast?.map Located.span).getD first)

/-- The rest of a dotted name behind its first identifier. -/
def dottedFrom (c : Construct) (first : Located String) : Reader (Located DottedName) := do
  let more ← repeatAfter .dot (ident c)
  return ⟨first.value :: more.map Located.value, spanOf first.span more⟩

/-- Identifiers with dots between them. -/
def dotted (c : Construct) : Reader (Located DottedName) := do
  dottedFrom c (← ident c)

/-- The first token of a type name: a dot, or an identifier. -/
inductive TypeNameStart where
  | dot (span : Span)
  | ident (name : Located String)

def typeNameStart (t : Token) : Option TypeNameStart :=
  match isPunct .dot t with
  | some span => some (.dot span)
  | none => (identText t).map .ident

def typeNameFrom (c : Construct) : TypeNameStart → Reader (Located TypeName)
  | .dot span => do
    let name ← dotted c
    return ⟨⟨true, name.value⟩, span.join name.span⟩
  | .ident first => do
    let name ← dottedFrom c first
    return ⟨⟨false, name.value⟩, name.span⟩

/-- A dotted name, with a leading dot if it is absolute. -/
def typeName (c : Construct) : Reader (Located TypeName) := do
  refuse reservedFault
  typeNameFrom c (← take c "an identifier" typeNameStart)

/-! ### Literals -/

def string (c : Construct) : Reader (Located String) :=
  take c "a string" fun t =>
    match t.kind with
    | .string s => some ⟨s, t.span⟩
    | _ => none

def int (c : Construct) : Reader (Located Nat) :=
  take c "an integer" fun t =>
    match t.kind with
    | .int n => some ⟨n, t.span⟩
    | _ => none

/-- The first token of a constant: the whole of it, a sign, or the start of a dotted name. -/
inductive ConstantStart where
  | whole (value : Constant)
  | sign (negative : Bool)
  | ident (first : Located String)

def constantStart (t : Token) : Option ConstantStart :=
  match t.kind with
  | .punct .minus => some (.sign true)
  | .punct .plus => some (.sign false)
  | .int n => some (.whole (.int false n))
  | .float x => some (.whole (.float x))
  | .string s => some (.whole (.string s))
  | .bool b => some (.whole (.bool b))
  | .ident => some (.ident ⟨t.text, t.span⟩)
  | _ => none

/-- The number behind a sign; `inf` and `nan` are numbers there. -/
def signed (negative : Bool) (t : Token) : Option Constant :=
  let float (x : Binary64) : Constant := .float (if negative then x.neg else x)
  match t.kind with
  | .int n => some (.int negative n)
  | .float x => some (float x)
  | .ident =>
    if t.text = "inf" then some (float (.infinite false))
    else if t.text = "nan" then some (float .nan)
    else none
  | _ => none

def constant (c : Construct) : Reader Constant := do
  match ← take c "a constant" constantStart with
  | .whole value => return value
  | .sign negative => take c "a number, 'inf' or 'nan'" (signed negative)
  | .ident first => return .ident (← dottedFrom c first).value

/-! ### Numbers of fields -/

/-- Accepts a number that a field may have. -/
def validNumber (n : Located Nat) : Reader (Located Nat) :=
  if FieldNumber.isValid n.value then pure n else fail (.invalidFieldNumber n.value n.span)

def fieldNumber (c : Construct) : Reader (Located Nat) := do
  validNumber (← int c)

/-- The upper end of a range: any number up to the largest, or the word for that one. -/
def rangeEnd (c : Construct) : Reader (Located Nat) := do
  match ← take? (isKeyword .max) with
  | some span => return ⟨FieldNumber.max, span⟩
  | none =>
    let n ← int c
    if n.value ≤ FieldNumber.max then return n
    else fail (.invalidFieldNumber n.value n.span)

/-- A range behind its first number `n`. -/
def rangeFrom (c : Construct) (n : Located Nat) : Reader NumberRange := do
  let first ← validNumber n
  let last ← match ← take? (isKeyword .rangeTo) with
    | some _ => rangeEnd c
    | none => pure first
  if first.value ≤ last.value then return ⟨first.value, last.value⟩
  else fail (.invalidRange (first.span.join last.span))

def range (c : Construct) : Reader NumberRange := do
  rangeFrom c (← int c)

/-- Ranges with commas between them, behind their first number `n`. -/
def rangesFrom (c : Construct) (n : Located Nat) : Reader (List NumberRange) := do
  let first ← rangeFrom c n
  return first :: (← repeatAfter .comma (range c))

/-! ### Options -/

/-- Any word may be a part of the name of an option, even a reserved one. -/
def optionWord (c : Construct) : Reader String :=
  take c "an option name" fun t => if t.kind.isWord then some t.text else none

def optionRoot (c : Construct) : Reader OptionRoot := do
  if ← punct? .leftParen then
    let name ← typeName c
    let _ ← punct c .rightParen
    return .extension name.value
  else
    return .word (← optionWord c)

def optionDecl (c : Construct) : Reader OptionDecl := do
  let root ← optionRoot c
  let parts ← repeatAfter .dot (optionWord c)
  let _ ← punct c .equals
  let value ← constant c
  return ⟨⟨root, parts⟩, value⟩

/-- Options in brackets, if there are any. -/
def options (c : Construct) : Reader (List OptionDecl) := do
  if ← punct? .leftBracket then
    let first ← optionDecl c
    let more ← repeatAfter .comma (optionDecl c)
    let _ ← punct c .rightBracket
    return first :: more
  else
    return []

/-! ### Types of fields -/

/-- The first token of the type of a field: the whole of it, or the start of a type name. -/
inductive FieldTypeStart where
  | scalar (s : Located Scalar)
  | named (start : TypeNameStart)

def fieldTypeStart (t : Token) : Option FieldTypeStart :=
  match t.kind with
  | .scalar s => some (.scalar ⟨s, t.span⟩)
  | _ => (typeNameStart t).map .named

def fieldTypeFrom (c : Construct) : FieldTypeStart → Reader (Located WrittenType)
  | .scalar s => return ⟨.scalar s.value, s.span⟩
  | .named start => do
    let name ← typeNameFrom c start
    return ⟨.named name.value, name.span⟩

def fieldType (c : Construct) : Reader (Located WrittenType) := do
  fieldTypeFrom c (← take c "a field type" fieldTypeStart)

/-- The type of the keys of a map: an integer, string or truth value type. -/
def mapKey : Reader Scalar := do
  let type ← fieldTypeFrom .mapField (← take .mapField "a map key type" fieldTypeStart)
  match type.value with
  | .scalar s => if s.isMapKey then return s else fail (.invalidMapKey s.name type.span)
  | .named name => fail (.invalidMapKey name.text type.span)

end ProtoSchema.Reader
