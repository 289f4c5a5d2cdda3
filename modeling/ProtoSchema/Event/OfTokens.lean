import ProtoSchema.Event.Basic
import ProtoSchema.Event.Parts

/-! # Events of a text

The tokens of a file are read from left to right with a stack of open blocks.  One step takes at
least one token and yields at most one event, so the events of a text are known up to the first
place where it is malformed, and what they declare is met before that place is: of a bad
declaration and a malformed statement the earlier one is reported.  Whether an event makes sense
among the declarations of its file is no question here. -/

namespace ProtoSchema

/-- The kinds of blocks. -/
inductive BlockKind where
  | message | extend | enum
deriving DecidableEq, Repr, Inhabited

def BlockKind.construct : BlockKind → Construct
  | message => .message
  | extend => .extend
  | enum => .enum

/-- What the reader of a file is in the middle of. -/
inductive Frame where
  /-- The header of a block is read, its opening brace is not. -/
  | header (b : BlockKind)
  /-- Between the statements of a block. -/
  | body (b : BlockKind)
  /-- Behind the label `required` of a field. -/
  | required
deriving DecidableEq, Repr, Inhabited

/-- The open frames, innermost first; there are none between the statements of the file. -/
abbrev Frames := List Frame

/-- What may stand in a block. -/
def BlockKind.items : BlockKind → String
  | message =>
    "a field, 'message', 'enum', 'extend', 'reserved', 'extensions', 'option', ';' or '\x7d'"
  | extend => "a field, ';' or '\x7d'"
  | enum => "an enum value, 'option', ';' or '\x7d'"

/-- What is expected when the tokens end inside a frame. -/
def Frame.atEnd : Frame → Construct × String
  | .header b => (b.construct, Reader.punctText .leftBrace)
  | .body .enum => (.enum, BlockKind.enum.items)
  | .body b => (b.construct, "a declaration or '\x7d'")
  | .required => (.field, "a field type")

namespace Event

open Reader

/-- A step yields an event or none, and the frames behind it. -/
abbrev Step := Reader (Option Event × Frames)

/-- Yields `e` and leaves the frames `fs`. -/
def emit (fs : Frames) (e : Event) : Step := pure (some e, fs)

/-- A fault at the token `t`, which is not what is expected. -/
def refused (c : Construct) (expected : String) (t : Token) : Step :=
  fail (unexpectedToken c expected t)

/-! ### Statements of a file -/

/-- The version statement behind its keyword at `start`. -/
def editionFrom (start : Span) : Reader Event := do
  let _ ← punct .edition .equals
  let name ← string .edition
  let stop ← punct .edition .semicolon
  match Edition.ofName? name.value with
  | some e => return edition ⟨e, start.join stop⟩
  | none => fail (.unknownEdition name.value name.span)

def packageFrom (start : Span) : Reader Event := do
  let name ← dotted .package
  let stop ← punct .package .semicolon
  return package ⟨name.value, start.join stop⟩

def importKind (t : Token) : Option ImportKind :=
  match t.kind with
  | .keyword .publicImport => some .publicly
  | .keyword .weakImport => some .weakly
  | _ => none

def importFrom : Reader Event := do
  let kind ← take? importKind
  let file ← string .importFile
  let _ ← punct .importFile .semicolon
  return importFile (kind.getD .plain) file

/-- An option statement behind its keyword. -/
def optionFrom (c : Construct) : Reader Event := do
  let o ← optionDecl c
  let _ ← punct c .semicolon
  return option o

/-- The header of a message, extend block or enum behind its keyword. -/
def headerFrom (fs : Frames) : BlockKind → Step
  | .message => do emit (.header .message :: fs) (openMessage (← ident .message))
  | .extend => do emit (.header .extend :: fs) (openExtend (← typeName .extend))
  | .enum => do emit (.header .enum :: fs) (openEnum (← ident .enum))

/-- A statement of the file, which begins with `t`. -/
def statement (t : Token) : Step :=
  match t.kind with
  | .keyword .edition => do emit [] (← editionFrom t.span)
  | .keyword .package => do emit [] (← packageFrom t.span)
  | .keyword .importFile => do emit [] (← importFrom)
  | .keyword .option => do emit [] (← optionFrom .option)
  | .keyword .message => headerFrom [] .message
  | .keyword .enum => headerFrom [] .enum
  | .keyword .extend => headerFrom [] .extend
  | .punct .semicolon => pure (none, [])
  | _ =>
    refused .statement
      "'syntax', 'package', 'import', 'option', 'message', 'enum', 'extend' or ';'" t

/-! ### Statements of messages and extend blocks -/

/-- The rest of a field behind its type. -/
def fieldFrom (c : Construct) (form : FieldForm) (type : Located WrittenType) : Reader Event := do
  let name ← ident c
  let _ ← punct c .equals
  let number ← fieldNumber c
  let options ← options c
  let _ ← punct c .semicolon
  return field ⟨form, type, name, number, options⟩

/-- A map field behind its keyword. -/
def mapFrom : Reader Event := do
  let _ ← punct .mapField .leftAngle
  let key ← mapKey
  let _ ← punct .mapField .comma
  let type ← fieldType .mapField
  let _ ← punct .mapField .rightAngle
  fieldFrom .mapField (.map key) type

/-- The first token behind the word `reserved`: a name, or the start of a range. -/
inductive ReservedStart where
  | name (s : String)
  | number (n : Located Nat)

def reservedStart (t : Token) : Option ReservedStart :=
  match t.kind with
  | .string s => some (.name s)
  | .int n => some (.number ⟨n, t.span⟩)
  | _ => none

def reservedFrom : Reader Event := do
  match ← take .reserved "a positive integer or string" reservedStart with
  | .name first =>
    let more ← repeatAfter .comma (string .reserved)
    let _ ← punct .reserved .semicolon
    return reservedNames (first :: more.map Located.value)
  | .number n =>
    let rs ← rangesFrom .reserved n
    let _ ← punct .reserved .semicolon
    return reservedRanges rs

/-- Options of extension ranges are read and dropped. -/
def extensionsFrom : Reader Event := do
  let rs ← rangesFrom .extensions (← int .extensions)
  let _ ← options .extensions
  let _ ← punct .extensions .semicolon
  return extensionRanges rs

/-- The end of a block, behind its brace; a semicolon there belongs to it. -/
def closeFrom (fs : Frames) : Step := do
  let _ ← punct? .semicolon
  emit fs close

/-- A field, which begins with `t`; none if `t` begins no field. -/
def fieldStarting (fs : Frames) (t : Token) : Option Step :=
  match t.kind with
  | .specifier (.label .required) => some (emit (.required :: fs) (required t.span))
  | .specifier (.label l) => some do
    emit fs (← fieldFrom .field (.plain (some l)) (← fieldType .field))
  | _ => (fieldTypeStart t).map fun start => do
    emit fs (← fieldFrom .field (.plain none) (← fieldTypeFrom .field start))

/-- A statement of a message, which begins with `t`; `fs` are the frames of its body and those
around it, and `outer` those around it. -/
def messageItem (outer : Frames) (t : Token) : Step :=
  let fs := .body .message :: outer
  match t.kind with
  | .punct .rightBrace => closeFrom outer
  | .punct .semicolon => pure (none, fs)
  | .keyword .message => headerFrom fs .message
  | .keyword .enum => headerFrom fs .enum
  | .keyword .extend => headerFrom fs .extend
  | .keyword .reserved => do emit fs (← reservedFrom)
  | .keyword .extensions => do emit fs (← extensionsFrom)
  | .keyword .option => do emit fs (← optionFrom .option)
  | .specifier .map => do emit fs (← mapFrom)
  | _ => (fieldStarting fs t).getD (refused .message (BlockKind.message.items) t)

/-- A statement of an extend block, which begins with `t`: only plain fields may stand there. -/
def extendItem (outer : Frames) (t : Token) : Step :=
  let fs := .body .extend :: outer
  match t.kind with
  | .punct .rightBrace => closeFrom outer
  | .punct .semicolon => pure (none, fs)
  | .keyword .message | .keyword .enum | .keyword .extend | .keyword .reserved
  | .keyword .extensions | .keyword .option => fail (.notAllowedInExtend t.span)
  | .specifier .map => fail (.mapInExtend t.span)
  | _ => (fieldStarting fs t).getD (refused .extend (BlockKind.extend.items) t)

/-- The rest of a field behind the label `required`; its type begins with `t`. -/
def requiredField (fs : Frames) (t : Token) : Step :=
  match fieldTypeStart t with
  | some start => do
    emit fs (← fieldFrom .field (.plain (some .required)) (← fieldTypeFrom .field start))
  | none => refused .field "a field type" t

/-! ### Statements of enums -/

/-- Enum numbers have 32 bits and a sign. -/
def isEnumNumber (n : Int) : Bool := -2147483648 ≤ n && n ≤ 2147483647

/-- An enum value behind its name. -/
def valueFrom (name : Located String) : Reader Event := do
  let _ ← punct .enumValue .equals
  let negative ← punct? .minus
  let magnitude ← int .enumValue
  let number : Int := if negative then -magnitude.value else magnitude.value
  if isEnumNumber number then
    let options ← options .enumValue
    let _ ← punct .enumValue .semicolon
    return value ⟨name, ⟨number, magnitude.span⟩, options⟩
  else fail (.invalidEnumNumber magnitude.span)

/-- A statement of an enum, which begins with `t`. -/
def enumItem (outer : Frames) (t : Token) : Step :=
  let fs := .body .enum :: outer
  match t.kind with
  | .punct .rightBrace => closeFrom outer
  | .punct .semicolon => pure (none, fs)
  | .keyword .option => do emit fs (← optionFrom .enum)
  | _ =>
    match identText t, reservedFault t with
    | some name, _ => do emit fs (← valueFrom name)
    | none, some fault => fail fault
    | none, none => refused .enum (BlockKind.enum.items) t

/-! ### All tokens -/

/-- The step that the token `t` begins. -/
def next (fs : Frames) (t : Token) : Step :=
  match fs with
  | [] => statement t
  | .header b :: fs =>
    if t.kind = .punct .leftBrace then pure (none, .body b :: fs)
    else refused b.construct (punctText .leftBrace) t
  | .body .message :: fs => messageItem fs t
  | .body .extend :: fs => extendItem fs t
  | .body .enum :: fs => enumItem fs t
  | .required :: fs => requiredField fs t

/-- The fault of tokens that end, if that is one: a text may end between the statements of the
file. -/
def endFault (e : Ending) : Frames → Option Fault
  | [] =>
    match e with
    | .endOfText _ => none
    | .fault f => some f
  | f :: _ => some (unexpectedEnding f.atEnd.1 f.atEnd.2 e)

/-- The events of some tokens inside the frames `fs`, and the fault that ends them, if any. -/
def ofTokens (e : Ending) (fs : Frames) (ts : List Token) : List Event × Option Fault :=
  match ts with
  | [] => ([], endFault e fs)
  | t :: rest =>
    match h : (next fs t).run e rest with
    | .error fault => ([], some fault)
    | .ok ((event?, fs'), rest') =>
      have : rest'.length ≤ rest.length := ((next fs t).suffix h).length_le
      let more := ofTokens e fs' rest'
      (event?.toList ++ more.1, more.2)
termination_by ts.length
decreasing_by simp only [List.length_cons]; omega

/-- The events of a source text, and the fault that ends them, if any. -/
def ofText (source : String) : List Event × Option Fault :=
  let scan := Scan.ofText source
  ofTokens scan.ending [] scan.tokens

end Event

end ProtoSchema
