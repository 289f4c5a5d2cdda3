import ProtoSchema.Event.Basic
import ProtoSchema.Pool.Insert
import ProtoSchema.Pool.Resolution
import ProtoSchema.Warning

/-! # Declarations of events

The events of a file are applied to the pool one by one.  A `Cursor` knows which file they belong
to and which block and enum are open.  The type of a field or extend block is looked up as soon as
it is read; if it denotes nothing yet, it is left for the sweep over the complete file. -/

namespace ProtoSchema

/-- Where in a file the next event belongs. -/
structure Cursor where
  file : FileId
  /-- The innermost open block, or else the file. -/
  scope : Scope
  /-- The open enum; nothing else is declared in an enum. -/
  openEnum : Option EnumId := none
  /-- Is a message, extend block or enum of the file declared? -/
  defined : Bool := false
deriving DecidableEq, Repr, Inhabited

namespace Cursor

/-- At the beginning of a file. -/
def start (file : FileId) : Cursor := { file, scope := .file file }

/-- Inside a block. -/
def inside (c : Cursor) (id : BlockId) : Cursor := { c with scope := .block id, defined := true }

/-- The type of a field as far as it is known where it is written. -/
def fieldType (c : Cursor) (pool : Pool) : WrittenType → FieldType
  | .scalar s => .scalar s
  | .named name => .named name (pool.resolve? c.file c.scope name)

def addEdition (c : Cursor) (pool : Pool) (e : Located Edition) : Except Fault Pool :=
  match (pool.file c.file).edition with
  | some first => .error (.duplicateEdition first.span e.span)
  | none => .ok (pool.modifyFile c.file fun f => { f with edition := some e })

/-- A package must be declared once and before all blocks, whose full names begin with it. -/
def addPackage (c : Cursor) (pool : Pool) (name : Located DottedName) : Except Fault Pool :=
  match (pool.file c.file).package with
  | some first => .error (.duplicatePackage first.span name.span)
  | none =>
    if c.defined then .error (.packageAfterDefinition name.span)
    else .ok (pool.modifyFile c.file fun f => { f with package := some name })

def addOption (c : Cursor) (pool : Pool) (o : OptionDecl) : Pool :=
  match c.openEnum, c.scope with
  | some id, _ => pool.modifyEnum id fun e => { e with options := e.options ++ [o] }
  | none, .file id => pool.modifyFile id fun f => { f with options := f.options ++ [o] }
  | none, .block id => pool.modifyBlock id fun b => { b with options := b.options ++ [o] }

/-- Changes the open block, if one is open. -/
def modifyOpen (c : Cursor) (pool : Pool) (f : Block → Block) : Pool :=
  match c.scope with
  | .block id => pool.modifyBlock id f
  | .file _ => pool

def addField (c : Cursor) (pool : Pool) (f : FieldDecl) : Except Fault Pool :=
  match c.scope with
  | .block block =>
    pool.addField
      { form := f.form, name := f.name, number := f.number,
        type := c.fieldType pool f.type.value, typeSpan := f.type.span, options := f.options,
        block }
  | .file _ => .ok pool

/-- The end of an enum: it must have a value, and should have one numbered zero. -/
def closeEnum (enum : EnumType) : Except Fault (Option Notice) :=
  match enum.values.values.head? with
  | none => .error (.emptyEnum enum.fullName.text enum.span)
  | some first =>
    if enum.hasZero then .ok none
    else .ok (some (.enumMissingZero enum.fullName.text first.name.value enum.span))

/-- What an event declares.  Imports are not handled here, since they need other files. -/
def apply (c : Cursor) (pool : Pool) (event : Event) :
    Except Fault (Cursor × Pool × Option Notice) :=
  match event with
  | .edition e => (c.addEdition pool e).map fun pool => (c, pool, none)
  | .package name => (c.addPackage pool name).map fun pool => (c, pool, none)
  | .importFile .. => .ok (c, pool, none)
  | .option o => .ok (c, c.addOption pool o, none)
  | .openMessage name =>
    (pool.addMessage c.file c.scope name).map fun (pool, id) => (c.inside id, pool, none)
  | .openExtend type =>
    let target := pool.resolve? c.file c.scope type.value
    let (pool, id) := pool.addExtend c.file c.scope type target
    .ok (c.inside id, pool, none)
  | .openEnum name =>
    (pool.addEnum c.file c.scope name).map fun (pool, id) =>
      ({ c with openEnum := some id, defined := true }, pool, none)
  | .required span =>
    if (pool.file c.file).editionOrOldest = .proto3 then .error (.requiredInProto3 span)
    else .ok (c, pool, none)
  | .field f => (c.addField pool f).map fun pool => (c, pool, none)
  | .value v =>
    match c.openEnum with
    | some id => (pool.addValue id v).map fun pool => (c, pool, none)
    | none => .ok (c, pool, none)
  | .reservedRanges rs =>
    .ok (c, c.modifyOpen pool fun b => { b with reservedRanges := b.reservedRanges ++ rs }, none)
  | .reservedNames names =>
    .ok (c, c.modifyOpen pool fun b => { b with reservedNames := b.reservedNames ++ names }, none)
  | .extensionRanges rs =>
    .ok (c, c.modifyOpen pool fun b => { b with extensionRanges := b.extensionRanges ++ rs }, none)
  | .close =>
    match c.openEnum with
    | some id =>
      (closeEnum (pool.enum id)).map fun notice => ({ c with openEnum := none }, pool, notice)
    | none => .ok ({ c with scope := (pool.parent? c.scope).getD c.scope }, pool, none)

end Cursor

end ProtoSchema
