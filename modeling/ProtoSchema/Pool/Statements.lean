import ProtoSchema.Event.Basic
import ProtoSchema.Pool.Basic

/-! # Files as statements

`Pool.statements` lists the events that declare all of a complete file, in one order for each
scope: options, reserved and extension numbers, enums, messages, fields, extend blocks.  Every
type name is absolute and spells the full name of the type it denotes.  `Pool.source` is the text
of these events: read with the same imports, it declares the same. -/

namespace ProtoSchema

/-- A value that is written at no place. -/
def Located.unplaced {α : Type} (a : α) : Located α := ⟨a, default⟩

namespace Pool

open Located

/-- The absolute name of a type. -/
def absoluteName (pool : Pool) (t : TypeId) : TypeName := ⟨true, pool.typeName t⟩

/-- The absolute name of what a name denotes; a name without a meaning stays as it is. -/
def boundName (pool : Pool) (name : TypeName) (target : Option TypeId) : TypeName :=
  (target.map pool.absoluteName).getD name

/-- The type of a field with an absolute name. -/
def boundType (pool : Pool) : FieldType → WrittenType
  | .scalar s => .scalar s
  | .named name target => .named (pool.boundName name target)

/-- A field, behind its mark if it is required. -/
def fieldStatements (pool : Pool) (id : FieldId) : List Event :=
  let f := pool.field id
  let decl : FieldDecl :=
    { form := f.form, type := unplaced (pool.boundType f.type), name := unplaced f.name.value,
      number := unplaced f.number.value, options := f.options }
  if f.form = .plain (some .required) then [.required default, .field decl] else [.field decl]

/-- A value of an enum. -/
def valueStatement (number : Int) (v : EnumValue) : Event :=
  .value { name := unplaced v.name.value, number := unplaced number, options := v.options }

/-- An enum: its options and its values. -/
def enumStatements (pool : Pool) (id : EnumId) : List Event :=
  let e := pool.enum id
  .openEnum (unplaced e.name) ::
    (e.options.map .option ++ e.values.entries.map (fun v => valueStatement v.1 v.2) ++ [.close])

/-- The fields of a block. -/
def fieldsStatements (pool : Pool) (id : BlockId) : List Event :=
  (pool.block id).fields.values.flatMap pool.fieldStatements

/-- An extend block. -/
def extendStatements (pool : Pool) (id : BlockId) : List Event :=
  match (pool.block id).heading with
  | .message _ => []
  | .extend type target =>
    .openExtend (unplaced (pool.boundName type target)) :: (pool.fieldsStatements id ++ [.close])

/-- The reserved numbers, reserved names and extension numbers of a message, as far as there are
any. -/
def rangeStatements (b : Block) : List Event :=
  (if b.reservedRanges = [] then [] else [.reservedRanges b.reservedRanges]) ++
    (if b.reservedNames = [] then [] else [.reservedNames b.reservedNames]) ++
    if b.extensionRanges = [] then [] else [.extensionRanges b.extensionRanges]

/-- The statements of a message around those of the messages nested in it. -/
def messageAround (pool : Pool) (id : BlockId) (nested : List (List Event)) : List Event :=
  let b := pool.block id
  .openMessage (unplaced b.name) ::
    (b.options.map .option ++ rangeStatements b ++
      b.members.enums.values.flatMap pool.enumStatements ++ nested.flatten ++
      pool.fieldsStatements id ++ b.members.extendBlocks.flatMap pool.extendStatements ++ [.close])

/-- A message with all that is declared in it. -/
def messageStatements (pool : Pool) (id : BlockId) : List Event :=
  pool.foldMessage pool.messageAround id

/-- The statements in front of the declarations of a file. -/
def headStatements (pool : Pool) (f : File) : List Event :=
  (f.edition.toList.map fun e => .edition (unplaced e.value)) ++
    (f.package.toList.map fun p => .package (unplaced p.value)) ++
    (f.imports.values.map fun i => .importFile i.kind (unplaced (pool.file i.file).name)) ++
    f.options.map .option

/-- The statements that declare a file. -/
def statements (pool : Pool) (file : FileId) : List Event :=
  let f := pool.file file
  pool.headStatements f ++ f.members.enums.values.flatMap pool.enumStatements ++
    f.members.messages.values.flatMap pool.messageStatements ++
    f.members.extendBlocks.flatMap pool.extendStatements

/-- A file as source text with absolute names. -/
def source (pool : Pool) (file : FileId) : String := Event.print 0 (pool.statements file)

end Pool

end ProtoSchema
