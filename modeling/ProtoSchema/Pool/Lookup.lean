import ProtoSchema.Pool.Basic

/-! # Questions to a pool

Types by full name, fields by number and by name, and the messages that declarations belong to. -/

namespace ProtoSchema.Pool

/-- The type with a full name that files which import `file` see; the name may have a leading
dot. -/
def definition? (pool : Pool) (file : FileId) (name : String) : Option TypeId :=
  let relative :=
    match name.toList with
    | '.' :: rest => String.ofList rest
    | _ => name
  (pool.file file).types.find? (DottedName.ofText relative)

/-- The message with a full name. -/
def message? (pool : Pool) (file : FileId) (name : String) : Option BlockId :=
  match pool.definition? file name with
  | some (.message id) => some id
  | _ => none

/-- The enum with a full name. -/
def enum? (pool : Pool) (file : FileId) (name : String) : Option EnumId :=
  match pool.definition? file name with
  | some (.enum id) => some id
  | _ => none

/-- The field of a block with a number. -/
def fieldByNumber? (pool : Pool) (block : BlockId) (number : Nat) : Option FieldId :=
  (pool.block block).fields.find? number

/-- The field of a block with a name. -/
def fieldByName? (pool : Pool) (block : BlockId) (name : String) : Option FieldId :=
  (pool.block block).fields.values.find? fun id => (pool.field id).name.value = name

/-- The message around a declaration; declarations in a file have none. -/
def outerMessage? (pool : Pool) : Scope → Option BlockId
  | .file _ => none
  | .block id => if (pool.block id).isExtend then none else some id

/-- The scope that a type is declared in. -/
def typeParent (pool : Pool) : TypeId → Scope
  | .message id => (pool.block id).parent
  | .enum id => (pool.enum id).parent

/-- The message that the fields of a block belong to: the message itself, or the extended one. -/
def owner? (pool : Pool) (block : BlockId) : Option BlockId :=
  match (pool.block block).heading with
  | .message _ => some block
  | .extend _ (some (.message id)) => some id
  | .extend .. => none

/-- Is a field declared in an extend block? -/
def isExtension (pool : Pool) (field : FieldId) : Bool :=
  (pool.block (pool.field field).block).isExtend

/-- The message that a field belongs to. -/
def fieldOwner? (pool : Pool) (field : FieldId) : Option BlockId :=
  pool.owner? (pool.field field).block

end ProtoSchema.Pool
