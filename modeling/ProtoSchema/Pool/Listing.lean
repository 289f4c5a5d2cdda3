import ProtoSchema.Pool.Basic
import ProtoSchema.Text.Quoted

/-! # References in listings

A listing shows a declaration as its kind and its name, for instance `MessageRef("pkg.Name")`.
`Pool.links` lists every type that is written in the pool. -/

namespace ProtoSchema

/-- A kind around a text. -/
def tagged (kind text : String) : String := kind ++ "(" ++ text ++ ")"

def Scalar.reference (s : Scalar) : String := tagged "Scalar" s.name.capitalize

def ImportKind.reference : ImportKind → String
  | plain => "Plain"
  | publicly => "Public"
  | weakly => "Weak"

namespace Pool

def fileReference (pool : Pool) (id : FileId) : String :=
  tagged "FileRef" (Text.quote (pool.file id).name)

def importReference (pool : Pool) (i : Import) : String :=
  "ImportRef \x7b file: " ++ Text.quote (pool.file i.file).name ++ ", kind: " ++
    i.kind.reference ++ " \x7d"

def messageReference (pool : Pool) (id : BlockId) : String :=
  tagged "MessageRef" (Text.quote (pool.block id).fullName.text)

def enumReference (pool : Pool) (id : EnumId) : String :=
  tagged "EnumRef" (Text.quote (pool.enum id).fullName.text)

def extendReference (pool : Pool) (id : BlockId) : String :=
  tagged "ExtendRef" (Text.quote (pool.block id).title)

def typeReference (pool : Pool) : TypeId → String
  | .message id => tagged "Message" (pool.messageReference id)
  | .enum id => tagged "Enum" (pool.enumReference id)

/-- A name that denotes nothing is shown as it is written. -/
def fieldTypeReference (pool : Pool) : FieldType → String
  | .scalar s => s.reference
  | .named name target => (target.map pool.typeReference).getD name.text

/-- A field and its type. -/
def fieldReference (pool : Pool) (id : FieldId) : String :=
  let f := pool.field id
  tagged "FieldRef" (Text.quote f.name.value) ++ " " ++ pool.fieldTypeReference f.type

def valueReference (number : Int) (v : EnumValue) : String :=
  "EnumValueRef \x7b name: " ++ Text.quote v.name.value ++ ", number: " ++ toString number ++
    " \x7d"

/-- A file, its imports, and its declarations that are in no block: messages and then the fields
of all of them, enums and then the values of all of them, and extend blocks. -/
def references (pool : Pool) (file : FileId) : List String :=
  let f := pool.file file
  let messages := f.members.messages.values
  let enums := f.members.enums.values
  let fields (id : BlockId) : List String :=
    (pool.block id).fields.values.map pool.fieldReference
  let values (id : EnumId) : List String :=
    (pool.enum id).values.entries.map fun v => valueReference v.1 v.2
  pool.fileReference file :: f.imports.values.map pool.importReference ++
    messages.map pool.messageReference ++ messages.flatMap fields ++
    enums.map pool.enumReference ++ enums.flatMap values ++
    f.members.extendBlocks.map pool.extendReference

end Pool

/-- What a type name denotes, if it denotes anything. -/
def FieldType.target? : FieldType → Option TypeId
  | scalar _ => none
  | named _ target => target

/-- A type name that denotes nothing yet. -/
def FieldType.unbound? : FieldType → Option TypeName
  | named name none => some name
  | _ => none

/-- A type that is written in a declaration. -/
structure Link where
  /-- The message or extend block. -/
  owner : String
  /-- The field that has the type; it is empty for the type that a block extends. -/
  field : String
  type : FieldType
deriving Repr, Inhabited

/-- The types of all extend blocks and then of all fields, in the order of reading. -/
def Pool.links (pool : Pool) : List Link :=
  let extended (b : Block) : Option Link :=
    match b.heading with
    | .message _ => none
    | .extend type target => some ⟨b.title, "", .named type target⟩
  pool.blocks.toList.filterMap extended ++
    pool.fields.toList.map fun f => ⟨(pool.block f.block).title, f.name.value, f.type⟩

end ProtoSchema
