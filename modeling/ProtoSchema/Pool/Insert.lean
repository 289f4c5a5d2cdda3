import ProtoSchema.Pool.Basic

/-! # Adding declarations

Messages, enums and fields in one scope have different names; so have the fields and the numbers
of the fields in one block, and the names and the numbers of the values of one enum.  A
declaration that would break this is refused, with the place of the one that was there first, and
the pool stays as it is. -/

namespace ProtoSchema.Pool

/-- Where a name is declared in a scope. -/
def placeOf? (pool : Pool) (scope : Scope) (name : String) : Option Span :=
  let members := pool.members scope
  let field? : Option Field :=
    match scope with
    | .file _ => none
    | .block id => ((pool.block id).fields.values.map pool.field).find? (·.name.value = name)
  ((members.messages.find? name).map fun id => (pool.block id).span).or <|
    ((members.enums.find? name).map fun id => (pool.enum id).span).or <|
      field?.map fun f => f.name.span

/-- Refuses a name that is declared in the scope. -/
def checkName (pool : Pool) (scope : Scope) (name : Located String) : Except Fault Unit :=
  match pool.placeOf? scope name.value with
  | some first => .error (.duplicateName name.value (pool.scopeTitle scope) first name.span)
  | none => .ok ()

/-- Adds an empty file. -/
def addFile (pool : Pool) (name : String) (path : Option String) : Pool × FileId :=
  ({ pool with files := pool.files.push { name, path } }, ⟨pool.files.size⟩)

/-- Adds an empty message. -/
def addMessage (pool : Pool) (file : FileId) (parent : Scope) (name : Located String) :
    Except Fault (Pool × BlockId) :=
  match pool.checkName parent name with
  | .error f => .error f
  | .ok () =>
    let id : BlockId := ⟨pool.blocks.size⟩
    let block : Block :=
      { heading := .message (pool.scopeName parent ++ [name.value])
        span := name.span, file, parent }
    let pool := { pool with blocks := pool.blocks.push block }
    .ok (pool.modifyMembers parent fun m =>
      { m with messages := m.messages.insert name.value id }, id)

/-- Adds an empty extend block. -/
def addExtend (pool : Pool) (file : FileId) (parent : Scope) (type : Located TypeName)
    (target : Option TypeId) : Pool × BlockId :=
  let id : BlockId := ⟨pool.blocks.size⟩
  let block : Block := { heading := .extend type.value target, span := type.span, file, parent }
  let pool := { pool with blocks := pool.blocks.push block }
  (pool.modifyMembers parent fun m => { m with extendBlocks := m.extendBlocks ++ [id] }, id)

/-- Adds an empty enum. -/
def addEnum (pool : Pool) (file : FileId) (parent : Scope) (name : Located String) :
    Except Fault (Pool × EnumId) :=
  match pool.checkName parent name with
  | .error f => .error f
  | .ok () =>
    let id : EnumId := ⟨pool.enums.size⟩
    let enum : EnumType :=
      { fullName := pool.scopeName parent ++ [name.value], span := name.span, file, parent }
    let pool := { pool with enums := pool.enums.push enum }
    .ok (pool.modifyMembers parent fun m => { m with enums := m.enums.insert name.value id }, id)

/-- Adds a field to its block. -/
def addField (pool : Pool) (field : Field) : Except Fault Pool :=
  let block := pool.block field.block
  match block.fields.find? field.number.value with
  | some first =>
    .error (.duplicateFieldNumber field.number.value block.title (pool.field first).number.span
      field.number.span)
  | none =>
    match pool.checkName (.block field.block) field.name with
    | .error f => .error f
    | .ok () =>
      let id : FieldId := ⟨pool.fields.size⟩
      let pool := { pool with fields := pool.fields.push field }
      .ok (pool.modifyBlock field.block fun b =>
        { b with fields := b.fields.insert field.number.value id })

/-- Adds a value to an enum. -/
def addValue (pool : Pool) (id : EnumId) (value : ValueDecl) : Except Fault Pool :=
  let enum := pool.enum id
  match enum.values.find? value.number.value with
  | some first =>
    .error (.duplicateEnumNumber value.number.value enum.fullName.text first.name.span
      value.number.span)
  | none =>
    match enum.values.values.find? (·.name.value = value.name.value) with
    | some first =>
      .error (.duplicateName value.name.value enum.fullName.text first.name.span value.name.span)
    | none =>
      .ok (pool.modifyEnum id fun e =>
        { e with values := e.values.insert value.number.value ⟨value.name, value.options⟩ })

end ProtoSchema.Pool
