import ProtoSchema.Pool.Contents
import ProtoSchema.Pool.Resolution

/-! # Complete files

When a file is read to its end, all it declares is known.  `sweep` binds the names that denoted
nothing when they were read; `checkFile` then tests every message and extend block of the file.
Both go through the declarations in the order in which they are written and stop at the first
fault.  Extension numbers are claimed for a file only when the whole file is in order. -/

namespace ProtoSchema

/-- Steps over a pool that may stop at a fault; what was done until then stays done. -/
abbrev PoolM := EStateM Fault Pool

namespace Pool

/-! ### The sweep -/

/-- Binds the extended type of an extend block, unless it is bound. -/
def sweepBlock (file : FileId) (id : BlockId) : PoolM Unit := do
  let pool ← get
  let block := pool.block id
  match block.heading with
  | .extend type none =>
    match pool.resolve? file block.parent type with
    | some t => set (pool.modifyBlock id (·.bind t))
    | none => throw (.extendeeNotFound type.text (pool.file file).name block.span)
  | _ => return

/-- Binds the type of a field, unless it is bound. -/
def sweepField (file : FileId) (id : FieldId) : PoolM Unit := do
  let pool ← get
  let field := pool.field id
  match field.type with
  | .named name none =>
    match pool.resolve? file (.block field.block) name with
    | some t => set (pool.modifyField id (·.bind t))
    | none => throw (.typeNotFound name.text field.name.value (pool.file file).name field.typeSpan)
  | _ => return

/-- Binds every name of a file that is not bound: those of extend blocks, then those of fields. -/
def sweep (file : FileId) : PoolM Unit := do
  let pool ← get
  (pool.blocksOf file).forM (sweepBlock file)
  (pool.fieldsOf file).forM (sweepField file)

/-! ### Checks -/

/-- What is wrong with a field of a message, if anything is. -/
def fieldFault (block : Block) (field : Field) : Option Fault :=
  let n := field.number.value
  if block.reservedRanges.any (·.contains n) then
    some (.reservedNumberUsed field.name.value n field.number.span)
  else if block.reservedNames.contains field.name.value then
    some (.reservedNameUsed field.name.value field.name.span)
  else if block.extensionRanges.any (·.contains n) then
    some (.numberInExtensionRange n block.title field.number.span)
  else none

/-- Checks the fields of a message. -/
def checkMessage (pool : Pool) (id : BlockId) : Except Fault Unit :=
  let block := pool.block id
  match (block.fields.values.map pool.field).findSome? (fieldFault block) with
  | some fault => .error fault
  | none => .ok ()

/-- Extension numbers in use, by extended message. -/
abbrev Claims := Table (BlockId × Nat) FieldId

/-- Claims the number of an extension of the message `target`, unless it is out of its ranges or in
use by another field. -/
def claimNumber (pool : Pool) (target : BlockId) (claims : Claims) (id : FieldId) :
    Except Fault Claims :=
  let field := pool.field id
  let extended := pool.block target
  let n := field.number.value
  if extended.extensionRanges.any (·.contains n) then
    match (pool.extensions.find? (target, n)).or (claims.find? (target, n)) with
    | some first =>
      if first = id then .ok claims
      else .error (.duplicateExtension n extended.title field.number.span)
    | none => .ok (claims.insert (target, n) id)
  else .error (.extensionOutOfRange n extended.title extended.extensionRanges field.number.span)

/-- Checks an extend block and claims the numbers of its fields.  Its type is bound by the sweep. -/
def checkExtend (pool : Pool) (block : Block) (target : Option TypeId) (claims : Claims) :
    Except Fault Claims :=
  match target with
  | some (.message id) =>
    if (pool.block id).extensionRanges = [] then
      .error (.extendeeNotExtensible (pool.block id).title block.span)
    else block.fields.values.foldlM (pool.claimNumber id) claims
  | some (.enum id) => .error (.extendeeNotMessage (pool.enum id).fullName.text block.span)
  | none => .ok claims

/-- Checks a message or an extend block. -/
def checkBlock (pool : Pool) (claims : Claims) (id : BlockId) : Except Fault Claims :=
  let block := pool.block id
  match block.heading with
  | .message _ => (pool.checkMessage id).map fun _ => claims
  | .extend _ target => pool.checkExtend block target claims

/-- Sweeps and checks a file. -/
def checkFile (file : FileId) : PoolM Unit := do
  sweep file
  let pool ← get
  match (pool.blocksOf file).foldlM pool.checkBlock Table.empty with
  | .error fault => throw fault
  | .ok claims => set { pool with extensions := pool.extensions.insertAll claims.entries }

end Pool

end ProtoSchema
