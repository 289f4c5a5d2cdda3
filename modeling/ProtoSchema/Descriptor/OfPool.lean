import ProtoSchema.Descriptor.Basic
import ProtoSchema.Pool.Lookup
import ProtoSchema.Text.Case

/-! # Descriptors of files

`Pool.descriptor` is the descriptor of a complete file.  The entry message of a map field is named
after the field in Pascal case, with `Entry` behind, and has the fields `key` and `value`. -/

namespace ProtoSchema.Pool

/-- The type of a field.  A name that denotes nothing counts as the name of a message. -/
def fieldTypeDescriptor (pool : Pool) : FieldType → Descriptor.FieldType
  | .scalar s => .scalar s
  | .named _ (some (.message id)) => .message (pool.block id).fullName
  | .named _ (some (.enum id)) => .enum (pool.enum id).fullName
  | .named name none => .message name.segments

/-- The name of the entry message of a map field. -/
def mapEntryName (field : String) : String := pascalName field ++ "Entry"

/-- A field of the entry message of a map field. -/
def mapEntryField (name : String) (number : Nat) (type : Descriptor.FieldType) : Descriptor.Field :=
  { name, number, label := .optional, type, jsonName := name }

/-- The entry message of a map field with keys of type `key`. -/
def mapEntry (pool : Pool) (field : Field) (key : Scalar) : Descriptor.Message :=
  { name := mapEntryName field.name.value
    fields := [mapEntryField "key" 1 (.scalar key),
      mapEntryField "value" 2 (pool.fieldTypeDescriptor field.type)]
    isMapEntry := true }

/-- The entry message of a field, if it is a map field. -/
def mapEntry? (pool : Pool) (field : Field) : Option Descriptor.Message :=
  match field.form with
  | .plain _ => none
  | .map key => some (pool.mapEntry field key)

/-- A field; the entry message of a map field is nested in the message `owner`. -/
def fieldDescriptor (pool : Pool) (owner : DottedName) (field : Field) : Descriptor.Field :=
  let name := field.name.value
  let (label, type) :=
    match field.form with
    | .plain label => (label.getD .optional, pool.fieldTypeDescriptor field.type)
    | .map _ => (.repeated, .message (owner ++ [mapEntryName name]))
  { name, number := field.number.value, label, type, jsonName := jsonName name }

/-- The fields of an extend block. -/
def extensionDescriptors (pool : Pool) (id : BlockId) : List Descriptor.Field :=
  let owner := ((pool.owner? id).map fun m => (pool.block m).fullName).getD []
  (pool.block id).fields.values.map fun f =>
    { pool.fieldDescriptor [] (pool.field f) with extendee := some owner }

/-- An enum of the pool. -/
def enumDescriptor (pool : Pool) (id : EnumId) : Descriptor.Enum :=
  let e := pool.enum id
  { name := e.name, values := e.values.entries.map fun v => (v.2.name.value, v.1) }

/-- A message, of which the nested messages are given. -/
def messageDescriptorAround (pool : Pool) (id : BlockId) (nested : List Descriptor.Message) :
    Descriptor.Message :=
  let b := pool.block id
  let fields := b.fields.values.map pool.field
  { name := b.name
    fields := fields.map (pool.fieldDescriptor b.fullName)
    extensions := b.members.extendBlocks.flatMap pool.extensionDescriptors
    nestedTypes := nested ++ fields.filterMap pool.mapEntry?
    enumTypes := b.members.enums.values.map pool.enumDescriptor
    extensionRanges := b.extensionRanges.map NumberRange.halfOpen
    reservedRanges := b.reservedRanges.map NumberRange.halfOpen
    reservedNames := b.reservedNames }

/-- A message of the pool with all that are nested in it. -/
def messageDescriptor (pool : Pool) (id : BlockId) : Descriptor.Message :=
  pool.foldMessage pool.messageDescriptorAround id

/-- The places of the imports of one kind. -/
def importPlaces (imports : List Import) (kind : ImportKind) : List Nat :=
  (imports.zipIdx.filter (·.1.kind = kind)).map Prod.snd

/-- The descriptor of a file. -/
def descriptor (pool : Pool) (file : FileId) : Descriptor.File :=
  let f := pool.file file
  let imports := f.imports.values
  { name := f.name
    package := f.package.map fun p => p.value.text
    dependencies := imports.map fun i => (pool.file i.file).name
    publicDependencies := importPlaces imports .publicly
    weakDependencies := importPlaces imports .weakly
    messages := f.members.messages.values.map pool.messageDescriptor
    enums := f.members.enums.values.map pool.enumDescriptor
    extensions := f.members.extendBlocks.flatMap pool.extensionDescriptors
    edition := f.editionOrOldest }

end ProtoSchema.Pool
