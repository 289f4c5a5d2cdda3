import ProtoSchema.Declaration
import ProtoSchema.Fault
import ProtoSchema.Table

/-! # The pool of declarations

Every file, block, enum and field that is read is kept once, in the order of reading, and is named
by its place.  Declarations refer to each other by these names, so they may refer to each other in
a circle.  A block is a message or an extend block: both hold fields, and the fields of an extend
block belong to another message.  Reading may fail half way; what was declared until then stays in
the pool, and nothing refers to it. -/

namespace ProtoSchema

/-! ### Names of declarations -/

/-- The place of a file in the pool. -/
structure FileId where
  index : Nat
deriving DecidableEq, Repr, Inhabited

/-- The place of a message or extend block in the pool. -/
structure BlockId where
  index : Nat
deriving DecidableEq, Repr, Inhabited

/-- The place of an enum in the pool. -/
structure EnumId where
  index : Nat
deriving DecidableEq, Repr, Inhabited

/-- The place of a field in the pool. -/
structure FieldId where
  index : Nat
deriving DecidableEq, Repr, Inhabited

/-- What declarations are written in: a file or a block. -/
inductive Scope where
  | file (id : FileId)
  | block (id : BlockId)
deriving DecidableEq, Repr, Inhabited

/-- What a type name may denote. -/
inductive TypeId where
  | message (id : BlockId)
  | enum (id : EnumId)
deriving DecidableEq, Repr, Inhabited

/-! ### Declarations -/

/-- The declarations that are written directly in a scope. -/
structure Members where
  messages : Table String BlockId := {}
  enums : Table String EnumId := {}
  extendBlocks : List BlockId := []
deriving Repr, Inhabited

/-- An imported file. -/
structure Import where
  file : FileId
  kind : ImportKind
deriving DecidableEq, Repr, Inhabited

/-- A file and what is declared in it. -/
structure File where
  name : String
  /-- Where the file was read from, if it was. -/
  path : Option String
  edition : Option (Located Edition) := none
  package : Option (Located DottedName) := none
  imports : Table String Import := {}
  options : List OptionDecl := []
  members : Members := {}
  /-- The types that importing files see, by full name: those of this file and of its public
  imports.  It is filled when the file is read completely. -/
  types : Table DottedName TypeId := {}
deriving Repr, Inhabited

namespace File

/-- The segments of the package; none if there is no package. -/
def packageName (f : File) : DottedName := (f.package.map Located.value).getD []

/-- A file without a version statement is in the older version. -/
def editionOrOldest (f : File) : Edition := (f.edition.map Located.value).getD .proto2

end File

/-- What a block is, as its first line says. -/
inductive Heading where
  | message (fullName : DottedName)
  /-- The type that is extended, as it is written, and what it denotes, once that is known. -/
  | extend (type : TypeName) (target : Option TypeId)
deriving DecidableEq, Repr, Inhabited

/-- A message or an extend block. -/
structure Block where
  heading : Heading
  /-- The place of the name, or of the extended type. -/
  span : Span
  file : FileId
  parent : Scope
  members : Members := {}
  fields : Table Nat FieldId := {}
  extensionRanges : List NumberRange := []
  reservedRanges : List NumberRange := []
  reservedNames : List String := []
  options : List OptionDecl := []
deriving Repr, Inhabited

namespace Block

def isExtend (b : Block) : Bool :=
  match b.heading with
  | .message _ => false
  | .extend .. => true

/-- The full name of a message; an extend block has none. -/
def fullName (b : Block) : DottedName :=
  match b.heading with
  | .message fullName => fullName
  | .extend .. => []

/-- The name of a message in its scope. -/
def name (b : Block) : String := b.fullName.getLast?.getD ""

/-- Binds the extended type of an extend block; a type that is bound already stays. -/
def bind (b : Block) (t : TypeId) : Block :=
  match b.heading with
  | .extend type none => { b with heading := .extend type (some t) }
  | _ => b

/-- How messages and listings name a block. -/
def title (b : Block) : String :=
  match b.heading with
  | .message fullName => fullName.text
  | .extend type _ => type.text

end Block

/-- A value of an enum, without its number. -/
structure EnumValue where
  name : Located String
  options : List OptionDecl
deriving DecidableEq, Repr, Inhabited

/-- An enum and its values by number. -/
structure EnumType where
  fullName : DottedName
  span : Span
  file : FileId
  parent : Scope
  values : Table Int EnumValue := {}
  options : List OptionDecl := []
deriving Repr, Inhabited

namespace EnumType

def name (e : EnumType) : String := e.fullName.getLast?.getD ""

def hasZero (e : EnumType) : Bool := e.values.contains 0

/-- The value numbered zero, or else the first one. -/
def default? (e : EnumType) : Option (Int × EnumValue) :=
  (e.values.entries.find? (·.1 = 0)).or e.values.entries.head?

end EnumType

/-- The type of a field: a scalar, or a name with what it denotes, once that is known. -/
inductive FieldType where
  | scalar (s : Scalar)
  | named (name : TypeName) (target : Option TypeId)
deriving DecidableEq, Repr, Inhabited

/-- The type as it is written. -/
def FieldType.text : FieldType → String
  | scalar s => s.name
  | named name _ => name.text

/-- A field of a message or extend block. -/
structure Field where
  form : FieldForm
  name : Located String
  number : Located Nat
  type : FieldType
  typeSpan : Span
  options : List OptionDecl
  block : BlockId
deriving Repr, Inhabited

/-- Binds the type of a field; a type that is bound already stays. -/
def Field.bind (f : Field) (t : TypeId) : Field :=
  match f.type with
  | .named name none => { f with type := .named name (some t) }
  | _ => f

/-! ### The pool -/

/-- All declarations that were read. -/
structure Pool where
  files : Array File := #[]
  blocks : Array Block := #[]
  enums : Array EnumType := #[]
  fields : Array Field := #[]
  /-- The extension numbers in use, by extended message. -/
  extensions : Table (BlockId × Nat) FieldId := .empty
deriving Repr, Inhabited

namespace Pool

def file (pool : Pool) (id : FileId) : File := pool.files[id.index]?.getD default

def block (pool : Pool) (id : BlockId) : Block := pool.blocks[id.index]?.getD default

def enum (pool : Pool) (id : EnumId) : EnumType := pool.enums[id.index]?.getD default

def field (pool : Pool) (id : FieldId) : Field := pool.fields[id.index]?.getD default

def modifyFile (pool : Pool) (id : FileId) (f : File → File) : Pool :=
  { pool with files := pool.files.modify id.index f }

def modifyBlock (pool : Pool) (id : BlockId) (f : Block → Block) : Pool :=
  { pool with blocks := pool.blocks.modify id.index f }

def modifyEnum (pool : Pool) (id : EnumId) (f : EnumType → EnumType) : Pool :=
  { pool with enums := pool.enums.modify id.index f }

def modifyField (pool : Pool) (id : FieldId) (f : Field → Field) : Pool :=
  { pool with fields := pool.fields.modify id.index f }

/-! ### Scopes -/

/-- What is declared directly in a scope. -/
def members (pool : Pool) : Scope → Members
  | .file id => (pool.file id).members
  | .block id => (pool.block id).members

def modifyMembers (pool : Pool) (scope : Scope) (f : Members → Members) : Pool :=
  match scope with
  | .file id => pool.modifyFile id fun file => { file with members := f file.members }
  | .block id => pool.modifyBlock id fun block => { block with members := f block.members }

/-- The scope around a scope; a file has none. -/
def parent? (pool : Pool) : Scope → Option Scope
  | .file _ => none
  | .block id => some (pool.block id).parent

/-- The front part of the full names of the declarations in a scope. -/
def scopeName (pool : Pool) : Scope → DottedName
  | .file id => (pool.file id).packageName
  | .block id => (pool.block id).fullName

/-- How messages name a scope. -/
def scopeTitle (pool : Pool) : Scope → String
  | .file id => (pool.file id).name
  | .block id => (pool.block id).title

/-- A scope and those around it, innermost first, up to `depth` steps outward. -/
def enclosingUpTo (pool : Pool) : Nat → Scope → List Scope
  | 0, scope => [scope]
  | depth + 1, scope =>
    scope :: match pool.parent? scope with
      | some outer => enclosingUpTo pool depth outer
      | none => []

/-- A scope and those around it, innermost first.  Every block is written in an earlier one or in
a file, so there are no more of them than blocks. -/
def enclosing (pool : Pool) (scope : Scope) : List Scope :=
  pool.enclosingUpTo pool.blocks.size scope

/-! ### Types -/

/-- The full name of a type. -/
def typeName (pool : Pool) : TypeId → DottedName
  | .message id => (pool.block id).fullName
  | .enum id => (pool.enum id).fullName

/-- The file that declares a type. -/
def typeFile (pool : Pool) : TypeId → FileId
  | .message id => (pool.block id).file
  | .enum id => (pool.enum id).file

/-! ### Nested messages -/

/-- Combines a message with the results of the messages nested in it, down to `depth` levels. -/
def foldMessageUpTo {β : Type} (pool : Pool) (f : BlockId → List β → β) : Nat → BlockId → β
  | 0, id => f id []
  | depth + 1, id =>
    f id ((pool.block id).members.messages.values.map (foldMessageUpTo pool f depth))

/-- Combines a message with the results of the messages nested in it.  Nested messages are later
blocks, so there are no more levels than blocks. -/
def foldMessage {β : Type} (pool : Pool) (f : BlockId → List β → β) (id : BlockId) : β :=
  pool.foldMessageUpTo f pool.blocks.size id

/-- A message and those nested in it, outer ones first. -/
def withNested (pool : Pool) (id : BlockId) : List BlockId :=
  pool.foldMessage (fun id nested => id :: nested.flatten) id

/-- All messages in a scope, outer ones first. -/
def messagesIn (pool : Pool) (scope : Scope) : List BlockId :=
  (pool.members scope).messages.values.flatMap pool.withNested

end Pool

end ProtoSchema
