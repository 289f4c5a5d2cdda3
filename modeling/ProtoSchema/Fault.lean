import ProtoSchema.FieldNumber
import ProtoSchema.Name
import ProtoSchema.Text.Position
import ProtoSchema.Word

/-! # Faults of a source text

A `Fault` is the cause of a failure together with the place in the source text that shows it.
The wording is kept apart: `Fault.message`, `Fault.help?` and `Fault.labels`. -/

namespace ProtoSchema

/-- What was being read when something else was found. -/
inductive Construct where
  | input | edition | package | importFile | statement | option | message | extend | field
  | mapField | enum | enumValue | reserved | extensions
deriving DecidableEq, Repr, Inhabited

def Construct.name : Construct → String
  | input => "input"
  | edition => "syntax"
  | package => "package"
  | importFile => "import"
  | statement => "statement"
  | option => "option"
  | message => "message"
  | extend => "extend"
  | field => "field"
  | mapField => "map field"
  | enum => "enum"
  | enumValue => "enum value"
  | reserved => "reserved"
  | extensions => "extensions"

/-- The causes of failure inside one source text: lexical ones first, then those of single
statements, then those between declarations, last those of complete files. -/
inductive Fault where
  | unexpectedCharacter (character : Char) (span : Span)
  | integerTooLarge (span : Span)
  | unterminatedString (span : Span)
  | invalidEscape (span : Span)
  | unterminatedComment (span : Span)
  | unexpectedToken (construct : Construct) (expected found : String) (span : Span)
  | unexpectedEnd (construct : Construct) (expected : String) (span : Span)
  | reservedWord (word : String) (wordClass : WordClass) (span : Span)
  | unknownEdition (name : String) (span : Span)
  | invalidFieldNumber (number : Nat) (span : Span)
  | invalidEnumNumber (span : Span)
  | invalidRange (span : Span)
  | invalidMapKey (type : String) (span : Span)
  | notAllowedInExtend (span : Span)
  | mapInExtend (span : Span)
  | requiredInProto3 (span : Span)
  | duplicateEdition (first second : Span)
  | duplicatePackage (first second : Span)
  | packageAfterDefinition (span : Span)
  | duplicateName (name scope : String) (first second : Span)
  | duplicateFieldNumber (number : Nat) (message : String) (first second : Span)
  | duplicateEnumNumber (number : Int) (enum : String) (first second : Span)
  | emptyEnum (name : String) (span : Span)
  | typeNotFound (name field file : String) (span : Span)
  | extendeeNotFound (name file : String) (span : Span)
  | extendeeNotMessage (name : String) (span : Span)
  | extendeeNotExtensible (name : String) (span : Span)
  | extensionOutOfRange (number : Nat) (extendee : String) (ranges : List NumberRange)
      (span : Span)
  | duplicateExtension (number : Nat) (extendee : String) (span : Span)
  | reservedNumberUsed (field : String) (number : Nat) (span : Span)
  | reservedNameUsed (field : String) (span : Span)
  | numberInExtensionRange (number : Nat) (message : String) (span : Span)
deriving DecidableEq, Repr, Inhabited

namespace Fault

/-- A name as messages show it. -/
def quoted (s : String) : String := "'" ++ s ++ "'"

/-- What is wrong. -/
def message : Fault → String
  | unexpectedCharacter c _ => "unexpected character " ++ quoted c.toString
  | integerTooLarge _ => "integer is too large"
  | unterminatedString _ => "unterminated string"
  | invalidEscape _ => "invalid string escape"
  | unterminatedComment _ => "unterminated block comment"
  | unexpectedToken construct expected found _ =>
    "expected " ++ expected ++ " while parsing " ++ construct.name ++ ", but found " ++ quoted found
  | unexpectedEnd construct expected _ =>
    "expected " ++ expected ++ " while parsing " ++ construct.name ++ ", but reached end of file"
  | reservedWord word wordClass _ =>
    quoted word ++ " is a reserved " ++ wordClass.name ++ " and cannot be used as an identifier"
  | unknownEdition name _ => "unknown syntax " ++ quoted name
  | invalidFieldNumber number _ => "invalid field number " ++ quoted (toString number)
  | invalidEnumNumber _ => "enum number is out of range"
  | invalidRange _ => "invalid range"
  | invalidMapKey type _ => quoted type ++ " is not a valid map key type"
  | notAllowedInExtend _ => "only fields may be declared in an extend block"
  | mapInExtend _ => "map fields cannot be declared in an extend block"
  | requiredInProto3 _ => "required fields are not allowed in proto3"
  | duplicateEdition _ _ => "a file may only declare its syntax once"
  | duplicatePackage _ _ => "a file may only contain a single package declaration"
  | packageAfterDefinition _ => "the package must be declared before any definitions"
  | duplicateName name scope _ _ =>
    "name " ++ quoted name ++ " is defined twice in " ++ quoted scope
  | duplicateFieldNumber number message _ _ =>
    "field number " ++ quoted (toString number) ++ " is used twice in " ++ quoted message
  | duplicateEnumNumber number enum _ _ =>
    "enum number " ++ quoted (toString number) ++ " is used twice in " ++ quoted enum
  | emptyEnum name _ => "enum " ++ quoted name ++ " must declare at least one value"
  | typeNotFound name field file _ =>
    "failed to resolve type " ++ quoted name ++ " of field " ++ quoted field ++ " in " ++
      quoted file
  | extendeeNotFound name file _ =>
    "failed to resolve extended type " ++ quoted name ++ " in " ++ quoted file
  | extendeeNotMessage name _ => quoted name ++ " is not a message type"
  | extendeeNotExtensible name _ =>
    "message " ++ quoted name ++ " does not declare an extension range"
  | extensionOutOfRange number extendee ranges _ =>
    "extension number " ++ quoted (toString number) ++ " is outside the extension ranges of " ++
      quoted extendee ++ " (" ++ NumberRange.listText ranges ++ ")"
  | duplicateExtension number extendee _ =>
    "extension number " ++ quoted (toString number) ++ " of " ++ quoted extendee ++
      " is already used"
  | reservedNumberUsed field number _ =>
    "field " ++ quoted field ++ " uses reserved number " ++ quoted (toString number)
  | reservedNameUsed field _ => "field name " ++ quoted field ++ " is reserved"
  | numberInExtensionRange number message _ =>
    "field number " ++ quoted (toString number) ++ " lies inside an extension range of " ++
      quoted message

/-- Advice on how to mend the fault. -/
def help? : Fault → Option String
  | reservedWord .. =>
    some "rename the declaration, reserved words always take precedence over identifiers"
  | unknownEdition .. => some "possible values are 'proto2' and 'proto3'"
  | invalidFieldNumber .. =>
    some ("field numbers must be between 1 and " ++ toString FieldNumber.max ++
      ", excluding 19000 to 19999")
  | invalidEnumNumber .. => some "enum numbers must fit in a signed 32-bit integer"
  | invalidRange .. => some "the start of a range must not exceed its end"
  | invalidMapKey .. => some "map keys may be any integral or string type, or bool"
  | _ => none

/-- The places that show the fault, each with its caption, in the order of the source. -/
def labels : Fault → List (String × Span)
  | unexpectedCharacter _ span => [("found here", span)]
  | integerTooLarge span => [("integer defined here", span)]
  | unterminatedString span => [("string starts here", span)]
  | unterminatedComment span => [("comment starts here", span)]
  | unexpectedToken _ _ _ span => [("found here", span)]
  | unexpectedEnd _ _ span => [("file ends here", span)]
  | reservedWord _ _ span => [("used here", span)]
  | duplicateEdition first second => [("defined here…", first), ("…and again here", second)]
  | duplicatePackage first second => [("defined here…", first), ("…and again here", second)]
  | packageAfterDefinition span => [("declared here", span)]
  | duplicateName _ _ first second =>
    [("first defined here…", first), ("…and again here", second)]
  | duplicateFieldNumber _ _ first second =>
    [("first used here…", first), ("…and again here", second)]
  | duplicateEnumNumber _ _ first second =>
    [("first used here…", first), ("…and again here", second)]
  | typeNotFound _ _ _ span => [("referenced here", span)]
  | extendeeNotFound _ _ span => [("referenced here", span)]
  | extendeeNotMessage _ span => [("extended here", span)]
  | extendeeNotExtensible _ span => [("extended here", span)]
  | invalidEscape span | unknownEdition _ span | invalidFieldNumber _ span
  | invalidEnumNumber span | invalidRange span | invalidMapKey _ span | notAllowedInExtend span
  | mapInExtend span | requiredInProto3 span | emptyEnum _ span
  | extensionOutOfRange _ _ _ span | duplicateExtension _ _ span | reservedNumberUsed _ _ span
  | reservedNameUsed _ span | numberInExtensionRange _ _ span => [("defined here", span)]

/-- The place at which the fault is reported: the last of its labels. -/
def span : Fault → Span
  | unexpectedCharacter _ span | integerTooLarge span | unterminatedString span
  | invalidEscape span | unterminatedComment span | unexpectedToken _ _ _ span
  | unexpectedEnd _ _ span | reservedWord _ _ span | unknownEdition _ span
  | invalidFieldNumber _ span | invalidEnumNumber span | invalidRange span
  | invalidMapKey _ span | notAllowedInExtend span | mapInExtend span | requiredInProto3 span
  | duplicateEdition _ span | duplicatePackage _ span | packageAfterDefinition span
  | duplicateName _ _ _ span | duplicateFieldNumber _ _ _ span | duplicateEnumNumber _ _ _ span
  | emptyEnum _ span | typeNotFound _ _ _ span | extendeeNotFound _ _ span
  | extendeeNotMessage _ span | extendeeNotExtensible _ span | extensionOutOfRange _ _ _ span
  | duplicateExtension _ _ span | reservedNumberUsed _ _ span | reservedNameUsed _ span
  | numberInExtensionRange _ _ span => span

/-- The fault is reported where its last label is. -/
theorem getLast?_labels (f : Fault) : f.labels.getLast?.map Prod.snd = some f.span := by
  cases f <;> rfl

/-- Is the text malformed by itself, as opposed to what it declares? -/
def isSyntactic : Fault → Bool
  | unexpectedCharacter .. | integerTooLarge .. | unterminatedString .. | invalidEscape ..
  | unterminatedComment .. | unexpectedToken .. | unexpectedEnd .. | reservedWord ..
  | unknownEdition .. => true
  | _ => false

/-- Does a type name denote no type? -/
def isUnresolved : Fault → Bool
  | typeNotFound .. | extendeeNotFound .. => true
  | _ => false

end Fault

end ProtoSchema
