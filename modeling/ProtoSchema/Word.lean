/-! # Words and marks of the language

Keywords, labels, scalar type names and the two truth values are reserved: such a word is never
an identifier, wherever it stands.  `WordClass` is the kind of a reserved word as messages name
it. -/

namespace ProtoSchema

/-- The built-in types of fields. -/
inductive Scalar where
  | double | float | int32 | int64 | uint32 | uint64 | sint32 | sint64
  | fixed32 | fixed64 | sfixed32 | sfixed64 | bool | string | bytes
deriving DecidableEq, Repr, Inhabited

namespace Scalar

def all : List Scalar :=
  [double, float, int32, int64, uint32, uint64, sint32, sint64,
    fixed32, fixed64, sfixed32, sfixed64, bool, string, bytes]

def name : Scalar → String
  | double => "double"
  | float => "float"
  | int32 => "int32"
  | int64 => "int64"
  | uint32 => "uint32"
  | uint64 => "uint64"
  | sint32 => "sint32"
  | sint64 => "sint64"
  | fixed32 => "fixed32"
  | fixed64 => "fixed64"
  | sfixed32 => "sfixed32"
  | sfixed64 => "sfixed64"
  | bool => "bool"
  | string => "string"
  | bytes => "bytes"

def ofName? (word : String) : Option Scalar := all.find? (·.name == word)

/-- Keys of maps are integers, strings and truth values. -/
def isMapKey : Scalar → Bool
  | double | float | bytes => false
  | _ => true

@[simp] theorem ofName?_name (s : Scalar) : ofName? s.name = some s := by
  cases s <;> decide +kernel

end Scalar

/-- What may stand before the type of a field. -/
inductive Label where
  | optional | required | repeated
deriving DecidableEq, Repr, Inhabited

namespace Label

def all : List Label := [optional, required, repeated]

def name : Label → String
  | optional => "optional"
  | required => "required"
  | repeated => "repeated"

def ofName? (word : String) : Option Label := all.find? (·.name == word)

@[simp] theorem ofName?_name (l : Label) : ofName? l.name = some l := by
  cases l <;> decide +kernel

end Label

/-- Words that begin or structure a statement. -/
inductive Keyword where
  | edition | package | importFile | publicImport | weakImport | option | message | enum
  | extend | reserved | extensions | rangeTo | max
deriving DecidableEq, Repr, Inhabited

namespace Keyword

def all : List Keyword :=
  [edition, package, importFile, publicImport, weakImport, option, message, enum, extend,
    reserved, extensions, rangeTo, max]

def name : Keyword → String
  | edition => "syntax"
  | package => "package"
  | importFile => "import"
  | publicImport => "public"
  | weakImport => "weak"
  | option => "option"
  | message => "message"
  | enum => "enum"
  | extend => "extend"
  | reserved => "reserved"
  | extensions => "extensions"
  | rangeTo => "to"
  | max => "max"

def ofName? (word : String) : Option Keyword := all.find? (·.name == word)

@[simp] theorem ofName?_name (k : Keyword) : ofName? k.name = some k := by
  cases k <;> decide +kernel

end Keyword

/-- The two versions of the language. -/
inductive Edition where
  | proto2 | proto3
deriving DecidableEq, Repr, Inhabited

namespace Edition

def name : Edition → String
  | proto2 => "proto2"
  | proto3 => "proto3"

def ofName? (word : String) : Option Edition := [proto2, proto3].find? (·.name == word)

@[simp] theorem ofName?_name (e : Edition) : ofName? e.name = some e := by
  cases e <;> decide +kernel

end Edition

/-- How a file is imported: only a public import is passed on to importing files. -/
inductive ImportKind where
  | plain | publicly | weakly
deriving DecidableEq, Repr, Inhabited

/-- The kinds of reserved words. -/
inductive WordClass where
  | keyword | specifier | typeName | literal
deriving DecidableEq, Repr, Inhabited

def WordClass.name : WordClass → String
  | keyword => "keyword"
  | specifier => "specifier"
  | typeName => "type name"
  | literal => "literal"

/-- Punctuation marks. -/
inductive Punct where
  | equals | semicolon | leftBrace | rightBrace | leftBracket | rightBracket
  | leftAngle | rightAngle | leftParen | rightParen | dot | comma | minus | plus
deriving DecidableEq, Repr, Inhabited

namespace Punct

def all : List Punct :=
  [equals, semicolon, leftBrace, rightBrace, leftBracket, rightBracket,
    leftAngle, rightAngle, leftParen, rightParen, dot, comma, minus, plus]

def char : Punct → Char
  | equals => '='
  | semicolon => ';'
  | leftBrace => '{'
  | rightBrace => '}'
  | leftBracket => '['
  | rightBracket => ']'
  | leftAngle => '<'
  | rightAngle => '>'
  | leftParen => '('
  | rightParen => ')'
  | dot => '.'
  | comma => ','
  | minus => '-'
  | plus => '+'

def ofChar? (c : Char) : Option Punct := all.find? (·.char == c)

@[simp] theorem ofChar?_char (p : Punct) : ofChar? p.char = some p := by
  cases p <;> decide

def text (p : Punct) : String := p.char.toString

end Punct

end ProtoSchema
