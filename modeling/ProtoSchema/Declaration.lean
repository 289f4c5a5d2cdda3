import ProtoSchema.FieldNumber
import ProtoSchema.Name
import ProtoSchema.Number.Shortest
import ProtoSchema.Text.Escaped
import ProtoSchema.Text.Position
import ProtoSchema.Word

/-! # Single declarations

What one statement declares by itself, before its names mean anything: constants, options, fields
and enum values, each with the text that declares it. -/

namespace ProtoSchema

/-- The value of an option, kept as it is written. -/
inductive Constant where
  | ident (name : DottedName)
  | int (negative : Bool) (magnitude : Nat)
  | float (x : Binary64)
  | string (s : String)
  | bool (b : Bool)
deriving DecidableEq, Repr, Inhabited

def Constant.text : Constant → String
  | ident name => name.text
  | int negative magnitude => (if negative then "-" else "") ++ toString magnitude
  | float x => x.text
  | string s => Escaped.quote s
  | bool b => if b then "true" else "false"

/-- The first part of the name of an option. -/
inductive OptionRoot where
  | word (w : String)
  | extension (name : TypeName)
deriving DecidableEq, Repr, Inhabited

/-- The name of an option, such as `java_package` or `(my.ext).field`. -/
structure OptionName where
  root : OptionRoot
  parts : List String
deriving DecidableEq, Repr, Inhabited

def OptionName.text (name : OptionName) : String :=
  let root := match name.root with
    | .word w => w
    | .extension type => "(" ++ type.text ++ ")"
  DottedName.text (root :: name.parts)

/-- An option and its value.  Options are recorded and not interpreted. -/
structure OptionDecl where
  name : OptionName
  value : Constant
deriving DecidableEq, Repr, Inhabited

namespace OptionDecl

def text (o : OptionDecl) : String := o.name.text ++ " = " ++ o.value.text

/-- The options behind a field or an enum value, if there are any. -/
def listText (os : List OptionDecl) : String :=
  if os = [] then "" else " [" ++ ", ".intercalate (os.map text) ++ "]"

end OptionDecl

/-- How many values a field holds. -/
inductive Cardinality where
  | singular
  | repeated
  | map (key : Scalar)
deriving DecidableEq, Repr, Inhabited

/-- What is written around the type of a field: a label or nothing, or `map` with a type of keys. -/
inductive FieldForm where
  | plain (label : Option Label)
  | map (key : Scalar)
deriving DecidableEq, Repr, Inhabited

namespace FieldForm

def label? : FieldForm → Option Label
  | plain l => l
  | map _ => none

def cardinality : FieldForm → Cardinality
  | plain (some .repeated) => .repeated
  | plain _ => .singular
  | map key => .map key

end FieldForm

/-- The type of a field as it is written. -/
inductive WrittenType where
  | scalar (s : Scalar)
  | named (name : TypeName)
deriving DecidableEq, Repr, Inhabited

def WrittenType.text : WrittenType → String
  | scalar s => s.name
  | named name => name.text

/-- The declaration of a field. -/
structure FieldDecl where
  form : FieldForm
  type : Located WrittenType
  name : Located String
  number : Located Nat
  options : List OptionDecl
deriving DecidableEq, Repr, Inhabited

def FieldDecl.text (f : FieldDecl) : String :=
  let type := f.type.value.text
  let front := match f.form with
    | .plain none => type
    | .plain (some l) => l.name ++ " " ++ type
    | .map key => "map<" ++ key.name ++ ", " ++ type ++ ">"
  front ++ " " ++ f.name.value ++ " = " ++ toString f.number.value ++ OptionDecl.listText f.options

/-- The declaration of an enum value. -/
structure ValueDecl where
  name : Located String
  number : Located Int
  options : List OptionDecl
deriving DecidableEq, Repr, Inhabited

def ValueDecl.text (v : ValueDecl) : String :=
  v.name.value ++ " = " ++ toString v.number.value ++ OptionDecl.listText v.options

end ProtoSchema
