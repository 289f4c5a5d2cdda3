/-! # Names in camel case

Field names are written in lower case with underscores.  The name of a field in JSON and the
name of a map entry drop the underscores and capitalise the letter behind each of them; the two
differ in the first letter only.  Capitals are ASCII capitals. -/

namespace ProtoSchema

/-- Drops every underscore and capitalises the next character that stays. -/
def joinWords (capital : Bool) : List Char → List Char
  | [] => []
  | c :: cs =>
    if c = '_' then joinWords true cs
    else (if capital then c.toUpper else c) :: joinWords false cs

/-- The name of a field in JSON, such as `fooBar` for `foo_bar`. -/
def jsonName (name : String) : String := String.ofList (joinWords false name.toList)

/-- The name in Pascal case, such as `FooBar` for `foo_bar`. -/
def pascalName (name : String) : String := String.ofList (joinWords true name.toList)

example : jsonName "foo__bar_" = "fooBar" := by decide +kernel
example : pascalName "_x" = "X" := by decide +kernel

end ProtoSchema
