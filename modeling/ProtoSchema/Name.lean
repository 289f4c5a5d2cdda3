import ProtoSchema.Text.Split

/-! # Dotted names

A full name is the list of its segments, outermost first; the empty list is the name of no
package.  `DottedName.text` joins the segments with dots, and `TypeName` is a type name as a
declaration writes it: relative, or absolute with a leading dot. -/

namespace ProtoSchema

/-- The segments of a dotted name, outermost first. -/
abbrev DottedName := List String

namespace DottedName

/-- The segments joined by dots. -/
def text (name : DottedName) : String := ".".intercalate name

/-- The name that a text spells; the empty text spells the empty name. -/
def ofText (s : String) : DottedName :=
  if s = "" then [] else Text.split '.' s

/-- The length of the longest common front part of two names. -/
def sharedLength : DottedName → DottedName → Nat
  | a :: as, b :: bs => if a = b then sharedLength as bs + 1 else 0
  | _, _ => 0

end DottedName

/-- A type name as it is written; an absolute one has a leading dot. -/
structure TypeName where
  absolute : Bool
  segments : DottedName
deriving DecidableEq, Repr, Inhabited

namespace TypeName

def text (name : TypeName) : String :=
  if name.absolute then "." ++ name.segments.text else name.segments.text

end TypeName

example : DottedName.ofText "a..b" = ["a", "", "b"] := by decide +kernel
example : DottedName.sharedLength ["a", "b", "c"] ["a", "b", "x", "y"] = 2 := by decide
example : DottedName.sharedLength ["ab", "c"] ["a", "c"] = 0 := by decide

end ProtoSchema
