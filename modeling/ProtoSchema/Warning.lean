import ProtoSchema.Text.Position

/-! # Warnings

What is worth telling about a file that does not keep it from being compiled. -/

namespace ProtoSchema

/-- The cause of a warning and the place that shows it. -/
inductive Notice where
  /-- An enum without a value numbered zero has its first value for default. -/
  | enumMissingZero (name default : String) (span : Span)
deriving DecidableEq, Repr, Inhabited

namespace Notice

def message : Notice → String
  | enumMissingZero name default _ =>
    "enum '" ++ name ++ "' has no value numbered zero, '" ++ default ++
      "' will be used as its default"

def help : Notice → String
  | enumMissingZero .. =>
    "declare a value with number 0 to keep the default independent of declaration order"

def labels : Notice → List (String × Span)
  | enumMissingZero _ _ span => [("defined here", span)]

end Notice

/-- A notice about a file. -/
structure Warning where
  notice : Notice
  file : String
deriving DecidableEq, Repr, Inhabited

/-- The warning on one line. -/
def Warning.line (w : Warning) : String := w.file ++ ": warning: " ++ w.notice.message

end ProtoSchema
