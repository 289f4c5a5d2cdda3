import ProtoSchema.Fault
import ProtoSchema.Text.Quoted

/-! # Errors

Why a file was not compiled.  An error inside a source text holds the fault and the text, and from
these its line and column; the other errors concern the search for files. -/

namespace ProtoSchema

/-- Why a file was not compiled. -/
inductive Error where
  /-- A fault in the text of a file. -/
  | source (fault : Fault) (file text : String)
  | noIncludePaths
  /-- The file exists and cannot be read; `cause` is what the operating system says. -/
  | openFailed (name path cause : String)
  | fileTooLarge (name : String)
  | fileNotUtf8 (name : String)
  | fileNotFound (name : String)
  /-- An import statement in the text of a file names a file that is not found. -/
  | importNotFound (name importer text : String) (span : Span)
  /-- The files on a cycle of imports, the first one again at the end. -/
  | circularImport (name : String) (cycle : List String)
  | fileNotIncluded (path : String)
  | fileShadowed (name path shadow : String)
  /-- An error of a resolver that is none of the above. -/
  | custom (message : String) (fromSystem : Bool)
deriving DecidableEq, Repr, Inhabited

namespace Error

open Fault (quoted)

/-- What is wrong. -/
def message : Error → String
  | source fault _ _ => fault.message
  | noIncludePaths => "at least one include path must be provided"
  | openFailed _ path _ => "error opening file " ++ quoted path
  | fileTooLarge name => "file " ++ quoted name ++ " is too large"
  | fileNotUtf8 name => "file " ++ quoted name ++ " is not valid utf-8"
  | fileNotFound name => "file " ++ quoted name ++ " not found"
  | importNotFound name importer _ _ =>
    "import " ++ quoted name ++ " not found (imported from " ++ quoted importer ++ ")"
  | circularImport _ cycle => "import cycle detected: " ++ " -> ".intercalate cycle
  | fileNotIncluded path => "path " ++ quoted path ++ " is not in any include path"
  | fileShadowed _ path shadow =>
    "path " ++ quoted path ++ " is shadowed by " ++ quoted shadow ++ " in the include paths"
  | custom message _ => message

/-- Advice on how to mend the error. -/
def help? : Error → Option String
  | source fault _ _ => fault.help?
  | fileTooLarge _ => some "the maximum file length is 2,147,483,647 bytes"
  | fileShadowed _ path shadow =>
    some ("either pass " ++ quoted shadow ++
      " as the input file, or re-order the include paths so that " ++ quoted path ++
      " comes first")
  | _ => none

/-- The places that show the error, each with its caption. -/
def labels : Error → List (String × Span)
  | source fault _ _ => fault.labels
  | importNotFound _ _ _ span => [("imported here", span)]
  | _ => []

/-- The file that the error concerns. -/
def file? : Error → Option String
  | source _ file _ => some file
  | openFailed name _ _ | fileTooLarge name | fileNotUtf8 name | fileNotFound name
  | circularImport name _ | fileShadowed name _ _ => some name
  | importNotFound _ importer _ _ => some importer
  | noIncludePaths | fileNotIncluded _ | custom _ _ => none

/-- The file and the place in it at which a fault is reported. -/
def location? : Error → Option (String × Position)
  | source fault file text => some (file, Position.inText text fault.span.start)
  | _ => none

/-- What the operating system says. -/
def cause? : Error → Option String
  | openFailed _ _ cause => some cause
  | _ => none

/-- The message behind a place in a file. -/
def located (file : String) (p : Position) (message : String) : String :=
  file ++ ":" ++ toString p.line ++ ":" ++ toString p.column ++ ": " ++ message

/-- The error on one line with all that is known of its place and cause. -/
def line (e : Error) : String :=
  match e with
  | source fault file text => located file (Position.inText text fault.span.start) e.message
  | importNotFound _ importer text span =>
    located importer (Position.inText text span.start) e.message
  | openFailed _ _ cause => e.message ++ ": " ++ cause
  | custom message false => Text.quote message
  | custom message true => "Custom \x7b kind: Other, error: " ++ Text.quote message ++ " \x7d"
  | _ => e.message

/-! ### Kinds of errors -/

/-- Is a file missing? -/
def isFileNotFound : Error → Bool
  | fileNotFound _ | importNotFound .. | fileNotIncluded _ => true
  | _ => false

/-- Is a source text malformed? -/
def isParse : Error → Bool
  | source fault _ _ => fault.isSyntactic
  | fileTooLarge _ | fileNotUtf8 _ => true
  | _ => false

/-- Does a type name denote no type? -/
def isResolve : Error → Bool
  | source fault _ _ => fault.isUnresolved
  | _ => false

/-- Did the operating system report the error? -/
def isSystem : Error → Bool
  | openFailed .. => true
  | custom _ fromSystem => fromSystem
  | _ => false

end Error

end ProtoSchema
