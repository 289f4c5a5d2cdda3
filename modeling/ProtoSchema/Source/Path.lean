import ProtoSchema.Text.Split

/-! # Paths

A path is a text with slashes between its components.  Repeated and trailing slashes mean nothing,
and neither does a component `.`, which is kept only at the very beginning.  The name of a file is
a path of plain components relative to an include directory; `Path.nameUnder?` finds the name of a
path below such a directory.  Components `.` are ignored when paths are compared. -/

namespace ProtoSchema

namespace Path

/-- What a piece of a path stands for. -/
inductive Component where
  | root
  | current
  | parent
  | normal (name : String)
deriving DecidableEq, Repr, Inhabited

/-- The component that a piece between slashes stands for behind the beginning of a path. -/
def Component.ofPiece? (piece : String) : Option Component :=
  if piece = "" ∨ piece = "." then none
  else if piece = ".." then some .parent
  else some (.normal piece)

def isAbsolute (path : String) : Bool := path.toList.head? == some '/'

/-- The components of a path, outermost first. -/
def components (path : String) : List Component :=
  let pieces := Text.split '/' path
  let first : Option Component :=
    if isAbsolute path then some .root
    else if pieces.head? = some "." then some .current
    else none
  first.toList ++ pieces.filterMap Component.ofPiece?

/-- The path of `name` below the directory `base`; an absolute name stands for itself. -/
def join (base name : String) : String :=
  if isAbsolute name then name
  else if base = "" ∨ base.toList.getLast? = some '/' then base ++ name
  else base ++ "/" ++ name

/-- Plain components with slashes between them; other components, except `.`, make no name, and
neither do none. -/
def nameOf? (cs : List Component) : Option String :=
  let names? := (cs.filter (· ≠ .current)).mapM fun c =>
    match c with
    | .normal name => some name
    | _ => none
  match names? with
  | some [] | none => none
  | some names => some ("/".intercalate names)

/-- The name of the file at a relative path without components `..`. -/
def fileName? (path : String) : Option String := nameOf? (components path)

/-- What follows the components `front` in the components `path`, if `path` begins with them.
Components `.` are passed over on both sides. -/
def after? : (path front : List Component) → Option (List Component)
  | [], front => if front.all (· = .current) then some [] else none
  | .current :: path, front => after? path front
  | p :: path, front =>
    match front.dropWhile (· = .current) with
    | [] => some (p :: path)
    | f :: front => if p = f then after? path front else none

/-- The name of the file at a path below an include directory. -/
def nameUnder? (directory path : String) : Option String :=
  (after? (components path) (components directory)).bind nameOf?

/-- Do the last components of `path` equal those of `ending`? -/
def endsWith (path ending : String) : Bool :=
  (after? (components path).reverse (components ending).reverse).isSome

example : nameUnder? "inc/./sub" "inc/sub/./a.proto" = some "a.proto" := by decide +kernel
example : nameUnder? "inc" "inc/../a.proto" = none := by decide +kernel
example : endsWith "./inc/a.proto" "./a.proto" = true := by decide +kernel

end Path

end ProtoSchema
