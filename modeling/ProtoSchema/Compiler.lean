import ProtoSchema.Session

/-! # Opening files by path

A `Compiler` has a resolver and a session, and knows which files were opened by a path: these are
the roots.  A path is turned into a name first, and the file of that name must lie at that path.
An open that fails leaves the roots as they were; imports that were complete before the failure
stay registered. -/

namespace ProtoSchema

/-- A resolver with all that was read through it. -/
structure Compiler where
  resolver : Resolver
  session : Session := {}
  /-- The files that were opened, each once. -/
  roots : List FileId := []
  /-- Are imported files listed as well as opened ones? -/
  includeImports : Bool := false

/-- Steps of a compiler.  What was done before an error stays done. -/
abbrev CompilerM := EStateM Error Compiler

namespace Compiler

/-- A compiler that has opened nothing, over include directories of a disk. -/
def searching (disk : Disk) (includes : List String) : Except Error Compiler :=
  if includes = [] then .error .noIncludePaths
  else .ok { resolver := .directories disk includes }

/-! ### Opening -/

/-- The name under which a path is opened. -/
def nameOf (resolver : Resolver) (path : String) : Except Error String :=
  match (resolver.nameOf? path).or (Path.fileName? path) with
  | some name => .ok name
  | none => .error (.fileNotIncluded path)

/-- Opens the text of a file whose name was made from a path. -/
def openText (resolver : Resolver) (path name : String) : Except Error SourceFile :=
  match resolver.openFile name with
  | .error e => .error (if e.isFileNotFound then .fileNotIncluded path else e)
  | .ok file => (checkShadow name file.path path).map fun _ => file

/-- Counts a file among the roots. -/
def addRoot (c : Compiler) (id : FileId) : Compiler :=
  if id ∈ c.roots then c else { c with roots := c.roots ++ [id] }

/-- Runs a step of the session. -/
def onSession {α : Type} (step : SessionM α) : CompilerM α := do
  let c ← get
  match step c.session with
  | .ok a session => set { c with session }; return a
  | .error e session => set { c with session }; throw e

/-- The file with a name, which is read from a path if it is not registered. -/
def loadAt (path name : String) : CompilerM FileId := do
  let c ← get
  match c.session.registry.find? name with
  | some id =>
    match checkShadow name (c.session.pool.file id).path path with
    | .error e => throw e
    | .ok () => return id
  | none =>
    match openText c.resolver path name with
    | .error e => throw e
    | .ok file => onSession (Session.loadOpened c.resolver name file)

/-- Opens the file at a path. -/
def openFile (path : String) : CompilerM Unit := do
  match nameOf (← get).resolver path with
  | .error e => throw e
  | .ok name =>
    let id ← loadAt path name
    modify (·.addRoot id)

/-- Opens several files in turn, up to the first error. -/
def openFiles (paths : List String) : CompilerM Unit := paths.forM openFile

/-! ### Results -/

/-- The pool of all declarations. -/
def pool (c : Compiler) : Pool := c.session.pool

/-- The warnings about all files that were read, complete or not. -/
def warnings (c : Compiler) : List Warning := c.session.warnings

/-- A complete file, opened or imported. -/
def file? (c : Compiler) (name : String) : Option FileId := c.session.registry.find? name

/-- The files that are listed, each behind those it imports. -/
def files (c : Compiler) : List FileId :=
  c.session.registry.values.filter fun id => c.includeImports || id ∈ c.roots

/-- The state of a compiler on one line. -/
def summary (c : Compiler) : String :=
  let names := ", ".intercalate (c.session.registry.keys.map Text.quote)
  "Compiler \x7b files: [" ++ names ++ "], include_imports: " ++ toString c.includeImports ++
    ", warnings: " ++ toString c.warnings.length ++ ", .. \x7d"

end Compiler

end ProtoSchema
