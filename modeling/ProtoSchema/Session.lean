import ProtoSchema.Event.OfTokens
import ProtoSchema.Pool.Build
import ProtoSchema.Pool.Check
import ProtoSchema.Source.Resolver

/-! # Loading files

A `Session` holds all that was read so far: the pool, the files that are complete, by name, and the
warnings.  `load` reads a file and before it, at each import statement, the file imported there; a
file is registered when it is complete, so every file stands behind those it imports.  The names of
the files that are being read are passed along, and a file that is among them closes a cycle.

Each of these names but the first is written in the text of a file that the resolver serves, and no
two are equal.  There are less of them than bytes in those texts, and `importLimit` bounds the depth
of the recursion. -/

namespace ProtoSchema

/-- All that was read so far. -/
structure Session where
  pool : Pool := {}
  /-- The complete files, in the order of their completion. -/
  registry : Table String FileId := {}
  warnings : List Warning := []
deriving Repr, Inhabited

/-- Steps of a session.  What was done before an error stays done. -/
abbrev SessionM := EStateM Error Session

namespace Session

/-- Runs a step over the pool. -/
def onPool (file text : String) (step : PoolM Unit) : SessionM Unit := do
  let s ← get
  match step s.pool with
  | .ok _ pool => set { s with pool }
  | .error fault pool =>
    set { s with pool }
    throw (.source fault file text)

/-- Applies an event of a file; an import is loaded by `load`. -/
def applyEvent (load : String → SessionM FileId) (name text : String) (c : Cursor) (event : Event) :
    SessionM Cursor := do
  match event with
  | .importFile kind target =>
    let notFound (e : Error) : Error :=
      match e with
      | .fileNotFound _ => .importNotFound target.value name text target.span
      | e => e
    let file ← EStateM.adaptExcept notFound (load target.value)
    modify fun s => { s with
      pool := s.pool.modifyFile c.file fun f =>
        { f with imports := f.imports.insert target.value ⟨file, kind⟩ } }
    return c
  | event =>
    let s ← get
    match c.apply s.pool event with
    | .error fault => throw (.source fault name text)
    | .ok (c, pool, notice) =>
      set { s with pool, warnings := s.warnings ++ notice.toList.map (Warning.mk · name) }
      return c

/-- Reads a file into the pool as far as its text goes, without sweep and checks. -/
def parse (load : String → SessionM FileId) (name : String) (file : SourceFile) :
    SessionM FileId := do
  let s ← get
  let (pool, id) := s.pool.addFile name file.path
  set { s with pool }
  let (events, fault?) := Event.ofText file.text
  let _ ← events.foldlM (applyEvent load name file.text) (Cursor.start id)
  match fault? with
  | some fault => throw (.source fault name file.text)
  | none => return id

/-- Reads, sweeps, checks and registers a file. -/
def complete (load : String → SessionM FileId) (name : String) (file : SourceFile) :
    SessionM FileId := do
  let id ← parse load name file
  modify fun s => { s with pool := s.pool.recordTypes id }
  onPool name file.text (Pool.checkFile id)
  modify fun s => { s with registry := s.registry.insert name id }
  return id

/-- The file with a name, which is read if it is not registered.  At most `limit` more files are
read within each other; `reading` are those that are being read, outermost first. -/
def loadUpTo (resolver : Resolver) : (limit : Nat) → (reading : List String) → String →
    SessionM FileId
  | limit, reading, name => do
    match (← get).registry.find? name with
    | some id => return id
    | none =>
      let cycle := reading.dropWhile (· ≠ name) ++ [name]
      match limit with
      | 0 => throw (.circularImport name cycle)
      | limit + 1 =>
        if name ∈ reading then throw (.circularImport name cycle)
        else
          match resolver.openFile name with
          | .error e => throw e
          | .ok file => complete (loadUpTo resolver limit (reading ++ [name])) name file

/-- More than the number of files that can be read within each other. -/
def importLimit (resolver : Resolver) : Nat :=
  resolver.texts.foldr (fun text n => text.utf8ByteSize + n) 2

/-- Reads a file that is open already, and its imports. -/
def loadOpened (resolver : Resolver) (name : String) (file : SourceFile) : SessionM FileId :=
  complete (loadUpTo resolver (importLimit resolver) [name]) name file

/-- Reads the text of a file into the pool; its imports are complete, it is not. -/
def parseOnly (resolver : Resolver) (name text : String) : SessionM FileId :=
  parse (loadUpTo resolver (importLimit resolver) [name]) name ⟨none, text⟩

end Session

end ProtoSchema
