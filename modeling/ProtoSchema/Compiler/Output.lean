import ProtoSchema.Compiler
import ProtoSchema.Descriptor.OfPool
import ProtoSchema.Pool.Statements

/-! # What a compiler puts out

The files that a compiler lists as descriptors and as source text.  The sources can be read back:
`Compiler.reread` opens them with another compiler, and `Compiler.changed` names the files whose
source is not the same the second time. -/

namespace ProtoSchema

namespace Compiler

/-- The descriptors of the files that are listed. -/
def descriptors (c : Compiler) : List Descriptor.File := c.files.map c.pool.descriptor

/-- The name of a file. -/
def fileName (c : Compiler) (id : FileId) : String := (c.pool.file id).name

/-- The source text of the files that are listed, by name. -/
def sources (c : Compiler) : List (String × String) :=
  c.files.map fun id => (c.fileName id, c.pool.source id)

/-- A compiler that has opened the sources of another one, the last first. -/
def reread (c : Compiler) : Except Error Compiler :=
  let start : Compiler := { resolver := .memory c.sources, includeImports := true }
  match openFiles (c.sources.map Prod.fst).reverse start with
  | .ok () d => .ok d
  | .error e _ => .error e

/-- The files listed by `c` whose source is another one in `d`. -/
def changed (c d : Compiler) : List String :=
  (c.sources.filter fun s => (d.file? s.1).map d.pool.source ≠ some s.2).map Prod.fst

end Compiler

/-- Compiles files that are found in include directories of a disk. -/
def compile (disk : Disk) (includes paths : List String) : Except Error (List Descriptor.File) :=
  match Compiler.searching disk includes with
  | .error e => .error e
  | .ok c =>
    match Compiler.openFiles paths c with
    | .ok () c => .ok c.descriptors
    | .error e _ => .error e

end ProtoSchema
