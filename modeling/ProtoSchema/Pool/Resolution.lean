import ProtoSchema.Pool.Basic

/-! # What a type name denotes

A relative name is looked up in three ways, and the first that finds a type decides.

* Lexically: from the scope of the reference outward, the first segment must be a declaration of
  the scope, and the others lead down from it.
* In the file: a name that begins with the package of the file leads down from the file.
* In the imports, in turn: as it is written, and behind the front parts of the package of the
  imported file, from the whole package down to what it shares with the package of this file.

An absolute name is not looked up lexically. -/

namespace ProtoSchema.Pool

/-- The type with a name among some members. -/
def member? (members : Members) (name : String) : Option TypeId :=
  ((members.messages.find? name).map .message).or ((members.enums.find? name).map .enum)

/-- Follows a path of names down from some members; all but the last are names of messages. -/
def descend (pool : Pool) (members : Members) : DottedName → Option TypeId
  | [] => none
  | [name] => member? members name
  | name :: path =>
    match members.messages.find? name with
    | some id => descend pool (pool.block id).members path
    | none => none

/-- Looks a name up in a scope and those around it. -/
def lexical (pool : Pool) (scope : Scope) (name : DottedName) : Option TypeId :=
  (pool.enclosing scope).findSome? fun s => pool.descend (pool.members s) name

/-- Looks a full name up in a file. -/
def inFile (pool : Pool) (file : FileId) (name : DottedName) : Option TypeId :=
  let f := pool.file file
  if f.packageName.isPrefixOf name then
    pool.descend f.members (name.drop f.packageName.length)
  else none

/-- The full names that a name may stand for in an import with package `imported`, seen from a file
with package `own`. -/
def qualifications (own imported name : DottedName) : List DottedName :=
  let shared := own.sharedLength imported
  let lengths := (List.range' shared (imported.length + 1 - shared)).reverse
  name :: if imported = [] then [] else lengths.map fun n => imported.take n ++ name

/-- Looks a name up in the imports of a file. -/
def inImports (pool : Pool) (file : FileId) (name : DottedName) : Option TypeId :=
  let f := pool.file file
  f.imports.values.findSome? fun i =>
    let imported := pool.file i.file
    (qualifications f.packageName imported.packageName name).findSome? imported.types.find?

/-- What a type name that is written in a scope of a file denotes. -/
def resolve? (pool : Pool) (file : FileId) (scope : Scope) (name : TypeName) : Option TypeId :=
  let outside := (pool.inFile file name.segments).or (pool.inImports file name.segments)
  if name.absolute then outside else (pool.lexical scope name.segments).or outside

end ProtoSchema.Pool
