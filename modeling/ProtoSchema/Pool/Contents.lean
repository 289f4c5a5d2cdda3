import ProtoSchema.Pool.Basic

/-! # What a file holds

The declarations of a file, found by walking down from it.  Blocks and fields are numbered in the
order of reading, so sorting by number gives the order in which they are written.  `recordTypes`
stores the types that importing files see: those of the file, then those that its public imports
pass on. -/

namespace ProtoSchema.Pool

/-! ### Sorting -/

section sorting

variable {α : Type} (key : α → Nat)

/-- Puts a value in front of the first one whose key is not smaller. -/
def insertBy (x : α) : List α → List α
  | [] => [x]
  | y :: ys => if key x ≤ key y then x :: y :: ys else y :: insertBy x ys

/-- Sorts some values by their keys; those with one key keep their order. -/
def sortBy (xs : List α) : List α := xs.foldr (insertBy key) []

variable {key} {x y : α}

@[simp] theorem mem_insertBy (ys : List α) : x ∈ insertBy key y ys ↔ x = y ∨ x ∈ ys := by
  induction ys with
  | nil => simp [insertBy]
  | cons z ys ih =>
    unfold insertBy
    split
    · simp
    · simp only [List.mem_cons, ih]
      exact or_left_comm

@[simp] theorem mem_sortBy (xs : List α) : x ∈ sortBy key xs ↔ x ∈ xs := by
  induction xs with
  | nil => exact .rfl
  | cons y xs ih => exact (mem_insertBy _).trans (by simp [← ih, sortBy])

end sorting

/-! ### Blocks and fields -/

/-- The messages and extend blocks of a file, in the order in which they are written. -/
def blocksOf (pool : Pool) (file : FileId) : List BlockId :=
  let messages := pool.messagesIn (.file file)
  let scopes := .file file :: messages.map Scope.block
  let extendBlocks := scopes.flatMap fun s => (pool.members s).extendBlocks
  sortBy BlockId.index (messages ++ extendBlocks)

/-- The fields of a file, in the order in which they are written. -/
def fieldsOf (pool : Pool) (file : FileId) : List FieldId :=
  let fields := (pool.blocksOf file).flatMap fun id => (pool.block id).fields.values
  sortBy FieldId.index fields

/-! ### Types -/

/-- The types that a file declares, each behind its full name. -/
def declaredTypes (pool : Pool) (file : FileId) : List (DottedName × TypeId) :=
  let scopes := .file file :: (pool.messagesIn (.file file)).map Scope.block
  let types := scopes.flatMap fun s =>
    (pool.members s).messages.values.map .message ++ (pool.members s).enums.values.map .enum
  types.map fun t => (pool.typeName t, t)

/-- The types that the public imports of a file pass on. -/
def importedTypes (pool : Pool) (file : FileId) : List (DottedName × TypeId) :=
  ((pool.file file).imports.values.filter (·.kind = .publicly)).flatMap fun i =>
    (pool.file i.file).types.entries

/-- Records the types that importing files see: the file's own ones come first. -/
def recordTypes (pool : Pool) (file : FileId) : Pool :=
  let types := Table.empty.insertAll (pool.declaredTypes file ++ pool.importedTypes file)
  pool.modifyFile file fun f => { f with types }

end ProtoSchema.Pool
