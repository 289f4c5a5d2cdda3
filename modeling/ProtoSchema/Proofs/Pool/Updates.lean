import Mathlib.Tactic.Common
import ProtoSchema.Pool.Basic

/-! # Reading a pool after a change

Every change of a pool puts a declaration behind the others of its kind or rewrites one in place.
What is read at the other places stays. -/

namespace ProtoSchema.Pool

variable {pool : Pool}

/-! ### Declarations that are there -/

def HasFile (pool : Pool) (id : FileId) : Prop := id.index < pool.files.size

def HasBlock (pool : Pool) (id : BlockId) : Prop := id.index < pool.blocks.size

def HasEnum (pool : Pool) (id : EnumId) : Prop := id.index < pool.enums.size

def HasField (pool : Pool) (id : FieldId) : Prop := id.index < pool.fields.size

instance (id : FileId) : Decidable (pool.HasFile id) := inferInstanceAs (Decidable (_ < _))
instance (id : BlockId) : Decidable (pool.HasBlock id) := inferInstanceAs (Decidable (_ < _))
instance (id : EnumId) : Decidable (pool.HasEnum id) := inferInstanceAs (Decidable (_ < _))
instance (id : FieldId) : Decidable (pool.HasField id) := inferInstanceAs (Decidable (_ < _))

theorem block_of_not_hasBlock {id : BlockId} (h : ¬pool.HasBlock id) : pool.block id = default := by
  simp [block, Array.getElem?_eq_none (Nat.le_of_not_lt h)]

theorem field_of_not_hasField {id : FieldId} (h : ¬pool.HasField id) : pool.field id = default := by
  simp [field, Array.getElem?_eq_none (Nat.le_of_not_lt h)]

theorem file_of_not_hasFile {id : FileId} (h : ¬pool.HasFile id) : pool.file id = default := by
  simp [file, Array.getElem?_eq_none (Nat.le_of_not_lt h)]

/-! ### Arrays -/

theorem getD_modify {α : Type} [Inhabited α] (as : Array α) (i j : Nat) (f : α → α) :
    (as.modify i f)[j]?.getD default =
      if i = j ∧ j < as.size then f (as[j]?.getD default) else as[j]?.getD default := by
  rw [Array.getElem?_modify]
  by_cases hij : i = j
  · subst hij
    by_cases hi : i < as.size
    · simp [hi]
    · simp [hi]
  · simp [hij]

theorem getD_push {α : Type} [Inhabited α] (as : Array α) (a : α) (j : Nat) :
    (as.push a)[j]?.getD default = if j = as.size then a else as[j]?.getD default := by
  rw [Array.getElem?_push]
  split <;> simp

/-! ### Rewriting in place -/

section modify
variable (i : FileId) (b : BlockId) (e : EnumId) (d : FieldId)
variable (f : File → File) (g : Block → Block) (h : EnumType → EnumType) (k : Field → Field)

theorem file_modifyFile (j : FileId) : (pool.modifyFile i f).file j =
    if i = j ∧ pool.HasFile j then f (pool.file j) else pool.file j := by
  obtain ⟨i⟩ := i
  obtain ⟨j⟩ := j
  simp [file, modifyFile, HasFile, getD_modify]

theorem block_modifyBlock (j : BlockId) : (pool.modifyBlock b g).block j =
    if b = j ∧ pool.HasBlock j then g (pool.block j) else pool.block j := by
  obtain ⟨i⟩ := b
  obtain ⟨j⟩ := j
  simp [block, modifyBlock, HasBlock, getD_modify]

theorem enum_modifyEnum (j : EnumId) : (pool.modifyEnum e h).enum j =
    if e = j ∧ pool.HasEnum j then h (pool.enum j) else pool.enum j := by
  obtain ⟨i⟩ := e
  obtain ⟨j⟩ := j
  simp [enum, modifyEnum, HasEnum, getD_modify]

theorem field_modifyField (j : FieldId) : (pool.modifyField d k).field j =
    if d = j ∧ pool.HasField j then k (pool.field j) else pool.field j := by
  obtain ⟨i⟩ := d
  obtain ⟨j⟩ := j
  simp [field, modifyField, HasField, getD_modify]

@[simp] theorem block_modifyFile : (pool.modifyFile i f).block = pool.block := rfl
@[simp] theorem enum_modifyFile : (pool.modifyFile i f).enum = pool.enum := rfl
@[simp] theorem field_modifyFile : (pool.modifyFile i f).field = pool.field := rfl
@[simp] theorem extensions_modifyFile : (pool.modifyFile i f).extensions = pool.extensions := rfl

@[simp] theorem file_modifyBlock : (pool.modifyBlock b g).file = pool.file := rfl
@[simp] theorem enum_modifyBlock : (pool.modifyBlock b g).enum = pool.enum := rfl
@[simp] theorem field_modifyBlock : (pool.modifyBlock b g).field = pool.field := rfl
@[simp] theorem extensions_modifyBlock : (pool.modifyBlock b g).extensions = pool.extensions := rfl

@[simp] theorem file_modifyEnum : (pool.modifyEnum e h).file = pool.file := rfl
@[simp] theorem block_modifyEnum : (pool.modifyEnum e h).block = pool.block := rfl
@[simp] theorem field_modifyEnum : (pool.modifyEnum e h).field = pool.field := rfl
@[simp] theorem extensions_modifyEnum : (pool.modifyEnum e h).extensions = pool.extensions := rfl

@[simp] theorem file_modifyField : (pool.modifyField d k).file = pool.file := rfl
@[simp] theorem block_modifyField : (pool.modifyField d k).block = pool.block := rfl
@[simp] theorem enum_modifyField : (pool.modifyField d k).enum = pool.enum := rfl
@[simp] theorem extensions_modifyField : (pool.modifyField d k).extensions = pool.extensions := rfl

end modify

/-! ### Which declarations are there -/

section places
variable (i : FileId) (b : BlockId) (e : EnumId) (d : FieldId)
variable (f : File → File) (g : Block → Block) (h : EnumType → EnumType) (k : Field → Field)

@[simp] theorem hasFile_modifyFile : (pool.modifyFile i f).HasFile = pool.HasFile := by
  simp [HasFile, modifyFile, funext_iff]
@[simp] theorem hasBlock_modifyFile : (pool.modifyFile i f).HasBlock = pool.HasBlock := rfl
@[simp] theorem hasEnum_modifyFile : (pool.modifyFile i f).HasEnum = pool.HasEnum := rfl
@[simp] theorem hasField_modifyFile : (pool.modifyFile i f).HasField = pool.HasField := rfl

@[simp] theorem hasFile_modifyBlock : (pool.modifyBlock b g).HasFile = pool.HasFile := rfl
@[simp] theorem hasBlock_modifyBlock : (pool.modifyBlock b g).HasBlock = pool.HasBlock := by
  simp [HasBlock, modifyBlock, funext_iff]
@[simp] theorem hasEnum_modifyBlock : (pool.modifyBlock b g).HasEnum = pool.HasEnum := rfl
@[simp] theorem hasField_modifyBlock : (pool.modifyBlock b g).HasField = pool.HasField := rfl

@[simp] theorem hasFile_modifyEnum : (pool.modifyEnum e h).HasFile = pool.HasFile := rfl
@[simp] theorem hasBlock_modifyEnum : (pool.modifyEnum e h).HasBlock = pool.HasBlock := rfl
@[simp] theorem hasEnum_modifyEnum : (pool.modifyEnum e h).HasEnum = pool.HasEnum := by
  simp [HasEnum, modifyEnum, funext_iff]
@[simp] theorem hasField_modifyEnum : (pool.modifyEnum e h).HasField = pool.HasField := rfl

@[simp] theorem hasFile_modifyField : (pool.modifyField d k).HasFile = pool.HasFile := rfl
@[simp] theorem hasBlock_modifyField : (pool.modifyField d k).HasBlock = pool.HasBlock := rfl
@[simp] theorem hasEnum_modifyField : (pool.modifyField d k).HasEnum = pool.HasEnum := rfl
@[simp] theorem hasField_modifyField : (pool.modifyField d k).HasField = pool.HasField := by
  simp [HasField, modifyField, funext_iff]

end places

/-! ### Members -/

/-- The scopes that are files or blocks of the pool. -/
def InRange (pool : Pool) : Scope → Prop
  | .file id => pool.HasFile id
  | .block id => pool.HasBlock id

instance : (s : Scope) → Decidable (pool.InRange s)
  | .file id => inferInstanceAs (Decidable (pool.HasFile id))
  | .block id => inferInstanceAs (Decidable (pool.HasBlock id))

section members
variable (s : Scope) (f : Members → Members)

theorem file_modifyMembers (j : FileId) : (pool.modifyMembers s f).file j =
    { pool.file j with
      members := if s = .file j ∧ pool.HasFile j then f (pool.file j).members
        else (pool.file j).members } := by
  cases s with
  | file id =>
    simp only [modifyMembers, file_modifyFile, Scope.file.injEq]
    split <;> rfl
  | block id => simp [modifyMembers]

theorem block_modifyMembers (j : BlockId) : (pool.modifyMembers s f).block j =
    { pool.block j with
      members := if s = .block j ∧ pool.HasBlock j then f (pool.block j).members
        else (pool.block j).members } := by
  cases s with
  | file id => simp [modifyMembers]
  | block id =>
    simp only [modifyMembers, block_modifyBlock, Scope.block.injEq]
    split <;> rfl

theorem members_modifyMembers (t : Scope) : (pool.modifyMembers s f).members t =
    if s = t ∧ pool.InRange t then f (pool.members t) else pool.members t := by
  cases t with
  | file j =>
    simp only [members, file_modifyMembers]
    rfl
  | block j =>
    simp only [members, block_modifyMembers]
    rfl

@[simp] theorem enum_modifyMembers : (pool.modifyMembers s f).enum = pool.enum := by
  cases s <;> rfl

@[simp] theorem field_modifyMembers : (pool.modifyMembers s f).field = pool.field := by
  cases s <;> rfl

@[simp] theorem extensions_modifyMembers :
    (pool.modifyMembers s f).extensions = pool.extensions := by
  cases s <;> rfl

@[simp] theorem hasFile_modifyMembers : (pool.modifyMembers s f).HasFile = pool.HasFile := by
  cases s <;> simp [modifyMembers]

@[simp] theorem hasBlock_modifyMembers : (pool.modifyMembers s f).HasBlock = pool.HasBlock := by
  cases s <;> simp [modifyMembers]

@[simp] theorem hasEnum_modifyMembers : (pool.modifyMembers s f).HasEnum = pool.HasEnum := by
  cases s <;> rfl

@[simp] theorem hasField_modifyMembers : (pool.modifyMembers s f).HasField = pool.HasField := by
  cases s <;> rfl

end members

end ProtoSchema.Pool
