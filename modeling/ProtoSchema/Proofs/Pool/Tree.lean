import ProtoSchema.Proofs.Pool.Updates
import ProtoSchema.Pool.Build

/-! # The tree of declarations

A pool is `WellFormed` if every declaration stands in a scope of its file and is found there under
its name: the tables of members and of fields and the declarations themselves say the same.  The
pool without declarations is well-formed, and so is every pool after a declaration is added to a
scope (`Proofs.Pool.Growth`).  What else is done to a pool does not touch the tree (`SameTree`). -/

namespace ProtoSchema.Pool

variable {pool : Pool}

/-- The file that a scope is part of. -/
def scopeFile (pool : Pool) : Scope → FileId
  | .file id => id
  | .block id => (pool.block id).file

/-- May messages, enums and extend blocks stand in a scope?  It is a file or a message. -/
def HasScope (pool : Pool) : Scope → Prop
  | .file id => pool.HasFile id
  | .block id => pool.HasBlock id ∧ (pool.block id).isExtend = false

/-- The tables of the pool and its declarations agree, and declarations in one scope have
different names. -/
structure WellFormed (pool : Pool) : Prop where
  block_scope : ∀ b, pool.HasBlock b →
    pool.HasScope (pool.block b).parent ∧ pool.scopeFile (pool.block b).parent = (pool.block b).file
  block_later : ∀ b p, pool.HasBlock b → (pool.block b).parent = .block p → p.index < b.index
  enum_scope : ∀ e, pool.HasEnum e →
    pool.HasScope (pool.enum e).parent ∧ pool.scopeFile (pool.enum e).parent = (pool.enum e).file
  field_block : ∀ f, pool.HasField f → pool.HasBlock (pool.field f).block
  message_iff : ∀ s n b, (pool.members s).messages.find? n = some b ↔
    pool.HasBlock b ∧ (pool.block b).parent = s ∧
      (pool.block b).heading = .message (pool.scopeName s ++ [n])
  message_name : ∀ b name, pool.HasBlock b → (pool.block b).heading = .message name →
    ∃ n, name = pool.scopeName (pool.block b).parent ++ [n]
  enum_iff : ∀ s n e, (pool.members s).enums.find? n = some e ↔
    pool.HasEnum e ∧ (pool.enum e).parent = s ∧ (pool.enum e).fullName = pool.scopeName s ++ [n]
  enum_name : ∀ e, pool.HasEnum e →
    ∃ n, (pool.enum e).fullName = pool.scopeName (pool.enum e).parent ++ [n]
  extend_iff : ∀ s b, b ∈ (pool.members s).extendBlocks ↔
    pool.HasBlock b ∧ (pool.block b).parent = s ∧ (pool.block b).isExtend = true
  extend_nodup : ∀ s, (pool.members s).extendBlocks.Nodup
  field_iff : ∀ b n f, (pool.block b).fields.find? n = some f ↔
    pool.HasField f ∧ (pool.field f).block = b ∧ (pool.field f).number.value = n
  /-- Messages and enums in one scope have different names. -/
  message_enum : ∀ s n, (pool.members s).messages.find? n = none ∨
    (pool.members s).enums.find? n = none
  /-- Fields of one block have different names. -/
  field_field : ∀ f g, pool.HasField f → pool.HasField g → (pool.field f).block = (pool.field g).block →
    (pool.field f).name.value = (pool.field g).name.value → f = g
  /-- A field and a declaration in its block have different names. -/
  field_member : ∀ f, pool.HasField f →
    (pool.members (.block (pool.field f).block)).messages.find? (pool.field f).name.value = none ∧
      (pool.members (.block (pool.field f).block)).enums.find? (pool.field f).name.value = none

/-! ### Changes outside the tree -/

/-- Two pools have the same tree of declarations. -/
structure SameTree (pool other : Pool) : Prop where
  files : other.HasFile = pool.HasFile
  blocks : other.HasBlock = pool.HasBlock
  enums : other.HasEnum = pool.HasEnum
  fields : other.HasField = pool.HasField
  members : other.members = pool.members
  scopeName : other.scopeName = pool.scopeName
  block : ∀ b, (other.block b).file = (pool.block b).file ∧
    (other.block b).parent = (pool.block b).parent ∧ (other.block b).fields = (pool.block b).fields ∧
    (other.block b).isExtend = (pool.block b).isExtend
  enum : ∀ e, (other.enum e).file = (pool.enum e).file ∧
    (other.enum e).parent = (pool.enum e).parent ∧ (other.enum e).fullName = (pool.enum e).fullName
  field : ∀ f, (other.field f).block = (pool.field f).block ∧
    (other.field f).number = (pool.field f).number ∧ (other.field f).name = (pool.field f).name

theorem heading_eq_message_iff {b : Block} {name : DottedName} :
    b.heading = .message name ↔ b.isExtend = false ∧ b.fullName = name := by
  unfold Block.isExtend Block.fullName
  cases b.heading <;> simp

namespace SameTree

variable {other : Pool}

theorem heading (h : SameTree pool other) (b : BlockId) (name : DottedName) :
    (other.block b).heading = .message name ↔ (pool.block b).heading = .message name := by
  have hn : other.scopeName (.block b) = pool.scopeName (.block b) := by rw [h.scopeName]
  simp only [Pool.scopeName] at hn
  rw [heading_eq_message_iff, heading_eq_message_iff, (h.block b).2.2.2, hn]

theorem scopeFile (h : SameTree pool other) (s : Scope) : other.scopeFile s = pool.scopeFile s := by
  cases s with
  | file id => rfl
  | block id => exact (h.block id).1

theorem hasScope (h : SameTree pool other) (s : Scope) : other.HasScope s ↔ pool.HasScope s := by
  cases s with
  | file id => simp [HasScope, h.files]
  | block id => simp [HasScope, h.blocks, (h.block id).2.2.2]

theorem wellFormed (h : SameTree pool other) (hw : pool.WellFormed) : other.WellFormed where
  block_scope b hb := by
    rw [h.hasScope, h.scopeFile, (h.block b).1, (h.block b).2.1]
    exact hw.block_scope b (h.blocks ▸ hb)
  block_later b p hb hp := hw.block_later b p (h.blocks ▸ hb) ((h.block b).2.1 ▸ hp)
  enum_scope e he := by
    rw [h.hasScope, h.scopeFile, (h.enum e).1, (h.enum e).2.1]
    exact hw.enum_scope e (h.enums ▸ he)
  field_block f hf := by
    rw [(h.field f).1, h.blocks]
    exact hw.field_block f (h.fields ▸ hf)
  message_iff s n b := by
    rw [h.members, h.blocks, (h.block b).2.1, h.heading, h.scopeName]
    exact hw.message_iff s n b
  message_name b name hb hn := by
    rw [h.scopeName, (h.block b).2.1]
    exact hw.message_name b name (h.blocks ▸ hb) ((h.heading b name).mp hn)
  enum_iff s n e := by
    rw [h.members, h.enums, (h.enum e).2.1, (h.enum e).2.2, h.scopeName]
    exact hw.enum_iff s n e
  enum_name e he := by
    rw [h.scopeName, (h.enum e).2.1, (h.enum e).2.2]
    exact hw.enum_name e (h.enums ▸ he)
  extend_iff s b := by
    rw [h.members, h.blocks, (h.block b).2.1, (h.block b).2.2.2]
    exact hw.extend_iff s b
  extend_nodup s := by
    rw [h.members]
    exact hw.extend_nodup s
  field_iff b n f := by
    rw [(h.block b).2.2.1, h.fields, (h.field f).1, (h.field f).2.1]
    exact hw.field_iff b n f
  message_enum s n := by
    rw [h.members]
    exact hw.message_enum s n
  field_field f g := by
    rw [h.fields, (h.field f).1, (h.field g).1, (h.field f).2.2, (h.field g).2.2]
    exact hw.field_field f g
  field_member f := by
    rw [h.fields, h.members, (h.field f).1, (h.field f).2.2]
    exact hw.field_member f

protected theorem refl (pool : Pool) : SameTree pool pool :=
  ⟨rfl, rfl, rfl, rfl, rfl, rfl, fun _ => ⟨rfl, rfl, rfl, rfl⟩, fun _ => ⟨rfl, rfl, rfl⟩,
    fun _ => ⟨rfl, rfl, rfl⟩⟩

protected theorem trans {third : Pool} (h : SameTree pool other) (h' : SameTree other third) :
    SameTree pool third where
  files := h'.files.trans h.files
  blocks := h'.blocks.trans h.blocks
  enums := h'.enums.trans h.enums
  fields := h'.fields.trans h.fields
  members := h'.members.trans h.members
  scopeName := h'.scopeName.trans h.scopeName
  block b := by
    obtain ⟨h1, h2, h3, h4⟩ := h.block b
    obtain ⟨k1, k2, k3, k4⟩ := h'.block b
    exact ⟨k1.trans h1, k2.trans h2, k3.trans h3, k4.trans h4⟩
  enum e := by
    obtain ⟨h1, h2, h3⟩ := h.enum e
    obtain ⟨k1, k2, k3⟩ := h'.enum e
    exact ⟨k1.trans h1, k2.trans h2, k3.trans h3⟩
  field f := by
    obtain ⟨h1, h2, h3⟩ := h.field f
    obtain ⟨k1, k2, k3⟩ := h'.field f
    exact ⟨k1.trans h1, k2.trans h2, k3.trans h3⟩

theorem modifyFile (i : FileId) (f : File → File)
    (hf : ∀ x, (f x).members = x.members ∧ (f x).packageName = x.packageName) :
    SameTree pool (pool.modifyFile i f) where
  files := hasFile_modifyFile i f
  blocks := rfl
  enums := rfl
  fields := rfl
  members := by
    funext s
    cases s with
    | file j =>
      simp only [Pool.members, file_modifyFile]
      split
      · exact (hf _).1
      · rfl
    | block b => rfl
  scopeName := by
    funext s
    cases s with
    | file j =>
      simp only [Pool.scopeName, file_modifyFile]
      split
      · exact (hf _).2
      · rfl
    | block b => rfl
  block _ := ⟨rfl, rfl, rfl, rfl⟩
  enum _ := ⟨rfl, rfl, rfl⟩
  field _ := ⟨rfl, rfl, rfl⟩

theorem modifyBlock (i : BlockId) (g : Block → Block)
    (hg : ∀ x, (g x).file = x.file ∧ (g x).parent = x.parent ∧ (g x).members = x.members ∧
      (g x).fields = x.fields ∧ (g x).isExtend = x.isExtend ∧ (g x).fullName = x.fullName) :
    SameTree pool (pool.modifyBlock i g) where
  files := rfl
  blocks := hasBlock_modifyBlock i g
  enums := rfl
  fields := rfl
  members := by
    funext s
    cases s with
    | file j => rfl
    | block b =>
      simp only [Pool.members, block_modifyBlock]
      split
      · exact (hg _).2.2.1
      · rfl
  scopeName := by
    funext s
    cases s with
    | file j => rfl
    | block b =>
      simp only [Pool.scopeName, block_modifyBlock]
      split
      · exact (hg _).2.2.2.2.2
      · rfl
  block b := by
    rw [block_modifyBlock]
    split
    · obtain ⟨h1, h2, -, h4, h5, -⟩ := hg (pool.block b)
      exact ⟨h1, h2, h4, h5⟩
    · exact ⟨rfl, rfl, rfl, rfl⟩
  enum _ := ⟨rfl, rfl, rfl⟩
  field _ := ⟨rfl, rfl, rfl⟩

theorem modifyEnum (i : EnumId) (g : EnumType → EnumType)
    (hg : ∀ x, (g x).file = x.file ∧ (g x).parent = x.parent ∧ (g x).fullName = x.fullName) :
    SameTree pool (pool.modifyEnum i g) where
  files := rfl
  blocks := rfl
  enums := hasEnum_modifyEnum i g
  fields := rfl
  members := by
    funext s
    cases s <;> rfl
  scopeName := by
    funext s
    cases s <;> rfl
  block _ := ⟨rfl, rfl, rfl, rfl⟩
  enum e := by
    rw [enum_modifyEnum]
    split
    · exact hg _
    · exact ⟨rfl, rfl, rfl⟩
  field _ := ⟨rfl, rfl, rfl⟩

theorem modifyField (i : FieldId) (g : Field → Field)
    (hg : ∀ x, (g x).block = x.block ∧ (g x).number = x.number ∧ (g x).name = x.name) :
    SameTree pool (pool.modifyField i g) where
  files := rfl
  blocks := rfl
  enums := rfl
  fields := hasField_modifyField i g
  members := by
    funext s
    cases s <;> rfl
  scopeName := by
    funext s
    cases s <;> rfl
  block _ := ⟨rfl, rfl, rfl, rfl⟩
  enum _ := ⟨rfl, rfl, rfl⟩
  field f := by
    rw [field_modifyField]
    split
    · exact hg _
    · exact ⟨rfl, rfl, rfl⟩

theorem setExtensions (extensions : Table (BlockId × Nat) FieldId) :
    SameTree pool { pool with extensions } :=
  ⟨rfl, rfl, rfl, rfl, by funext s; cases s <;> rfl, by funext s; cases s <;> rfl,
    fun _ => ⟨rfl, rfl, rfl, rfl⟩, fun _ => ⟨rfl, rfl, rfl⟩, fun _ => ⟨rfl, rfl, rfl⟩⟩

end SameTree

theorem members_empty (s : Scope) : ({} : Pool).members s = {} := by
  cases s <;> rfl

/-- The pool without declarations. -/
theorem wellFormed_empty : WellFormed {} where
  block_scope _ hb := absurd hb (Nat.not_lt_zero _)
  block_later _ _ hb := absurd hb (Nat.not_lt_zero _)
  enum_scope _ he := absurd he (Nat.not_lt_zero _)
  field_block _ hf := absurd hf (Nat.not_lt_zero _)
  message_iff s n b := by
    rw [members_empty]
    exact ⟨fun h => (Option.some_ne_none _ h.symm).elim, fun h => absurd h.1 (Nat.not_lt_zero _)⟩
  message_name _ _ hb := absurd hb (Nat.not_lt_zero _)
  enum_iff s n e := by
    rw [members_empty]
    exact ⟨fun h => (Option.some_ne_none _ h.symm).elim, fun h => absurd h.1 (Nat.not_lt_zero _)⟩
  enum_name _ he := absurd he (Nat.not_lt_zero _)
  extend_iff s b := by
    rw [members_empty]
    exact ⟨fun h => (List.not_mem_nil h).elim, fun h => absurd h.1 (Nat.not_lt_zero _)⟩
  extend_nodup s := by
    rw [members_empty]
    exact List.nodup_nil
  field_iff _ _ _ :=
    ⟨fun h => (Option.some_ne_none _ h.symm).elim, fun h => absurd h.1 (Nat.not_lt_zero _)⟩
  message_enum s n := by
    rw [members_empty]
    exact .inl rfl
  field_field _ _ hf := absurd hf (Nat.not_lt_zero _)
  field_member _ hf := absurd hf (Nat.not_lt_zero _)

end ProtoSchema.Pool
