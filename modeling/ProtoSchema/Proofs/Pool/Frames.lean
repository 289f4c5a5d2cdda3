import ProtoSchema.Proofs.Pool.Growth

/-! # What a change leaves as it was

`Touches g` says of two pools that the second has all declarations of the first, each where it was
written, and that nothing but the file `g` and its declarations differs.  Names that are bound stay
bound to what they denote.  Every change of a pool touches one file only; the others are `Kept`. -/

namespace ProtoSchema

/-- A heading after a change: its type may be bound if it was not. -/
def Heading.Refines (h h' : Heading) : Prop :=
  h' = h ∨ ∃ type t, h = .extend type none ∧ h' = .extend type (some t)

/-- The type of a field after a change: it may be bound if it was not. -/
def FieldType.Refines (a b : FieldType) : Prop :=
  b = a ∨ ∃ name t, a = .named name none ∧ b = .named name (some t)

theorem Heading.Refines.trans {a b c : Heading} (h : a.Refines b) (h' : b.Refines c) :
    a.Refines c := by
  rcases h with rfl | ⟨type, t, rfl, rfl⟩
  · exact h'
  · rcases h' with rfl | ⟨_, _, h', -⟩
    · exact .inr ⟨type, t, rfl, rfl⟩
    · cases h'

theorem FieldType.Refines.trans {a b c : FieldType} (h : a.Refines b) (h' : b.Refines c) :
    a.Refines c := by
  rcases h with rfl | ⟨type, t, rfl, rfl⟩
  · exact h'
  · rcases h' with rfl | ⟨_, _, h', -⟩
    · exact .inr ⟨type, t, rfl, rfl⟩
    · cases h'

/-- A block after a change: it is where it was, its heading is at most bound, and it has at least
the extension ranges that it had. -/
structure Block.Refines (b b' : Block) : Prop where
  file : b'.file = b.file
  parent : b'.parent = b.parent
  span : b'.span = b.span
  heading : b.heading.Refines b'.heading
  ranges : b.extensionRanges ⊆ b'.extensionRanges

theorem Block.Refines.refl (b : Block) : b.Refines b :=
  ⟨rfl, rfl, rfl, .inl rfl, List.Subset.refl _⟩

theorem Block.Refines.trans {a b c : Block} (h : a.Refines b) (h' : b.Refines c) : a.Refines c :=
  ⟨h'.file.trans h.file, h'.parent.trans h.parent, h'.span.trans h.span,
    h.heading.trans h'.heading, fun _ hr => h'.ranges (h.ranges hr)⟩

theorem Block.Refines.isExtend {a b : Block} (h : a.Refines b) : b.isExtend = a.isExtend := by
  unfold Block.isExtend
  rcases h.heading with e | ⟨type, t, e, e'⟩
  · rw [e]
  · rw [e, e']

theorem Block.Refines.fullName {a b : Block} (h : a.Refines b) : b.fullName = a.fullName := by
  unfold Block.fullName
  rcases h.heading with e | ⟨type, t, e, e'⟩
  · rw [e]
  · rw [e, e']

/-- An enum after a change: it is where it was. -/
structure EnumType.Refines (e e' : EnumType) : Prop where
  file : e'.file = e.file
  parent : e'.parent = e.parent
  span : e'.span = e.span
  fullName : e'.fullName = e.fullName

theorem EnumType.Refines.refl (e : EnumType) : e.Refines e := ⟨rfl, rfl, rfl, rfl⟩

theorem EnumType.Refines.trans {a b c : EnumType} (h : a.Refines b) (h' : b.Refines c) :
    a.Refines c :=
  ⟨h'.file.trans h.file, h'.parent.trans h.parent, h'.span.trans h.span,
    h'.fullName.trans h.fullName⟩

/-- A field after a change: its type is at most bound. -/
structure Field.Refines (f f' : Field) : Prop where
  same : f' = { f with type := f'.type }
  type : f.type.Refines f'.type

theorem Field.Refines.refl (f : Field) : f.Refines f := ⟨rfl, .inl rfl⟩

theorem Field.Refines.trans {a b c : Field} (h : a.Refines b) (h' : b.Refines c) : a.Refines c :=
  ⟨h'.same.trans (by rw [h.same]), h.type.trans h'.type⟩

namespace Pool

variable {pool other third : Pool} {f g : FileId}

/-! ### The declarations of a file -/

def BlockOf (pool : Pool) (f : FileId) (b : BlockId) : Prop :=
  pool.HasBlock b ∧ (pool.block b).file = f

def EnumOf (pool : Pool) (f : FileId) (e : EnumId) : Prop :=
  pool.HasEnum e ∧ (pool.enum e).file = f

def FieldOf (pool : Pool) (f : FileId) (d : FieldId) : Prop :=
  pool.HasField d ∧ pool.BlockOf f (pool.field d).block

theorem BlockAdded.blockOf_iff {B : Block} {k : Members → Members} (h : BlockAdded pool other B k)
    (hB : B.file = f) {b : BlockId} :
    other.BlockOf f b ↔ pool.BlockOf f b ∨ b = ⟨pool.blocks.size⟩ := by
  rw [BlockOf, h.blocks]
  constructor
  · rintro ⟨hb | rfl, hfile⟩
    · exact .inl ⟨hb, (h.block_file hb).symm.trans hfile⟩
    · exact .inr rfl
  · rintro (⟨hb, hfile⟩ | rfl)
    · exact ⟨.inl hb, (h.block_file hb).trans hfile⟩
    · exact ⟨.inr rfl, by rw [h.block_new, hB]⟩

theorem BlockAdded.fieldOf_iff {B : Block} {k : Members → Members} (h : BlockAdded pool other B k)
    (hw : pool.WellFormed) (hB : B.file = f) {d : FieldId} :
    other.FieldOf f d ↔ pool.FieldOf f d := by
  rw [FieldOf, FieldOf, h.fields, h.field, h.blockOf_iff hB]
  refine and_congr_right fun hd => or_iff_left fun e => ?_
  exact not_hasBlock_size (e ▸ hw.field_block d hd)

theorem BlockAdded.enumOf_iff {B : Block} {k : Members → Members} (h : BlockAdded pool other B k)
    {e : EnumId} : other.EnumOf f e ↔ pool.EnumOf f e := by
  rw [EnumOf, EnumOf, h.enums, h.enum]

theorem EnumAdded.enumOf_iff {E : EnumType} {k : Members → Members} (h : EnumAdded pool other E k)
    (hE : E.file = f) {e : EnumId} :
    other.EnumOf f e ↔ pool.EnumOf f e ∨ e = ⟨pool.enums.size⟩ := by
  rw [EnumOf, h.enums]
  constructor
  · rintro ⟨he | rfl, hfile⟩
    · exact .inl ⟨he, by rwa [h.enum e he] at hfile⟩
    · exact .inr rfl
  · rintro (⟨he, hfile⟩ | rfl)
    · exact ⟨.inl he, by rwa [h.enum e he]⟩
    · exact ⟨.inr rfl, by rw [h.enum_new, hE]⟩

theorem EnumAdded.blockOf_iff {E : EnumType} {k : Members → Members} (h : EnumAdded pool other E k)
    {b : BlockId} : other.BlockOf f b ↔ pool.BlockOf f b := by
  rw [BlockOf, BlockOf, h.blocks, h.block]

theorem EnumAdded.fieldOf_iff {E : EnumType} {k : Members → Members} (h : EnumAdded pool other E k)
    {d : FieldId} : other.FieldOf f d ↔ pool.FieldOf f d := by
  rw [FieldOf, FieldOf, h.fields, h.field, h.blockOf_iff]

theorem FieldAdded.blockOf_iff {F : Field} (h : FieldAdded pool other F) {b : BlockId} :
    other.BlockOf f b ↔ pool.BlockOf f b := by
  rw [BlockOf, BlockOf, h.blocks, h.block]

theorem FieldAdded.enumOf_iff {F : Field} (h : FieldAdded pool other F) {e : EnumId} :
    other.EnumOf f e ↔ pool.EnumOf f e := by
  rw [EnumOf, EnumOf, h.enums, h.enum]

theorem FieldAdded.fieldOf_iff {F : Field} (h : FieldAdded pool other F)
    (hF : pool.BlockOf f F.block) {d : FieldId} :
    other.FieldOf f d ↔ pool.FieldOf f d ∨ d = ⟨pool.fields.size⟩ := by
  rw [FieldOf, h.fields, h.blockOf_iff]
  constructor
  · rintro ⟨hd | rfl, hb⟩
    · exact .inl ⟨hd, by rwa [h.field d hd] at hb⟩
    · exact .inr rfl
  · rintro (⟨hd, hb⟩ | rfl)
    · exact ⟨.inl hd, by rwa [h.field d hd]⟩
    · exact ⟨.inr rfl, by rwa [h.field_new]⟩

/-! ### Changes to one file -/

/-- What is known of a pool after a change to the file `g`. -/
structure Touches (g : FileId) (pool other : Pool) : Prop where
  file : ∀ i, pool.HasFile i → other.HasFile i ∧ (other.file i).name = (pool.file i).name ∧
    (i ≠ g → other.file i = pool.file i)
  block : ∀ b, pool.HasBlock b → other.HasBlock b ∧ (pool.block b).Refines (other.block b) ∧
    ((pool.block b).file ≠ g → other.block b = pool.block b)
  enum : ∀ e, pool.HasEnum e → other.HasEnum e ∧ (pool.enum e).Refines (other.enum e) ∧
    ((pool.enum e).file ≠ g → other.enum e = pool.enum e)
  field : ∀ d, pool.HasField d → other.HasField d ∧ (pool.field d).Refines (other.field d) ∧
    ((pool.block (pool.field d).block).file ≠ g → other.field d = pool.field d)
  newBlock : ∀ b, other.HasBlock b → pool.HasBlock b ∨ (other.block b).file = g
  newEnum : ∀ e, other.HasEnum e → pool.HasEnum e ∨ (other.enum e).file = g
  newField : ∀ d, other.HasField d → pool.HasField d ∨ other.BlockOf g (other.field d).block

/-- The file `f` and its declarations are the same in two pools. -/
structure Kept (f : FileId) (pool other : Pool) : Prop where
  file : other.file f = pool.file f
  blocks : ∀ b, other.BlockOf f b ↔ pool.BlockOf f b
  enums : ∀ e, other.EnumOf f e ↔ pool.EnumOf f e
  fields : ∀ d, other.FieldOf f d ↔ pool.FieldOf f d
  block : ∀ b, pool.BlockOf f b → other.block b = pool.block b
  enum : ∀ e, pool.EnumOf f e → other.enum e = pool.enum e
  field : ∀ d, pool.FieldOf f d → other.field d = pool.field d

theorem Kept.refl (f : FileId) (pool : Pool) : Kept f pool pool :=
  ⟨rfl, fun _ => .rfl, fun _ => .rfl, fun _ => .rfl, fun _ _ => rfl, fun _ _ => rfl, fun _ _ => rfl⟩

theorem Kept.trans (h : Kept f pool other) (h' : Kept f other third) : Kept f pool third where
  file := h'.file.trans h.file
  blocks b := (h'.blocks b).trans (h.blocks b)
  enums e := (h'.enums e).trans (h.enums e)
  fields d := (h'.fields d).trans (h.fields d)
  block b hb := (h'.block b ((h.blocks b).mpr hb)).trans (h.block b hb)
  enum e he := (h'.enum e ((h.enums e).mpr he)).trans (h.enum e he)
  field d hd := (h'.field d ((h.fields d).mpr hd)).trans (h.field d hd)

namespace Touches

protected theorem refl (g : FileId) (pool : Pool) : Touches g pool pool :=
  ⟨fun _ h => ⟨h, rfl, fun _ => rfl⟩, fun _ h => ⟨h, .refl _, fun _ => rfl⟩,
    fun _ h => ⟨h, .refl _, fun _ => rfl⟩, fun _ h => ⟨h, .refl _, fun _ => rfl⟩,
    fun _ h => .inl h, fun _ h => .inl h, fun _ h => .inl h⟩

theorem blockOf (h : Touches g pool other) {b : BlockId} (hb : pool.BlockOf f b) :
    other.BlockOf f b :=
  ⟨(h.block b hb.1).1, (h.block b hb.1).2.1.file.trans hb.2⟩

theorem enumOf (h : Touches g pool other) {e : EnumId} (he : pool.EnumOf f e) : other.EnumOf f e :=
  ⟨(h.enum e he.1).1, (h.enum e he.1).2.1.file.trans he.2⟩

theorem field_block (h : Touches g pool other) {d : FieldId} (hd : pool.HasField d) :
    (other.field d).block = (pool.field d).block := by
  rw [(h.field d hd).2.1.same]

theorem fieldOf (h : Touches g pool other) {d : FieldId} (hd : pool.FieldOf f d) :
    other.FieldOf f d := by
  refine ⟨(h.field d hd.1).1, ?_⟩
  rw [h.field_block hd.1]
  exact h.blockOf hd.2

theorem kept (h : Touches g pool other) (hw : pool.WellFormed) (hf : pool.HasFile f)
    (hne : f ≠ g) : Kept f pool other where
  file := (h.file f hf).2.2 hne
  blocks b := by
    refine ⟨fun hb => ?_, h.blockOf⟩
    rcases h.newBlock b hb.1 with ho | hg
    · exact ⟨ho, (h.block b ho).2.1.file.symm.trans hb.2⟩
    · exact absurd (hb.2.symm.trans hg) hne
  enums e := by
    refine ⟨fun he => ?_, h.enumOf⟩
    rcases h.newEnum e he.1 with ho | hg
    · exact ⟨ho, (h.enum e ho).2.1.file.symm.trans he.2⟩
    · exact absurd (he.2.symm.trans hg) hne
  fields d := by
    refine ⟨fun hd => ?_, h.fieldOf⟩
    rcases h.newField d hd.1 with ho | hg
    · have hb := hw.field_block d ho
      have hfile := hd.2.2
      rw [h.field_block ho, (h.block _ hb).2.1.file] at hfile
      exact ⟨ho, hb, hfile⟩
    · exact absurd (hd.2.2.symm.trans hg.2) hne
  block b hb := (h.block b hb.1).2.2 (hb.2 ▸ hne)
  enum e he := (h.enum e he.1).2.2 (he.2 ▸ hne)
  field d hd := (h.field d hd.1).2.2 (hd.2.2 ▸ hne)

protected theorem trans (hw : pool.WellFormed) (h : Touches g pool other)
    (h' : Touches g other third) : Touches g pool third where
  file i hi := by
    obtain ⟨h₁, h₂, h₃⟩ := h.file i hi
    obtain ⟨k₁, k₂, k₃⟩ := h'.file i h₁
    exact ⟨k₁, k₂.trans h₂, fun hne => (k₃ hne).trans (h₃ hne)⟩
  block b hb := by
    obtain ⟨h₁, h₂, h₃⟩ := h.block b hb
    obtain ⟨k₁, k₂, k₃⟩ := h'.block b h₁
    exact ⟨k₁, h₂.trans k₂, fun hne => (k₃ (h₂.file ▸ hne)).trans (h₃ hne)⟩
  enum e he := by
    obtain ⟨h₁, h₂, h₃⟩ := h.enum e he
    obtain ⟨k₁, k₂, k₃⟩ := h'.enum e h₁
    exact ⟨k₁, h₂.trans k₂, fun hne => (k₃ (h₂.file ▸ hne)).trans (h₃ hne)⟩
  field d hd := by
    obtain ⟨h₁, h₂, h₃⟩ := h.field d hd
    obtain ⟨k₁, k₂, k₃⟩ := h'.field d h₁
    refine ⟨k₁, h₂.trans k₂, fun hne => (k₃ ?_).trans (h₃ hne)⟩
    rw [h.field_block hd, (h.block _ (hw.field_block d hd)).2.1.file]
    exact hne
  newBlock b hb := by
    rcases h'.newBlock b hb with ho | hg
    · refine (h.newBlock b ho).imp_right fun hg => ?_
      rw [(h'.block b ho).2.1.file, hg]
    · exact .inr hg
  newEnum e he := by
    rcases h'.newEnum e he with ho | hg
    · refine (h.newEnum e ho).imp_right fun hg => ?_
      rw [(h'.enum e ho).2.1.file, hg]
    · exact .inr hg
  newField d hd := by
    rcases h'.newField d hd with ho | hg
    · refine (h.newField d ho).imp_right fun hg => ?_
      rw [h'.field_block ho]
      exact h'.blockOf hg
    · exact .inr hg

/-! ### Changes in place -/

theorem modifyFile (k : File → File) (hk : ∀ x, (k x).name = x.name) :
    Touches g pool (pool.modifyFile g k) where
  file i hi := by
    rw [file_modifyFile, hasFile_modifyFile]
    refine ⟨hi, ?_, fun hne => if_neg fun h => hne h.1.symm⟩
    split
    · exact hk _
    · rfl
  block b hb := ⟨hb, .refl _, fun _ => rfl⟩
  enum e he := ⟨he, .refl _, fun _ => rfl⟩
  field d hd := ⟨hd, .refl _, fun _ => rfl⟩
  newBlock b hb := .inl hb
  newEnum e he := .inl he
  newField d hd := .inl hd

theorem modifyBlock {b : BlockId} (hb : pool.HasBlock b → (pool.block b).file = g)
    (k : Block → Block) (hk : ∀ x, Block.Refines x (k x)) :
    Touches g pool (pool.modifyBlock b k) where
  file i hi := ⟨hi, rfl, fun _ => rfl⟩
  block i hi := by
    rw [block_modifyBlock, hasBlock_modifyBlock]
    refine ⟨hi, ?_, fun hne => if_neg ?_⟩
    · split
      · exact hk _
      · exact .refl _
    · rintro ⟨rfl, -⟩
      exact hne (hb hi)
  enum e he := ⟨he, .refl _, fun _ => rfl⟩
  field d hd := ⟨hd, .refl _, fun _ => rfl⟩
  newBlock i hi := .inl (by rwa [hasBlock_modifyBlock] at hi)
  newEnum e he := .inl he
  newField d hd := .inl hd

theorem modifyEnum {e : EnumId} (he : pool.HasEnum e → (pool.enum e).file = g)
    (k : EnumType → EnumType) (hk : ∀ x, EnumType.Refines x (k x)) :
    Touches g pool (pool.modifyEnum e k) where
  file i hi := ⟨hi, rfl, fun _ => rfl⟩
  block b hb := ⟨hb, .refl _, fun _ => rfl⟩
  enum i hi := by
    rw [enum_modifyEnum, hasEnum_modifyEnum]
    refine ⟨hi, ?_, fun hne => if_neg ?_⟩
    · split
      · exact hk _
      · exact .refl _
    · rintro ⟨rfl, -⟩
      exact hne (he hi)
  field d hd := ⟨hd, .refl _, fun _ => rfl⟩
  newBlock b hb := .inl hb
  newEnum i hi := .inl (by rwa [hasEnum_modifyEnum] at hi)
  newField d hd := .inl hd

theorem modifyField {d : FieldId}
    (hd : pool.HasField d → (pool.block (pool.field d).block).file = g)
    (k : Field → Field) (hk : ∀ x, Field.Refines x (k x)) :
    Touches g pool (pool.modifyField d k) where
  file i hi := ⟨hi, rfl, fun _ => rfl⟩
  block b hb := ⟨hb, .refl _, fun _ => rfl⟩
  enum e he := ⟨he, .refl _, fun _ => rfl⟩
  field i hi := by
    rw [field_modifyField, hasField_modifyField]
    refine ⟨hi, ?_, fun hne => if_neg ?_⟩
    · split
      · exact hk _
      · exact .refl _
    · rintro ⟨rfl, -⟩
      exact hne (hd hi)
  newBlock b hb := .inl hb
  newEnum e he := .inl he
  newField i hi := .inl (by rwa [hasField_modifyField] at hi)

theorem setExtensions (extensions : Table (BlockId × Nat) FieldId) :
    Touches g pool { pool with extensions } :=
  ⟨fun _ h => ⟨h, rfl, fun _ => rfl⟩, fun _ h => ⟨h, .refl _, fun _ => rfl⟩,
    fun _ h => ⟨h, .refl _, fun _ => rfl⟩, fun _ h => ⟨h, .refl _, fun _ => rfl⟩,
    fun _ h => .inl h, fun _ h => .inl h, fun _ h => .inl h⟩

/-! ### New declarations -/

theorem of_blockAdded {B : Block} {k : Members → Members} (h : BlockAdded pool other B k)
    (hB : B.file = g) (hp : pool.scopeFile B.parent = g) : Touches g pool other where
  file i hi := by
    rw [h.files, h.file]
    refine ⟨hi, rfl, fun hne => ?_⟩
    have : .file i ≠ B.parent := by
      intro e
      rw [← e] at hp
      exact hne hp
    rw [h.members, if_neg this]
    rfl
  block b hb := by
    rw [h.blocks, h.block b hb]
    refine ⟨.inl hb, ⟨rfl, rfl, rfl, .inl rfl, fun _ h => h⟩, fun hne => ?_⟩
    have : .block b ≠ B.parent := by
      intro e
      rw [← e] at hp
      exact hne hp
    rw [h.members, if_neg this]
    rfl
  enum e he := by
    rw [h.enums, h.enum]
    exact ⟨he, .refl _, fun _ => rfl⟩
  field d hd := by
    rw [h.fields, h.field]
    exact ⟨hd, .refl _, fun _ => rfl⟩
  newBlock b hb := by
    rcases (h.blocks b).mp hb with ho | rfl
    · exact .inl ho
    · exact .inr (by rw [h.block_new, hB])
  newEnum e he := .inl (h.enums ▸ he)
  newField d hd := .inl (h.fields ▸ hd)

theorem of_enumAdded {E : EnumType} {k : Members → Members} (h : EnumAdded pool other E k)
    (hE : E.file = g) (hp : pool.scopeFile E.parent = g) : Touches g pool other where
  file i hi := by
    rw [h.files, h.file]
    refine ⟨hi, rfl, fun hne => ?_⟩
    have : .file i ≠ E.parent := by
      intro e
      rw [← e] at hp
      exact hne hp
    rw [h.members, if_neg this]
    rfl
  block b hb := by
    rw [h.blocks, h.block b]
    refine ⟨hb, ⟨rfl, rfl, rfl, .inl rfl, fun _ h => h⟩, fun hne => ?_⟩
    have : .block b ≠ E.parent := by
      intro e
      rw [← e] at hp
      exact hne hp
    rw [h.members, if_neg this]
    rfl
  enum e he := by
    rw [h.enums, h.enum e he]
    exact ⟨.inl he, .refl _, fun _ => rfl⟩
  field d hd := by
    rw [h.fields, h.field]
    exact ⟨hd, .refl _, fun _ => rfl⟩
  newBlock b hb := .inl (h.blocks ▸ hb)
  newEnum e he := by
    rcases (h.enums e).mp he with ho | rfl
    · exact .inl ho
    · exact .inr (by rw [h.enum_new, hE])
  newField d hd := .inl (h.fields ▸ hd)

theorem of_fieldAdded {F : Field} (h : FieldAdded pool other F) (hb : pool.BlockOf g F.block) :
    Touches g pool other where
  file i hi := by
    rw [h.files, h.file]
    exact ⟨hi, rfl, fun _ => rfl⟩
  block b hb' := by
    rw [h.blocks]
    refine ⟨hb', by rw [h.block]; exact ⟨rfl, rfl, rfl, .inl rfl, fun _ h => h⟩, fun hne => ?_⟩
    have hbb : b ≠ F.block := by
      rintro rfl
      exact hne hb.2
    rw [h.block, h.block_fields, if_neg hbb]
  enum e he := by
    rw [h.enums, h.enum]
    exact ⟨he, .refl _, fun _ => rfl⟩
  field d hd := by
    rw [h.fields, h.field d hd]
    exact ⟨.inl hd, .refl _, fun _ => rfl⟩
  newBlock b hb := .inl (h.blocks ▸ hb)
  newEnum e he := .inl (h.enums ▸ he)
  newField d hd := by
    rcases (h.fields d).mp hd with ho | rfl
    · exact .inl ho
    · refine .inr ?_
      rw [h.field_new, BlockOf, h.blocks, h.block]
      exact hb

theorem of_fileAdded {name : String} {path : Option String} (h : FileAdded pool other name path) :
    Touches g pool other where
  file i hi := by
    have : i ≠ ⟨pool.files.size⟩ := by
      rintro rfl
      exact not_hasFile_size hi
    rw [h.files, h.file i this]
    exact ⟨.inl hi, rfl, fun _ => rfl⟩
  block b hb := by
    rw [h.hasBlock, h.block]
    exact ⟨hb, .refl _, fun _ => rfl⟩
  enum e he := by
    rw [h.hasEnum, h.enum]
    exact ⟨he, .refl _, fun _ => rfl⟩
  field d hd := by
    rw [h.hasField, h.field]
    exact ⟨hd, .refl _, fun _ => rfl⟩
  newBlock b hb := .inl (h.hasBlock ▸ hb)
  newEnum e he := .inl (h.hasEnum ▸ he)
  newField d hd := .inl (h.hasField ▸ hd)

end Touches

/-! ### Packages -/

/-- Only what is declared in the file itself is named after its package. -/
theorem scopeName_setPackage {i : FileId} {s : Scope} (name : Option (Located DottedName))
    (hs : s ≠ .file i) :
    (pool.modifyFile i fun f => { f with package := name }).scopeName s = pool.scopeName s := by
  cases s with
  | file j =>
    simp only [scopeName, file_modifyFile]
    rw [if_neg fun (h : i = j ∧ _) => hs (by rw [h.1])]
  | block b => rfl

theorem members_setPackage (pool : Pool) (i : FileId) (name : Option (Located DottedName)) :
    (pool.modifyFile i fun f => { f with package := name }).members = pool.members := by
  funext s
  cases s with
  | file j =>
    simp only [members, file_modifyFile]
    split <;> rfl
  | block b => rfl

theorem hasScope_setPackage {i : FileId} {s : Scope} {name : Option (Located DottedName)} :
    (pool.modifyFile i fun f => { f with package := name }).HasScope s ↔ pool.HasScope s := by
  cases s with
  | file j => simp [HasScope]
  | block b => rfl

theorem scopeFile_modifyFile {i : FileId} {k : File → File} {s : Scope} :
    (pool.modifyFile i k).scopeFile s = pool.scopeFile s := by
  cases s <;> rfl

/-- A file without declarations may be given a package. -/
theorem WellFormed.setPackage (hw : pool.WellFormed) {i : FileId}
    (hb : ∀ b, ¬pool.BlockOf i b) (he : ∀ e, ¬pool.EnumOf i e) (name : Option (Located DottedName)) :
    (pool.modifyFile i fun f => { f with package := name }).WellFormed := by
  -- no declaration stands in the file, so none of their names change
  have hblock : ∀ b, pool.HasBlock b → (pool.block b).parent ≠ .file i := by
    intro b hb' hp
    have := (hw.block_scope b hb').2
    rw [hp] at this
    exact hb b ⟨hb', this.symm⟩
  have henum : ∀ e, pool.HasEnum e → (pool.enum e).parent ≠ .file i := by
    intro e he' hp
    have := (hw.enum_scope e he').2
    rw [hp] at this
    exact he e ⟨he', this.symm⟩
  exact
    { block_scope := fun b hb' => by
        rw [hasScope_setPackage, scopeFile_modifyFile]
        exact hw.block_scope b hb'
      block_later := hw.block_later
      enum_scope := fun e he' => by
        rw [hasScope_setPackage, scopeFile_modifyFile]
        exact hw.enum_scope e he'
      field_block := hw.field_block
      message_iff := fun s n b => by
        rw [members_setPackage]
        refine (hw.message_iff s n b).trans (and_congr_right fun hb' => and_congr_right fun hp => ?_)
        rw [scopeName_setPackage name (hp ▸ hblock b hb')]
        rfl
      message_name := fun b N hb' hN => by
        obtain ⟨n, hn⟩ := hw.message_name b N hb' hN
        exact ⟨n, by rw [block_modifyFile, scopeName_setPackage name (hblock b hb'), hn]⟩
      enum_iff := fun s n e => by
        rw [members_setPackage]
        refine (hw.enum_iff s n e).trans (and_congr_right fun he' => and_congr_right fun hp => ?_)
        rw [scopeName_setPackage name (hp ▸ henum e he')]
        rfl
      enum_name := fun e he' => by
        obtain ⟨n, hn⟩ := hw.enum_name e he'
        exact ⟨n, by rw [enum_modifyFile, scopeName_setPackage name (henum e he'), hn]⟩
      extend_iff := fun s b => by
        rw [members_setPackage]
        exact hw.extend_iff s b
      extend_nodup := by
        rw [members_setPackage]
        exact hw.extend_nodup
      field_iff := hw.field_iff
      message_enum := by
        rw [members_setPackage]
        exact hw.message_enum
      field_field := hw.field_field
      field_member := by
        rw [members_setPackage]
        exact hw.field_member }

end Pool

end ProtoSchema
