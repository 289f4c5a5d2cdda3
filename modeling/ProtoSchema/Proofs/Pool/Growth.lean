import ProtoSchema.Proofs.Pool.Tree

/-! # The tree grows

Adding a message, an extend block, an enum, a field or a file to a well-formed pool keeps it
well-formed.  For each kind a structure says what is read from the new pool (`BlockAdded`,
`EnumAdded`, `FieldAdded`, `FileAdded`); nothing else about the operations is used. -/

namespace ProtoSchema.Pool

variable {pool : Pool}

/-! ### A declaration behind the others -/

theorem block_push (B : Block) (j : BlockId) :
    ({ pool with blocks := pool.blocks.push B } : Pool).block j =
      if j = ⟨pool.blocks.size⟩ then B else pool.block j := by
  obtain ⟨j⟩ := j
  simp [block, getD_push]

theorem hasBlock_push (B : Block) (j : BlockId) :
    ({ pool with blocks := pool.blocks.push B } : Pool).HasBlock j ↔
      pool.HasBlock j ∨ j = ⟨pool.blocks.size⟩ := by
  obtain ⟨j⟩ := j
  simp only [HasBlock, Array.size_push, BlockId.mk.injEq]
  omega

theorem not_hasBlock_size : ¬pool.HasBlock ⟨pool.blocks.size⟩ := Nat.lt_irrefl _

theorem members_of_not_inRange {s : Scope} (h : ¬pool.InRange s) : pool.members s = {} := by
  cases s with
  | file id => rw [members, file_of_not_hasFile h]; rfl
  | block id => rw [members, block_of_not_hasBlock h]; rfl

theorem HasScope.inRange {s : Scope} (h : pool.HasScope s) : pool.InRange s := by
  cases s with
  | file id => exact h
  | block id => exact h.1

/-- What is read from a pool after the block `B` was put behind the others and into its scope. -/
structure BlockAdded (pool other : Pool) (B : Block) (f : Members → Members) : Prop where
  files : other.HasFile = pool.HasFile
  blocks : ∀ b, other.HasBlock b ↔ pool.HasBlock b ∨ b = ⟨pool.blocks.size⟩
  enums : other.HasEnum = pool.HasEnum
  fields : other.HasField = pool.HasField
  enum : other.enum = pool.enum
  field : other.field = pool.field
  file : ∀ i, other.file i = { pool.file i with members := other.members (.file i) }
  block : ∀ b, pool.HasBlock b →
    other.block b = { pool.block b with members := other.members (.block b) }
  block_new : other.block ⟨pool.blocks.size⟩ = B
  members : ∀ s, other.members s = if s = B.parent then f (pool.members s) else pool.members s

theorem blockAdded (B : Block) (f : Members → Members) (hm : B.members = {})
    (hs : pool.HasScope B.parent) :
    BlockAdded pool (({ pool with blocks := pool.blocks.push B } : Pool).modifyMembers B.parent f)
      B f := by
  have hne : B.parent ≠ .block ⟨pool.blocks.size⟩ := by
    intro e
    have := hs.inRange
    rw [e] at this
    exact not_hasBlock_size this
  have hmem : ∀ s, ({ pool with blocks := pool.blocks.push B } : Pool).members s =
      pool.members s := by
    intro s
    cases s with
    | file i => rfl
    | block b =>
      by_cases h : b = ⟨pool.blocks.size⟩
      · subst h
        rw [members_of_not_inRange (s := .block ⟨pool.blocks.size⟩) not_hasBlock_size, ← hm]
        simp [members, block_push]
      · simp [members, block_push, h]
  have hin : ({ pool with blocks := pool.blocks.push B } : Pool).InRange B.parent := by
    have := hs.inRange
    cases hp : B.parent with
    | file i => rw [hp] at this; exact this
    | block b => rw [hp] at this; exact (hasBlock_push B b).mpr (.inl this)
  have hmem' : ∀ s, (({ pool with blocks := pool.blocks.push B } : Pool).modifyMembers B.parent f).members s =
      if s = B.parent then f (pool.members s) else pool.members s := by
    intro s
    rw [members_modifyMembers, hmem]
    by_cases h : s = B.parent
    · subst h; simp [hin]
    · simp [h, Ne.symm h]
  refine ⟨?_, ?_, ?_, ?_, ?_, ?_, ?_, ?_, ?_, hmem'⟩
  · simp only [hasFile_modifyMembers]; rfl
  · intro b; rw [hasBlock_modifyMembers]; exact hasBlock_push B b
  · simp only [hasEnum_modifyMembers]; rfl
  · simp only [hasField_modifyMembers]; rfl
  · rw [enum_modifyMembers]; rfl
  · rw [field_modifyMembers]; rfl
  · intro i
    rw [members, file_modifyMembers]
    rfl
  · intro b hb
    have : b ≠ ⟨pool.blocks.size⟩ := by
      rintro rfl
      exact not_hasBlock_size hb
    rw [members, block_modifyMembers, block_push, if_neg this]
  · rw [block_modifyMembers, block_push, if_pos rfl, if_neg (fun h => hne h.1)]

namespace BlockAdded

variable {other : Pool} {B : Block} {f : Members → Members}

section blocks

variable (h : BlockAdded pool other B f) {b : BlockId} (hb : pool.HasBlock b)
include h hb

theorem block_heading : (other.block b).heading = (pool.block b).heading := by
  rw [h.block b hb]

theorem block_file : (other.block b).file = (pool.block b).file := by
  rw [h.block b hb]

theorem block_parent : (other.block b).parent = (pool.block b).parent := by
  rw [h.block b hb]

theorem block_span : (other.block b).span = (pool.block b).span := by
  rw [h.block b hb]

theorem block_fields : (other.block b).fields = (pool.block b).fields := by
  rw [h.block b hb]

theorem isExtend : (other.block b).isExtend = (pool.block b).isExtend := by
  rw [Block.isExtend, h.block_heading hb, Block.isExtend]

end blocks

/-- Scopes that were there keep their names. -/
theorem scopeName (h : BlockAdded pool other B f) {s : Scope} (hs : pool.InRange s) :
    other.scopeName s = pool.scopeName s := by
  cases s with
  | file i => simp only [Pool.scopeName]; rw [h.file]; rfl
  | block b => simp only [Pool.scopeName]; rw [h.block b hs]; rfl

theorem scopeFile (h : BlockAdded pool other B f) {s : Scope} (hs : pool.InRange s) :
    other.scopeFile s = pool.scopeFile s := by
  cases s with
  | file i => rfl
  | block b => exact h.block_file hs

theorem hasScope (h : BlockAdded pool other B f) {s : Scope} (hs : pool.HasScope s) :
    other.HasScope s := by
  cases s with
  | file i => simpa [HasScope, h.files] using hs
  | block b => exact ⟨(h.blocks b).mpr (.inl hs.1), (h.isExtend hs.1).trans hs.2⟩

end BlockAdded

/-- The declarations `m` of a scope with the name `scope` become `m'` when the block `B` is entered. -/
structure Enters (B : Block) (id : BlockId) (scope : DottedName) (m m' : Members) : Prop where
  messages : ∀ n b, m'.messages.find? n = some b ↔
    m.messages.find? n = some b ∨ b = id ∧ B.heading = .message (scope ++ [n])
  enums : m'.enums = m.enums
  extendBlocks : m'.extendBlocks = m.extendBlocks ++ if B.isExtend then [id] else []

namespace BlockAdded

variable {other : Pool} {B : Block} {f : Members → Members} {s : Scope}
  (h : BlockAdded pool other B f)
  (hf : Enters B ⟨pool.blocks.size⟩ (pool.scopeName B.parent) (pool.members B.parent)
    (f (pool.members B.parent)))
include h hf

theorem enums_eq (s : Scope) :
    (other.members s).enums = (pool.members s).enums := by
  rw [h.members]
  split
  · next hs => rw [hs, hf.enums]
  · rfl

theorem find?_messages {n : String} {b : BlockId} :
    (other.members s).messages.find? n = some b ↔ (pool.members s).messages.find? n = some b ∨
      B.parent = s ∧ b = ⟨pool.blocks.size⟩ ∧ B.heading = .message (pool.scopeName s ++ [n]) := by
  rw [h.members]
  by_cases hs : s = B.parent
  · subst hs
    rw [if_pos rfl, hf.messages, eq_self, true_and]
  · rw [if_neg hs, or_iff_left fun hx => hs hx.1.symm]

theorem mem_extendBlocks {b : BlockId} :
    b ∈ (other.members s).extendBlocks ↔ b ∈ (pool.members s).extendBlocks ∨
      B.parent = s ∧ b = ⟨pool.blocks.size⟩ ∧ B.isExtend = true := by
  rw [h.members]
  by_cases hs : s = B.parent
  · subst hs
    rw [if_pos rfl, hf.extendBlocks, List.mem_append]
    split
    · next hx => simp [hx]
    · next hx => simp [hx]
  · rw [if_neg hs, or_iff_left fun hx => hs hx.1.symm]

end BlockAdded

/-- A block in its scope keeps the tree well-formed if it is entered there as what it is. -/
theorem WellFormed.of_blockAdded {other : Pool} {B : Block} {f : Members → Members}
    (hw : pool.WellFormed) (h : BlockAdded pool other B f) (hs : pool.HasScope B.parent)
    (hfile : pool.scopeFile B.parent = B.file) (hfields : B.fields = {})
    (hname : ∀ name, B.heading = .message name → ∃ n, name = pool.scopeName B.parent ++ [n])
    (hf : Enters B ⟨pool.blocks.size⟩ (pool.scopeName B.parent) (pool.members B.parent)
      (f (pool.members B.parent)))
    (hfree : ∀ n, B.heading = .message (pool.scopeName B.parent ++ [n]) →
      (pool.members B.parent).enums.find? n = none ∧
      ∀ d, pool.HasField d → .block (pool.field d).block = B.parent → (pool.field d).name.value ≠ n) :
    other.WellFormed where
  block_scope b hb := by
    rcases (h.blocks b).mp hb with hb | rfl
    · have := hw.block_scope b hb
      rw [h.block_file hb, h.block_parent hb]
      exact ⟨h.hasScope this.1, (h.scopeFile this.1.inRange).trans this.2⟩
    · rw [h.block_new]
      exact ⟨h.hasScope hs, (h.scopeFile hs.inRange).trans hfile⟩
  block_later b p hb hp := by
    rcases (h.blocks b).mp hb with hb | rfl
    · rw [h.block_parent hb] at hp
      exact hw.block_later b p hb hp
    · rw [h.block_new] at hp
      rw [hp] at hs
      exact hs.1
  enum_scope e he := by
    rw [h.enums] at he
    have := hw.enum_scope e he
    rw [h.enum]
    exact ⟨h.hasScope this.1, (h.scopeFile this.1.inRange).trans this.2⟩
  field_block d hd := by
    rw [h.fields] at hd
    rw [h.field]
    exact (h.blocks _).mpr (.inl (hw.field_block d hd))
  message_iff s n b := by
    rw [h.find?_messages hf, h.blocks, hw.message_iff]
    constructor
    · rintro (⟨hb, rfl, hn⟩ | ⟨rfl, rfl, hn⟩)
      · rw [h.block_heading hb, h.block_parent hb,
          h.scopeName (hw.block_scope b hb).1.inRange]
        exact ⟨.inl hb, rfl, hn⟩
      · rw [h.block_new, h.scopeName hs.inRange]
        exact ⟨.inr rfl, rfl, hn⟩
    · rintro ⟨hb | rfl, rfl, hn⟩
      · rw [h.block_heading hb, h.block_parent hb,
          h.scopeName (hw.block_scope b hb).1.inRange] at hn
        exact .inl ⟨hb, (h.block_parent hb).symm, h.block_parent hb ▸ hn⟩
      · rw [h.block_new, h.scopeName hs.inRange] at hn
        rw [h.block_new]
        exact .inr ⟨rfl, rfl, hn⟩
  message_name b name hb hn := by
    rcases (h.blocks b).mp hb with hb | rfl
    · rw [h.block_heading hb] at hn
      rw [h.block_parent hb, h.scopeName (hw.block_scope b hb).1.inRange]
      exact hw.message_name b name hb hn
    · rw [h.block_new] at hn ⊢
      rw [h.scopeName hs.inRange]
      exact hname name hn
  enum_iff s n e := by
    rw [h.enums_eq hf, hw.enum_iff, h.enums, h.enum]
    refine and_congr_right fun he => and_congr_right fun hp => ?_
    rw [h.scopeName (hp ▸ (hw.enum_scope e he).1.inRange)]
  enum_name e he := by
    rw [h.enums] at he
    rw [h.enum, h.scopeName (hw.enum_scope e he).1.inRange]
    exact hw.enum_name e he
  extend_iff s b := by
    rw [h.mem_extendBlocks hf, h.blocks, hw.extend_iff]
    constructor
    · rintro (⟨hb, hp, hx⟩ | ⟨hp, rfl, hx⟩)
      · exact ⟨.inl hb, (h.block_parent hb).trans hp, (h.isExtend hb).trans hx⟩
      · rw [h.block_new]
        exact ⟨.inr rfl, hp, hx⟩
    · rintro ⟨hb | rfl, hp, hx⟩
      · exact .inl ⟨hb, (h.block_parent hb).symm.trans hp, (h.isExtend hb).symm.trans hx⟩
      · rw [h.block_new] at hp hx
        exact .inr ⟨hp, rfl, hx⟩
  extend_nodup s := by
    have hnew : ⟨pool.blocks.size⟩ ∉ (pool.members s).extendBlocks := fun hm =>
      not_hasBlock_size ((hw.extend_iff _ _).mp hm).1
    rw [h.members]
    split
    · next hs =>
      subst hs
      rw [hf.extendBlocks, List.nodup_append]
      refine ⟨hw.extend_nodup _, by split <;> simp, ?_⟩
      rintro x hx y hy rfl
      split at hy
      · exact hnew (List.mem_singleton.mp hy ▸ hx)
      · cases hy
    · exact hw.extend_nodup s
  field_iff b n d := by
    rw [h.fields, h.field, ← hw.field_iff]
    by_cases hb : pool.HasBlock b
    · rw [h.block_fields hb]
    · rw [block_of_not_hasBlock hb]
      by_cases hb' : b = ⟨pool.blocks.size⟩
      · rw [hb', h.block_new, hfields]
        rfl
      · rw [block_of_not_hasBlock fun hx => ((h.blocks b).mp hx).elim hb hb']
  message_enum s n := by
    rw [h.enums_eq hf]
    by_cases henum : (pool.members s).enums.find? n = none
    · exact .inr henum
    · refine .inl (Option.eq_none_iff_forall_ne_some.mpr fun b hb => ?_)
      rcases (h.find?_messages hf).mp hb with hb | ⟨rfl, -, hn⟩
      · rw [(hw.message_enum s n).resolve_right henum] at hb
        cases hb
      · exact henum (hfree n hn).1
  field_field := by
    rw [h.fields, h.field]
    exact hw.field_field
  field_member d hd := by
    rw [h.fields] at hd
    rw [h.field, h.enums_eq hf, Option.eq_none_iff_forall_ne_some]
    refine ⟨fun b hb => ?_, (hw.field_member d hd).2⟩
    rcases (h.find?_messages hf).mp hb with hb | ⟨hp, -, hn⟩
    · rw [(hw.field_member d hd).1] at hb
      cases hb
    · exact (hfree _ (hp ▸ hn)).2 d hd hp.symm rfl

/-! ### Messages and extend blocks -/

/-- A name is free in a scope if no message, enum or field of the scope has it. -/
theorem placeOf?_eq_none_iff {s : Scope} {n : String} : pool.placeOf? s n = none ↔
    (pool.members s).messages.find? n = none ∧ (pool.members s).enums.find? n = none ∧
      ∀ b, s = .block b → ∀ d ∈ (pool.block b).fields.values, (pool.field d).name.value ≠ n := by
  unfold placeOf?
  cases s <;> simp [Option.or_eq_none_iff]

theorem checkName_eq_ok_iff {s : Scope} {name : Located String} :
    pool.checkName s name = .ok () ↔ pool.placeOf? s name.value = none := by
  unfold checkName
  cases pool.placeOf? s name.value <;> simp

/-- The block that `addMessage` adds. -/
def newMessage (pool : Pool) (file : FileId) (parent : Scope) (name : Located String) : Block :=
  { heading := .message (pool.scopeName parent ++ [name.value]), span := name.span, file, parent }

theorem addMessage_eq_ok {file : FileId} {parent : Scope} {name : Located String} {other : Pool}
    {id : BlockId} (h : pool.addMessage file parent name = .ok (other, id)) :
    pool.placeOf? parent name.value = none ∧ id = ⟨pool.blocks.size⟩ ∧
      other = ({ pool with blocks := pool.blocks.push (pool.newMessage file parent name) } :
        Pool).modifyMembers parent fun m =>
          { m with messages := m.messages.insert name.value ⟨pool.blocks.size⟩ } := by
  unfold addMessage at h
  split at h
  · cases h
  · next hc =>
    cases h
    exact ⟨checkName_eq_ok_iff.mp hc, rfl, rfl⟩

theorem WellFormed.field_name_ne (hw : pool.WellFormed) {s : Scope} {n : String}
    (h : pool.placeOf? s n = none) {d : FieldId} (hd : pool.HasField d)
    (hs : .block (pool.field d).block = s) : (pool.field d).name.value ≠ n :=
  (placeOf?_eq_none_iff.mp h).2.2 _ hs.symm d
    (Table.mem_values_iff.mpr ⟨_, (hw.field_iff _ _ _).mpr ⟨hd, rfl, rfl⟩⟩)

theorem blockAdded_addMessage {file : FileId} {parent : Scope} {name : Located String}
    {other : Pool} {id : BlockId} (h : pool.addMessage file parent name = .ok (other, id))
    (hs : pool.HasScope parent) :
    BlockAdded pool other (pool.newMessage file parent name)
      fun m => { m with messages := m.messages.insert name.value ⟨pool.blocks.size⟩ } := by
  obtain ⟨-, -, rfl⟩ := addMessage_eq_ok h
  exact blockAdded (pool.newMessage file parent name) _ rfl hs

theorem WellFormed.addMessage (hw : pool.WellFormed) {file : FileId} {parent : Scope}
    {name : Located String} {other : Pool} {id : BlockId}
    (h : pool.addMessage file parent name = .ok (other, id)) (hs : pool.HasScope parent)
    (hf : pool.scopeFile parent = file) : other.WellFormed := by
  obtain ⟨hp, -, -⟩ := addMessage_eq_ok h
  have hfree := placeOf?_eq_none_iff.mp hp
  refine hw.of_blockAdded (blockAdded_addMessage h hs) hs hf rfl ?_
    ⟨?_, rfl, by simp [newMessage, Block.isExtend]⟩ ?_
  · intro N hN
    simp only [newMessage, Heading.message.injEq] at hN
    exact ⟨name.value, hN.symm⟩
  · intro n b
    simp only [newMessage, Table.find?_insert, Heading.message.injEq, List.append_cancel_left_eq,
      List.cons.injEq, and_true]
    by_cases hn : n = name.value
    · subst hn
      simp [hfree.1, eq_comm]
    · simp [hn, Ne.symm hn]
  · intro n hn
    simp only [newMessage, Heading.message.injEq, List.append_cancel_left_eq, List.cons.injEq,
      and_true] at hn
    subst hn
    exact ⟨hfree.2.1, fun d hd hdp => hw.field_name_ne hp hd hdp⟩

/-- The block that `addExtend` adds. -/
def newExtend (file : FileId) (parent : Scope) (type : Located TypeName) (target : Option TypeId) :
    Block :=
  { heading := .extend type.value target, span := type.span, file, parent }

theorem blockAdded_addExtend (file : FileId) {parent : Scope} (type : Located TypeName)
    (target : Option TypeId) (hs : pool.HasScope parent) :
    BlockAdded pool (pool.addExtend file parent type target).1
      (newExtend file parent type target)
      fun m => { m with extendBlocks := m.extendBlocks ++ [⟨pool.blocks.size⟩] } :=
  blockAdded (newExtend file parent type target)
    (fun m => { m with extendBlocks := m.extendBlocks ++ [⟨pool.blocks.size⟩] }) rfl hs

theorem WellFormed.addExtend (hw : pool.WellFormed) {file : FileId} {parent : Scope}
    (type : Located TypeName) (target : Option TypeId) (hs : pool.HasScope parent)
    (hf : pool.scopeFile parent = file) :
    (pool.addExtend file parent type target).1.WellFormed := by
  refine hw.of_blockAdded (blockAdded_addExtend file type target hs) hs hf rfl ?_
    ⟨?_, rfl, by simp [newExtend, Block.isExtend]⟩ ?_
  · intro N hN
    simp [newExtend] at hN
  · simp [newExtend]
  · intro n hn
    simp [newExtend] at hn

/-! ### Enums -/

/-- What is read from a pool after the enum `E` was put behind the others and into its scope. -/
structure EnumAdded (pool other : Pool) (E : EnumType) (f : Members → Members) : Prop where
  files : other.HasFile = pool.HasFile
  blocks : other.HasBlock = pool.HasBlock
  enums : ∀ e, other.HasEnum e ↔ pool.HasEnum e ∨ e = ⟨pool.enums.size⟩
  fields : other.HasField = pool.HasField
  field : other.field = pool.field
  file : ∀ i, other.file i = { pool.file i with members := other.members (.file i) }
  block : ∀ b, other.block b = { pool.block b with members := other.members (.block b) }
  enum : ∀ e, pool.HasEnum e → other.enum e = pool.enum e
  enum_new : other.enum ⟨pool.enums.size⟩ = E
  members : ∀ s, other.members s = if s = E.parent then f (pool.members s) else pool.members s

theorem enum_push (E : EnumType) (j : EnumId) :
    ({ pool with enums := pool.enums.push E } : Pool).enum j =
      if j = ⟨pool.enums.size⟩ then E else pool.enum j := by
  obtain ⟨j⟩ := j
  simp [enum, getD_push]

theorem hasEnum_push (E : EnumType) (j : EnumId) :
    ({ pool with enums := pool.enums.push E } : Pool).HasEnum j ↔
      pool.HasEnum j ∨ j = ⟨pool.enums.size⟩ := by
  obtain ⟨j⟩ := j
  simp only [HasEnum, Array.size_push, EnumId.mk.injEq]
  omega

theorem not_hasEnum_size : ¬pool.HasEnum ⟨pool.enums.size⟩ := Nat.lt_irrefl _

theorem enumAdded (E : EnumType) (f : Members → Members) (hs : pool.HasScope E.parent) :
    EnumAdded pool (({ pool with enums := pool.enums.push E } : Pool).modifyMembers E.parent f)
      E f := by
  have hin : ({ pool with enums := pool.enums.push E } : Pool).InRange E.parent := by
    have := hs.inRange
    cases hp : E.parent with
    | file i => rw [hp] at this; exact this
    | block b => rw [hp] at this; exact this
  have hmem : ∀ s, (({ pool with enums := pool.enums.push E } : Pool).modifyMembers
      E.parent f).members s = if s = E.parent then f (pool.members s) else pool.members s := by
    intro s
    rw [members_modifyMembers]
    by_cases h : s = E.parent
    · subst h
      rw [if_pos ⟨rfl, hin⟩, if_pos rfl]
      rfl
    · rw [if_neg (fun hx => h hx.1.symm), if_neg h]
      rfl
  refine ⟨?_, ?_, ?_, ?_, ?_, ?_, ?_, ?_, ?_, hmem⟩
  · simp only [hasFile_modifyMembers]; rfl
  · simp only [hasBlock_modifyMembers]; rfl
  · intro e; rw [hasEnum_modifyMembers]; exact hasEnum_push E e
  · simp only [hasField_modifyMembers]; rfl
  · rw [field_modifyMembers]; rfl
  · intro i
    rw [members, file_modifyMembers]
    rfl
  · intro b
    rw [members, block_modifyMembers]
    rfl
  · intro e he
    have : e ≠ ⟨pool.enums.size⟩ := by
      rintro rfl
      exact not_hasEnum_size he
    rw [enum_modifyMembers, enum_push, if_neg this]
  · rw [enum_modifyMembers, enum_push, if_pos rfl]

namespace EnumAdded

variable {other : Pool} {E : EnumType} {f : Members → Members}

theorem scopeName (h : EnumAdded pool other E f) (s : Scope) :
    other.scopeName s = pool.scopeName s := by
  cases s with
  | file i => simp only [Pool.scopeName]; rw [h.file]; rfl
  | block b => simp only [Pool.scopeName]; rw [h.block]; rfl

theorem scopeFile (h : EnumAdded pool other E f) (s : Scope) :
    other.scopeFile s = pool.scopeFile s := by
  cases s with
  | file i => rfl
  | block b => simp only [Pool.scopeFile]; rw [h.block]

theorem hasScope (h : EnumAdded pool other E f) (s : Scope) :
    other.HasScope s ↔ pool.HasScope s := by
  cases s with
  | file i => simp [HasScope, h.files]
  | block b => simp only [HasScope, h.blocks]; rw [h.block]; rfl

section blocks

variable (h : EnumAdded pool other E f) (b : BlockId)
include h

theorem block_heading : (other.block b).heading = (pool.block b).heading := by
  rw [h.block b]

theorem block_file : (other.block b).file = (pool.block b).file := by
  rw [h.block b]

theorem block_parent : (other.block b).parent = (pool.block b).parent := by
  rw [h.block b]

theorem block_span : (other.block b).span = (pool.block b).span := by
  rw [h.block b]

theorem block_fields : (other.block b).fields = (pool.block b).fields := by
  rw [h.block b]

theorem isExtend : (other.block b).isExtend = (pool.block b).isExtend := by
  rw [Block.isExtend, h.block_heading, Block.isExtend]

end blocks

variable {n : String} (h : EnumAdded pool other E fun m =>
  { m with enums := m.enums.insert n ⟨pool.enums.size⟩ })
include h

theorem messages_eq (s : Scope) : (other.members s).messages = (pool.members s).messages := by
  rw [h.members]
  split <;> rfl

theorem extendBlocks_eq (s : Scope) :
    (other.members s).extendBlocks = (pool.members s).extendBlocks := by
  rw [h.members]
  split <;> rfl

theorem find?_enums (hfree : pool.placeOf? E.parent n = none) {s : Scope} {m : String} {e : EnumId} :
    (other.members s).enums.find? m = some e ↔ (pool.members s).enums.find? m = some e ∨
      s = E.parent ∧ m = n ∧ e = ⟨pool.enums.size⟩ := by
  have hnone := (placeOf?_eq_none_iff.mp hfree).2.1
  rw [h.members]
  split
  · next hs =>
    subst hs
    rw [Table.find?_insert]
    by_cases hm : m = n
    · subst hm
      simp [hnone, eq_comm]
    · simp [hm]
  · next hs => simp [hs]

end EnumAdded

/-- An enum under a free name keeps the tree well-formed. -/
theorem WellFormed.of_enumAdded {other : Pool} {E : EnumType} {n : String} (hw : pool.WellFormed)
    (h : EnumAdded pool other E fun m => { m with enums := m.enums.insert n ⟨pool.enums.size⟩ })
    (hs : pool.HasScope E.parent) (hfile : pool.scopeFile E.parent = E.file)
    (hname : E.fullName = pool.scopeName E.parent ++ [n])
    (hfree : pool.placeOf? E.parent n = none) : other.WellFormed where
  block_scope b hb := by
    rw [h.hasScope, h.scopeFile, h.block_file, h.block_parent]
    exact hw.block_scope b (h.blocks ▸ hb)
  block_later b p hb hp :=
    hw.block_later b p (h.blocks ▸ hb) (h.block_parent b ▸ hp)
  enum_scope e he := by
    rw [h.hasScope, h.scopeFile]
    rcases (h.enums e).mp he with he | rfl
    · rw [h.enum e he]
      exact hw.enum_scope e he
    · rw [h.enum_new]
      exact ⟨hs, hfile⟩
  field_block d hd := by
    rw [h.fields] at hd
    rw [h.field, h.blocks]
    exact hw.field_block d hd
  message_iff s m b := by
    rw [h.messages_eq, h.blocks, h.block_heading, h.block_parent, h.scopeName]
    exact hw.message_iff s m b
  message_name b name hb hn := by
    rw [h.block_heading] at hn
    rw [h.block_parent, h.scopeName]
    exact hw.message_name b name (h.blocks ▸ hb) hn
  enum_iff s m e := by
    rw [h.find?_enums hfree, h.enums, h.scopeName, hw.enum_iff]
    constructor
    · rintro (⟨he, hp⟩ | ⟨rfl, rfl, rfl⟩)
      · rw [h.enum e he]
        exact ⟨.inl he, hp⟩
      · rw [h.enum_new]
        exact ⟨.inr rfl, rfl, hname⟩
    · rintro ⟨he | rfl, hp⟩
      · rw [h.enum e he] at hp
        exact .inl ⟨he, hp⟩
      · rw [h.enum_new] at hp
        obtain ⟨rfl, hp⟩ := hp
        rw [hname] at hp
        simp only [List.append_cancel_left_eq, List.cons.injEq, and_true] at hp
        exact .inr ⟨rfl, hp.symm, rfl⟩
  enum_name e he := by
    rw [h.scopeName]
    rcases (h.enums e).mp he with he | rfl
    · rw [h.enum e he]
      exact hw.enum_name e he
    · rw [h.enum_new]
      exact ⟨n, hname⟩
  extend_iff s b := by
    rw [h.extendBlocks_eq, h.blocks, h.block_parent, h.isExtend]
    exact hw.extend_iff s b
  extend_nodup s := by
    rw [h.extendBlocks_eq]
    exact hw.extend_nodup s
  field_iff b m d := by
    rw [h.block_fields, h.fields, h.field]
    exact hw.field_iff b m d
  message_enum s m := by
    rw [h.messages_eq]
    by_cases hmessage : (pool.members s).messages.find? m = none
    · exact .inl hmessage
    · refine .inr (Option.eq_none_iff_forall_ne_some.mpr fun e he => ?_)
      rcases (h.find?_enums hfree).mp he with he | ⟨rfl, rfl, -⟩
      · rw [(hw.message_enum s m).resolve_left hmessage] at he
        cases he
      · exact hmessage (placeOf?_eq_none_iff.mp hfree).1
  field_field := by
    rw [h.fields, h.field]
    exact hw.field_field
  field_member d hd := by
    rw [h.fields] at hd
    rw [h.field, h.messages_eq]
    refine ⟨(hw.field_member d hd).1, Option.eq_none_iff_forall_ne_some.mpr fun e he => ?_⟩
    rcases (h.find?_enums hfree).mp he with he | ⟨hp, hn, -⟩
    · rw [(hw.field_member d hd).2] at he
      cases he
    · exact hw.field_name_ne hfree hd hp hn

/-- The enum that `addEnum` adds. -/
def newEnum (pool : Pool) (file : FileId) (parent : Scope) (name : Located String) : EnumType :=
  { fullName := pool.scopeName parent ++ [name.value], span := name.span, file, parent }

theorem addEnum_eq_ok {file : FileId} {parent : Scope} {name : Located String} {other : Pool}
    {id : EnumId} (h : pool.addEnum file parent name = .ok (other, id)) :
    pool.placeOf? parent name.value = none ∧ id = ⟨pool.enums.size⟩ ∧
      other = ({ pool with enums := pool.enums.push (pool.newEnum file parent name) } :
        Pool).modifyMembers parent fun m =>
          { m with enums := m.enums.insert name.value ⟨pool.enums.size⟩ } := by
  unfold addEnum at h
  split at h
  · cases h
  · next hc =>
    cases h
    exact ⟨checkName_eq_ok_iff.mp hc, rfl, rfl⟩

theorem enumAdded_addEnum {file : FileId} {parent : Scope} {name : Located String}
    {other : Pool} {id : EnumId} (h : pool.addEnum file parent name = .ok (other, id))
    (hs : pool.HasScope parent) :
    EnumAdded pool other (pool.newEnum file parent name)
      fun m => { m with enums := m.enums.insert name.value ⟨pool.enums.size⟩ } := by
  obtain ⟨-, -, rfl⟩ := addEnum_eq_ok h
  exact enumAdded (pool.newEnum file parent name) _ hs

theorem WellFormed.addEnum (hw : pool.WellFormed) {file : FileId} {parent : Scope}
    {name : Located String} {other : Pool} {id : EnumId}
    (h : pool.addEnum file parent name = .ok (other, id)) (hs : pool.HasScope parent)
    (hf : pool.scopeFile parent = file) : other.WellFormed :=
  hw.of_enumAdded (enumAdded_addEnum h hs) hs hf rfl (addEnum_eq_ok h).1

theorem addValue_eq_ok {id : EnumId} {v : ValueDecl} {other : Pool}
    (h : pool.addValue id v = .ok other) :
    (pool.enum id).values.find? v.number.value = none ∧
      (∀ x ∈ (pool.enum id).values.values, x.name.value ≠ v.name.value) ∧
      other = pool.modifyEnum id fun e =>
        { e with values := e.values.insert v.number.value ⟨v.name, v.options⟩ } := by
  unfold addValue at h
  cases hn : (pool.enum id).values.find? v.number.value with
  | some first => simp [hn] at h
  | none =>
    cases hv : (pool.enum id).values.values.find? (·.name.value = v.name.value) with
    | some first => simp [hn, hv] at h
    | none =>
      simp only [hn, hv, Except.ok.injEq] at h
      refine ⟨rfl, fun x hx he => ?_, h.symm⟩
      simpa [he] using List.find?_eq_none.mp hv x hx

/-! ### Fields -/

theorem field_push (F : Field) (j : FieldId) :
    ({ pool with fields := pool.fields.push F } : Pool).field j =
      if j = ⟨pool.fields.size⟩ then F else pool.field j := by
  obtain ⟨j⟩ := j
  simp [field, getD_push]

theorem hasField_push (F : Field) (j : FieldId) :
    ({ pool with fields := pool.fields.push F } : Pool).HasField j ↔
      pool.HasField j ∨ j = ⟨pool.fields.size⟩ := by
  obtain ⟨j⟩ := j
  simp only [HasField, Array.size_push, FieldId.mk.injEq]
  omega

theorem not_hasField_size : ¬pool.HasField ⟨pool.fields.size⟩ := Nat.lt_irrefl _

/-- What is read from a pool after the field `F` was put behind the others and into its block. -/
structure FieldAdded (pool other : Pool) (F : Field) : Prop where
  files : other.HasFile = pool.HasFile
  blocks : other.HasBlock = pool.HasBlock
  enums : other.HasEnum = pool.HasEnum
  fields : ∀ d, other.HasField d ↔ pool.HasField d ∨ d = ⟨pool.fields.size⟩
  file : other.file = pool.file
  enum : other.enum = pool.enum
  block : ∀ b, other.block b = { pool.block b with fields := (other.block b).fields }
  field : ∀ d, pool.HasField d → other.field d = pool.field d
  field_new : other.field ⟨pool.fields.size⟩ = F
  block_fields : ∀ b, (other.block b).fields =
    if b = F.block then (pool.block b).fields.insert F.number.value ⟨pool.fields.size⟩
    else (pool.block b).fields

theorem FieldAdded.fields_find {other : Pool} {F : Field} (h : FieldAdded pool other F)
    (b : BlockId) (n : Nat) : (other.block b).fields.find? n = ((pool.block b).fields.find? n).or
      (if b = F.block ∧ n = F.number.value then some ⟨pool.fields.size⟩ else none) := by
  rw [h.block_fields]
  by_cases hb : b = F.block
  · simp [hb, Table.find?_insert]
  · simp [hb]

theorem addField_eq_ok {F : Field} {other : Pool} (h : pool.addField F = .ok other) :
    (pool.block F.block).fields.find? F.number.value = none ∧
      pool.placeOf? (.block F.block) F.name.value = none ∧
      other = ({ pool with fields := pool.fields.push F } : Pool).modifyBlock F.block fun b =>
        { b with fields := b.fields.insert F.number.value ⟨pool.fields.size⟩ } := by
  unfold addField at h
  cases hn : (pool.block F.block).fields.find? F.number.value with
  | some first => simp [hn] at h
  | none =>
    cases hc : pool.checkName (.block F.block) F.name with
    | error f => simp [hn, hc] at h
    | ok u =>
      simp only [hn, hc, Except.ok.injEq] at h
      exact ⟨rfl, checkName_eq_ok_iff.mp hc, h.symm⟩

theorem fieldAdded {F : Field} {other : Pool} (h : pool.addField F = .ok other)
    (hb : pool.HasBlock F.block) : FieldAdded pool other F := by
  obtain ⟨-, -, rfl⟩ := addField_eq_ok h
  have hblock : ∀ b, (({ pool with fields := pool.fields.push F } : Pool).modifyBlock F.block fun b =>
      { b with fields := b.fields.insert F.number.value ⟨pool.fields.size⟩ }).block b =
      { pool.block b with
        fields := if b = F.block then
            (pool.block b).fields.insert F.number.value ⟨pool.fields.size⟩
          else (pool.block b).fields } := by
    intro b
    rw [block_modifyBlock]
    by_cases hbb : b = F.block
    · subst hbb
      rw [if_pos ⟨rfl, hb⟩, if_pos rfl]
      rfl
    · rw [if_neg (fun hx => hbb hx.1.symm), if_neg hbb]
      rfl
  refine ⟨rfl, ?_, rfl, ?_, rfl, rfl, ?_, ?_, ?_, ?_⟩
  · rw [hasBlock_modifyBlock]
    rfl
  · intro d
    rw [hasField_modifyBlock]
    exact hasField_push F d
  · intro b
    rw [hblock]
  · intro d hd
    have : d ≠ ⟨pool.fields.size⟩ := by
      rintro rfl
      exact not_hasField_size hd
    rw [field_modifyBlock, field_push, if_neg this]
  · rw [field_modifyBlock, field_push, if_pos rfl]
  · intro b
    rw [hblock]

namespace FieldAdded

variable {other : Pool} {F : Field} (h : FieldAdded pool other F)
include h

theorem block_heading (b : BlockId) : (other.block b).heading = (pool.block b).heading := by
  rw [h.block b]

theorem block_file (b : BlockId) : (other.block b).file = (pool.block b).file := by
  rw [h.block b]

theorem block_parent (b : BlockId) : (other.block b).parent = (pool.block b).parent := by
  rw [h.block b]

theorem block_span (b : BlockId) : (other.block b).span = (pool.block b).span := by
  rw [h.block b]

theorem isExtend (b : BlockId) : (other.block b).isExtend = (pool.block b).isExtend := by
  rw [Block.isExtend, h.block_heading, Block.isExtend]

theorem members_eq : other.members = pool.members := by
  funext s
  cases s with
  | file i => simp only [members, h.file]
  | block b =>
    simp only [members]
    rw [h.block]

theorem scopeName_eq : other.scopeName = pool.scopeName := by
  funext s
  cases s with
  | file i => simp only [scopeName, h.file]
  | block b =>
    simp only [scopeName]
    rw [h.block]
    rfl

theorem scopeFile_eq : other.scopeFile = pool.scopeFile := by
  funext s
  cases s with
  | file i => rfl
  | block b => exact h.block_file b

theorem hasScope_eq : other.HasScope = pool.HasScope := by
  funext s
  cases s with
  | file i => simp only [HasScope, h.files]
  | block b => simp only [HasScope, h.blocks, h.isExtend]

end FieldAdded

/-- A field under a free name and a free number keeps the tree well-formed. -/
theorem WellFormed.of_fieldAdded {other : Pool} {F : Field} (hw : pool.WellFormed)
    (h : FieldAdded pool other F) (hb : pool.HasBlock F.block)
    (hnumber : (pool.block F.block).fields.find? F.number.value = none)
    (hfree : pool.placeOf? (.block F.block) F.name.value = none) : other.WellFormed where
  block_scope b hb := by
    rw [h.hasScope_eq, h.scopeFile_eq, h.block_file, h.block_parent]
    exact hw.block_scope b (h.blocks ▸ hb)
  block_later b p hb hp :=
    hw.block_later b p (h.blocks ▸ hb) (h.block_parent b ▸ hp)
  enum_scope := by
    rw [h.enums, h.enum, h.hasScope_eq, h.scopeFile_eq]
    exact hw.enum_scope
  field_block d hd := by
    rw [h.blocks]
    rcases (h.fields d).mp hd with hd | rfl
    · rw [h.field d hd]
      exact hw.field_block d hd
    · rw [h.field_new]
      exact hb
  message_iff s m b := by
    rw [h.members_eq, h.blocks, h.block_heading, h.block_parent, h.scopeName_eq]
    exact hw.message_iff s m b
  message_name b name hb hn := by
    rw [h.block_heading] at hn
    rw [h.block_parent, h.scopeName_eq]
    exact hw.message_name b name (h.blocks ▸ hb) hn
  enum_iff := by
    rw [h.members_eq, h.enums, h.enum, h.scopeName_eq]
    exact hw.enum_iff
  enum_name := by
    rw [h.enums, h.enum, h.scopeName_eq]
    exact hw.enum_name
  extend_iff s b := by
    rw [h.members_eq, h.blocks, h.block_parent, h.isExtend]
    exact hw.extend_iff s b
  extend_nodup := by
    rw [h.members_eq]
    exact hw.extend_nodup
  field_iff b n d := by
    rw [h.fields_find, h.fields]
    constructor
    · intro hd
      rw [Option.or_eq_some_iff] at hd
      rcases hd with hd | ⟨-, hd⟩
      · obtain ⟨hd, hp⟩ := (hw.field_iff b n d).mp hd
        rw [h.field d hd]
        exact ⟨.inl hd, hp⟩
      · split at hd
        · next hbn =>
          cases hd
          rw [h.field_new]
          exact ⟨.inr rfl, hbn.1.symm, hbn.2.symm⟩
        · cases hd
    · rintro ⟨hd | rfl, hp⟩
      · rw [h.field d hd] at hp
        rw [(hw.field_iff b n d).mpr ⟨hd, hp⟩, Option.some_or]
      · rw [h.field_new] at hp
        obtain ⟨rfl, rfl⟩ := hp
        rw [hnumber, Option.none_or, if_pos ⟨rfl, rfl⟩]
  message_enum := by
    rw [h.members_eq]
    exact hw.message_enum
  field_field d e hd he hblock hname := by
    rcases (h.fields d).mp hd with hd | rfl <;> rcases (h.fields e).mp he with he | rfl
    · rw [h.field d hd, h.field e he] at hblock hname
      exact hw.field_field d e hd he hblock hname
    · rw [h.field d hd, h.field_new] at hblock hname
      exact absurd hname (hw.field_name_ne hfree hd (congrArg Scope.block hblock))
    · rw [h.field e he, h.field_new] at hblock hname
      exact absurd hname.symm (hw.field_name_ne hfree he (congrArg Scope.block hblock.symm))
    · rfl
  field_member d hd := by
    rw [h.members_eq]
    rcases (h.fields d).mp hd with hd | rfl
    · rw [h.field d hd]
      exact hw.field_member d hd
    · rw [h.field_new]
      exact ⟨(placeOf?_eq_none_iff.mp hfree).1, (placeOf?_eq_none_iff.mp hfree).2.1⟩

theorem WellFormed.addField (hw : pool.WellFormed) {F : Field} {other : Pool}
    (h : pool.addField F = .ok other) (hb : pool.HasBlock F.block) : other.WellFormed :=
  hw.of_fieldAdded (fieldAdded h hb) hb (addField_eq_ok h).1 (addField_eq_ok h).2.1

/-! ### Files -/

/-- What is read from a pool after an empty file was put behind the others. -/
structure FileAdded (pool other : Pool) (name : String) (path : Option String) : Prop where
  files : ∀ i, other.HasFile i ↔ pool.HasFile i ∨ i = ⟨pool.files.size⟩
  blocks : other.blocks = pool.blocks
  enums : other.enums = pool.enums
  fields : other.fields = pool.fields
  extensions : other.extensions = pool.extensions
  file : ∀ i, i ≠ ⟨pool.files.size⟩ → other.file i = pool.file i
  file_new : other.file ⟨pool.files.size⟩ = { name, path }

theorem fileAdded (pool : Pool) (name : String) (path : Option String) :
    FileAdded pool (pool.addFile name path).1 name path := by
  refine ⟨?_, rfl, rfl, rfl, rfl, ?_, ?_⟩
  · rintro ⟨i⟩
    simp only [addFile, HasFile, Array.size_push, FileId.mk.injEq]
    omega
  · rintro ⟨i⟩ hi
    have : i ≠ pool.files.size := fun e => hi (e ▸ rfl)
    simp [addFile, file, getD_push, this]
  · simp [addFile, file]

theorem not_hasFile_size : ¬pool.HasFile ⟨pool.files.size⟩ := Nat.lt_irrefl _

namespace FileAdded

variable {other : Pool} {name : String} {path : Option String}

theorem block (h : FileAdded pool other name path) : other.block = pool.block := by
  funext b
  simp only [Pool.block, h.blocks]

theorem enum (h : FileAdded pool other name path) : other.enum = pool.enum := by
  funext e
  simp only [Pool.enum, h.enums]

theorem field (h : FileAdded pool other name path) : other.field = pool.field := by
  funext d
  simp only [Pool.field, h.fields]

theorem hasBlock (h : FileAdded pool other name path) : other.HasBlock = pool.HasBlock := by
  funext b
  simp only [HasBlock, h.blocks]

theorem hasEnum (h : FileAdded pool other name path) : other.HasEnum = pool.HasEnum := by
  funext e
  simp only [HasEnum, h.enums]

theorem hasField (h : FileAdded pool other name path) : other.HasField = pool.HasField := by
  funext d
  simp only [HasField, h.fields]

theorem members (h : FileAdded pool other name path) : other.members = pool.members := by
  funext s
  cases s with
  | block b => simp only [Pool.members, h.block]
  | file i =>
    by_cases hi : i = ⟨pool.files.size⟩
    · rw [hi, members_of_not_inRange (s := .file ⟨pool.files.size⟩) not_hasFile_size]
      simp [Pool.members, h.file_new]
    · simp only [Pool.members, h.file i hi]

theorem scopeName (h : FileAdded pool other name path) : other.scopeName = pool.scopeName := by
  funext s
  cases s with
  | block b => simp only [Pool.scopeName, h.block]
  | file i =>
    by_cases hi : i = ⟨pool.files.size⟩
    · rw [hi]
      simp only [Pool.scopeName, h.file_new, file_of_not_hasFile not_hasFile_size]
      rfl
    · simp only [Pool.scopeName, h.file i hi]

theorem scopeFile (h : FileAdded pool other name path) : other.scopeFile = pool.scopeFile := by
  funext s
  cases s with
  | file i => rfl
  | block b => simp only [Pool.scopeFile, h.block]

theorem hasScope (h : FileAdded pool other name path) {s : Scope} (hs : pool.HasScope s) :
    other.HasScope s := by
  cases s with
  | file i => exact (h.files i).mpr (.inl hs)
  | block b => simpa only [HasScope, h.hasBlock, h.block] using hs

end FileAdded

theorem WellFormed.of_fileAdded {other : Pool} {name : String} {path : Option String}
    (hw : pool.WellFormed) (h : FileAdded pool other name path) : other.WellFormed where
  block_scope b hb := by
    rw [h.hasBlock] at hb
    rw [h.block, h.scopeFile]
    exact ⟨h.hasScope (hw.block_scope b hb).1, (hw.block_scope b hb).2⟩
  block_later := by
    rw [h.hasBlock, h.block]
    exact hw.block_later
  enum_scope e he := by
    rw [h.hasEnum] at he
    rw [h.enum, h.scopeFile]
    exact ⟨h.hasScope (hw.enum_scope e he).1, (hw.enum_scope e he).2⟩
  field_block := by
    rw [h.hasField, h.field, h.hasBlock]
    exact hw.field_block
  message_iff := by
    rw [h.members, h.hasBlock, h.block, h.scopeName]
    exact hw.message_iff
  message_name := by
    rw [h.hasBlock, h.block, h.scopeName]
    exact hw.message_name
  enum_iff := by
    rw [h.members, h.hasEnum, h.enum, h.scopeName]
    exact hw.enum_iff
  enum_name := by
    rw [h.hasEnum, h.enum, h.scopeName]
    exact hw.enum_name
  extend_iff := by
    rw [h.members, h.hasBlock, h.block]
    exact hw.extend_iff
  extend_nodup := by
    rw [h.members]
    exact hw.extend_nodup
  field_iff := by
    rw [h.block, h.hasField, h.field]
    exact hw.field_iff
  message_enum := by
    rw [h.members]
    exact hw.message_enum
  field_field := by
    rw [h.hasField, h.field]
    exact hw.field_field
  field_member := by
    rw [h.hasField, h.field, h.members]
    exact hw.field_member

end ProtoSchema.Pool
