import ProtoSchema.Pool.Statements
import ProtoSchema.Proofs.Event.Lines
import ProtoSchema.Proofs.Pool.Effects
import ProtoSchema.Proofs.Pool.Sweep

/-! # Declarations that can be written

Declarations of legible events are legible: full names are made of identifiers, all numbers are in their
bounds, and the values of an enum have different names.  An event keeps that of all declarations of a pool
(`Effect.legible`), and so does the sweep. -/

namespace ProtoSchema

/-! ### Single declarations -/

structure File.Legible (f : File) : Prop where
  package : ∀ name, f.package = some name → name.value.Legible
  options : ∀ o ∈ f.options, o.Legible

structure Block.Legible (b : Block) : Prop where
  fullName : ∀ w ∈ b.fullName, IsIdent w
  reservedRanges : ∀ r ∈ b.reservedRanges, r.Legible
  extensionRanges : ∀ r ∈ b.extensionRanges, r.Legible
  options : ∀ o ∈ b.options, o.Legible

structure EnumType.Legible (e : EnumType) : Prop where
  fullName : ∀ w ∈ e.fullName, IsIdent w
  values : ∀ v ∈ e.values.entries, (Pool.valueStatement v.1 v.2).Legible
  /-- No two values have the same name. -/
  names : (e.values.values.map fun v => v.name.value).Nodup
  options : ∀ o ∈ e.options, o.Legible

structure Field.Legible (f : Field) : Prop where
  form : f.form.Legible
  name : IsIdent f.name.value
  number : FieldNumber.isValid f.number.value = true
  options : ∀ o ∈ f.options, o.Legible

theorem forall_mem_append_singleton {α : Type} {P : α → Prop} {as : List α} {a : α} :
    (∀ x ∈ as ++ [a], P x) ↔ (∀ x ∈ as, P x) ∧ P a := by
  rw [List.forall_mem_append, List.forall_mem_singleton]

namespace Pool

variable {pool other : Pool}

/-- All declarations of a pool can be written. -/
structure Legible (pool : Pool) : Prop where
  file : ∀ i, pool.HasFile i → (pool.file i).Legible
  block : ∀ b, pool.HasBlock b → (pool.block b).Legible
  enum : ∀ e, pool.HasEnum e → (pool.enum e).Legible
  field : ∀ d, pool.HasField d → (pool.field d).Legible

theorem legible_empty : Legible {} :=
  ⟨fun _ h => absurd h (Nat.not_lt_zero _), fun _ h => absurd h (Nat.not_lt_zero _),
    fun _ h => absurd h (Nat.not_lt_zero _), fun _ h => absurd h (Nat.not_lt_zero _)⟩

namespace Legible

/-! ### Changes in place -/

theorem modifyFile (h : pool.Legible) (i : FileId) {k : File → File}
    (hk : ∀ x : File, x.Legible → (k x).Legible) : (pool.modifyFile i k).Legible where
  file j hj := by
    rw [hasFile_modifyFile] at hj
    rw [file_modifyFile]
    split
    · exact hk _ (h.file j hj)
    · exact h.file j hj
  block := h.block
  enum := h.enum
  field := h.field

theorem modifyBlock (h : pool.Legible) (b : BlockId) {k : Block → Block}
    (hk : ∀ x : Block, x.Legible → (k x).Legible) : (pool.modifyBlock b k).Legible where
  file := h.file
  block j hj := by
    rw [hasBlock_modifyBlock] at hj
    rw [block_modifyBlock]
    split
    · exact hk _ (h.block j hj)
    · exact h.block j hj
  enum := h.enum
  field := h.field

theorem modifyEnum (h : pool.Legible) (e : EnumId) {k : EnumType → EnumType}
    (hk : pool.HasEnum e → (pool.enum e).Legible → (k (pool.enum e)).Legible) :
    (pool.modifyEnum e k).Legible where
  file := h.file
  block := h.block
  enum j hj := by
    rw [hasEnum_modifyEnum] at hj
    rw [enum_modifyEnum]
    split
    · next hej =>
      obtain ⟨rfl, -⟩ := hej
      exact hk hj (h.enum e hj)
    · exact h.enum j hj
  field := h.field

theorem modifyField (h : pool.Legible) (d : FieldId) {k : Field → Field}
    (hk : ∀ x : Field, x.Legible → (k x).Legible) : (pool.modifyField d k).Legible where
  file := h.file
  block := h.block
  enum := h.enum
  field j hj := by
    rw [hasField_modifyField] at hj
    rw [field_modifyField]
    split
    · exact hk _ (h.field j hj)
    · exact h.field j hj

/-! ### New declarations -/

theorem of_fileAdded (h : pool.Legible) {name : String} {path : Option String}
    (hadded : FileAdded pool other name path) : other.Legible where
  file i hi := by
    by_cases hne : i = ⟨pool.files.size⟩
    · rw [hne, hadded.file_new]
      exact ⟨fun _ h => (by cases h), List.forall_mem_nil _⟩
    · rw [hadded.file i hne]
      exact h.file i (((hadded.files i).mp hi).resolve_right hne)
  block := by
    rw [hadded.hasBlock, hadded.block]
    exact h.block
  enum := by
    rw [hadded.hasEnum, hadded.enum]
    exact h.enum
  field := by
    rw [hadded.hasField, hadded.field]
    exact h.field

theorem of_blockAdded (h : pool.Legible) {B : Block} {k : Members → Members}
    (hadded : BlockAdded pool other B k) (hB : B.Legible) : other.Legible where
  file i hi := by
    rw [hadded.files] at hi
    rw [hadded.file]
    exact ⟨(h.file i hi).package, (h.file i hi).options⟩
  block b hb := by
    rcases (hadded.blocks b).mp hb with hb | rfl
    · rw [hadded.block b hb]
      exact ⟨(h.block b hb).fullName, (h.block b hb).reservedRanges, (h.block b hb).extensionRanges,
        (h.block b hb).options⟩
    · rw [hadded.block_new]
      exact hB
  enum := by
    rw [hadded.enums, hadded.enum]
    exact h.enum
  field := by
    rw [hadded.fields, hadded.field]
    exact h.field

theorem of_enumAdded (h : pool.Legible) {E : EnumType} {k : Members → Members}
    (hadded : EnumAdded pool other E k) (hE : E.Legible) : other.Legible where
  file i hi := by
    rw [hadded.files] at hi
    rw [hadded.file]
    exact ⟨(h.file i hi).package, (h.file i hi).options⟩
  block b hb := by
    rw [hadded.blocks] at hb
    rw [hadded.block]
    exact ⟨(h.block b hb).fullName, (h.block b hb).reservedRanges, (h.block b hb).extensionRanges,
      (h.block b hb).options⟩
  enum e he := by
    rcases (hadded.enums e).mp he with he | rfl
    · rw [hadded.enum e he]
      exact h.enum e he
    · rw [hadded.enum_new]
      exact hE
  field := by
    rw [hadded.fields, hadded.field]
    exact h.field

theorem of_fieldAdded (h : pool.Legible) {F : Field} (hadded : FieldAdded pool other F)
    (hF : F.Legible) : other.Legible where
  file := by
    rw [hadded.files, hadded.file]
    exact h.file
  block b hb := by
    rw [hadded.blocks] at hb
    rw [hadded.block]
    exact ⟨(h.block b hb).fullName, (h.block b hb).reservedRanges, (h.block b hb).extensionRanges,
      (h.block b hb).options⟩
  enum := by
    rw [hadded.enums, hadded.enum]
    exact h.enum
  field d hd := by
    rcases (hadded.fields d).mp hd with hd | rfl
    · rw [hadded.field d hd]
      exact h.field d hd
    · rw [hadded.field_new]
      exact hF

/-! ### Names -/

/-- The names in front of the declarations of a scope. -/
theorem scopeName (h : pool.Legible) {s : Scope} (hs : pool.HasScope s) :
    ∀ w ∈ pool.scopeName s, IsIdent w := by
  cases s with
  | file i =>
    show ∀ w ∈ (pool.file i).packageName, IsIdent w
    unfold File.packageName
    cases hp : (pool.file i).package with
    | none => exact List.forall_mem_nil _
    | some name => exact ((h.file i hs).package name hp).ident
  | block b => exact (h.block b hs.1).fullName

theorem fullName (h : pool.Legible) {s : Scope} (hs : pool.HasScope s) {name : String}
    (hname : IsIdent name) : ∀ w ∈ pool.scopeName s ++ [name], IsIdent w :=
  forall_mem_append_singleton.mpr ⟨h.scopeName hs, hname⟩

/-- The full name of a type can be read. -/
theorem typeName (h : pool.Legible) (hw : pool.WellFormed) {t : TypeId} (ht : pool.HasType t) :
    (pool.typeName t).Legible := by
  cases t with
  | message b =>
    obtain ⟨n, hn⟩ := hw.message_name b _ ht.1 (heading_eq_message_iff.mpr ⟨ht.2, rfl⟩)
    refine ⟨?_, (h.block b ht.1).fullName⟩
    show (pool.block b).fullName ≠ []
    rw [hn]
    simp
  | enum e =>
    obtain ⟨n, hn⟩ := hw.enum_name e ht
    refine ⟨?_, (h.enum e ht).fullName⟩
    show (pool.enum e).fullName ≠ []
    rw [hn]
    simp

/-! ### The sweep -/

theorem binds (h : pool.Legible) {f : FileId} (hb : Binds f pool other) : other.Legible := by
  cases hb with
  | @block b type t =>
    refine h.modifyBlock _ fun x hx => ?_
    have hname := (x.bind_refines t).fullName
    obtain ⟨heading, he, -⟩ := x.bind_eq t
    rw [he] at hname ⊢
    exact ⟨by rw [hname]; exact hx.fullName, hx.reservedRanges, hx.extensionRanges, hx.options⟩
  | @field d name t =>
    refine h.modifyField _ fun x hx => ?_
    obtain ⟨type, he, -⟩ := x.bind_eq t
    rw [he]
    exact ⟨hx.form, hx.name, hx.number, hx.options⟩

theorem swept (h : pool.Legible) {f : FileId} (hs : Swept f pool other) : other.Legible := by
  induction hs with
  | refl => exact h
  | tail _ hb ih => exact ih.binds hb

end Legible

/-- No enum of a file is empty. -/
def EnumsFilled (pool : Pool) (f : FileId) : Prop :=
  ∀ e, pool.EnumOf f e → (pool.enum e).values.entries ≠ []

/-- Extend blocks have no maps. -/
def ExtendsPlain (pool : Pool) : Prop :=
  ∀ d, pool.HasField d → (pool.block (pool.field d).block).isExtend = true →
    ∀ key, (pool.field d).form ≠ .map key

/-- A change that adds no map to an extend block. -/
theorem ExtendsPlain.of_touches {g : FileId} (h : pool.ExtendsPlain) (hw : pool.WellFormed)
    (ht : Touches g pool other) (hnew : ∀ d, other.HasField d → pool.HasField d ∨
      ((other.block (other.field d).block).isExtend = true →
        ∀ key, (other.field d).form ≠ .map key)) : other.ExtendsPlain := by
  intro d hd hextend
  rcases hnew d hd with hold | hnew
  · have hsame := (ht.field d hold).2.1.same
    have hblock : (other.field d).block = (pool.field d).block := by rw [hsame]
    rw [hblock, (ht.block _ (hw.field_block d hold)).2.1.isExtend] at hextend
    rw [hsame]
    exact h d hold hextend
  · exact hnew hextend

end Pool

/-! ### Events -/

namespace Cursor

variable {c c' : Cursor} {pool other : Pool} {e : Event} {ks ks' : OpenBlocks}

/-- A legible event keeps all declarations legible. -/
theorem Effect.legible (h : Effect c pool e c' other) (hn : e.Nests ks ks') (hf : c.Fits pool ks)
    (hp : pool.Legible) (he : e.Legible) : other.Legible := by
  cases h with
  | edition => exact hp.modifyFile _ fun x hx => ⟨hx.package, hx.options⟩
  | package =>
    refine hp.modifyFile _ fun x hx => ⟨fun name hname => ?_, hx.options⟩
    cases hname
    exact he
  | importFile | required | strayField | strayValue | closeEnum | closeBlock => exact hp
  | fileOption =>
    exact hp.modifyFile _ fun x hx => ⟨hx.package, forall_mem_append_singleton.mpr ⟨hx.options, he⟩⟩
  | blockOption =>
    exact hp.modifyBlock _ fun x hx => ⟨hx.fullName, hx.reservedRanges, hx.extensionRanges,
      forall_mem_append_singleton.mpr ⟨hx.options, he⟩⟩
  | enumOption =>
    exact hp.modifyEnum _ fun _ hx => ⟨hx.fullName, hx.values, hx.names,
      forall_mem_append_singleton.mpr ⟨hx.options, he⟩⟩
  | message added =>
    cases hn with
    | openMessage hks =>
      obtain ⟨hs, -⟩ := hf.hasScope hks
      exact hp.of_blockAdded (Pool.blockAdded_addMessage added hs)
        ⟨hp.fullName hs he, List.forall_mem_nil _, List.forall_mem_nil _, List.forall_mem_nil _⟩
  | extend =>
    cases hn with
    | openExtend hks =>
      exact hp.of_blockAdded (Pool.blockAdded_addExtend _ _ _ (hf.hasScope hks).1)
        ⟨List.forall_mem_nil _, List.forall_mem_nil _, List.forall_mem_nil _, List.forall_mem_nil _⟩
  | enum added =>
    cases hn with
    | openEnum hks =>
      obtain ⟨hs, -⟩ := hf.hasScope hks
      exact hp.of_enumAdded (Pool.enumAdded_addEnum added hs)
        ⟨hp.fullName hs he, List.forall_mem_nil _, List.nodup_nil, List.forall_mem_nil _⟩
  | field scope added =>
    have he : FieldDecl.Legible _ := he
    exact hp.of_fieldAdded (Pool.fieldAdded added (hf.scope_block scope).1)
      ⟨he.form, he.name, he.number, he.options⟩
  | @value v id other inEnum added =>
    obtain ⟨hnumber, hname, rfl⟩ := Pool.addValue_eq_ok added
    refine hp.modifyEnum _ fun _ hx => ⟨hx.fullName, ?_, ?_, hx.options⟩
    · simp only [Table.entries_insert hnumber]
      have he : v.Legible := he
      exact forall_mem_append_singleton.mpr ⟨hx.values, ⟨he.name, he.number, he.options⟩⟩
    · simp only [Table.values, Table.entries_insert hnumber, List.map_append, List.map_cons,
        List.map_nil, List.map_map]
      refine List.nodup_append.mpr ⟨by simpa only [Table.values, List.map_map] using hx.names,
        List.nodup_singleton _, fun a ha b hb hab => ?_⟩
      rw [List.mem_singleton] at hb
      obtain ⟨x, hx, rfl⟩ := List.mem_map.mp ha
      exact hname x.2 (List.mem_map_of_mem hx) (hab.trans hb)
  | reservedRanges =>
    unfold modifyOpen
    split
    · exact hp.modifyBlock _ fun x hx => ⟨hx.fullName,
        List.forall_mem_append.mpr ⟨hx.reservedRanges, he.2⟩, hx.extensionRanges, hx.options⟩
    · exact hp
  | reservedNames =>
    unfold modifyOpen
    split
    · exact hp.modifyBlock _ fun x hx => ⟨hx.fullName, hx.reservedRanges, hx.extensionRanges,
        hx.options⟩
    · exact hp
  | extensionRanges =>
    unfold modifyOpen
    split
    · exact hp.modifyBlock _ fun x hx => ⟨hx.fullName, hx.reservedRanges,
        List.forall_mem_append.mpr ⟨hx.extensionRanges, he.2⟩, hx.options⟩
    · exact hp

/-- An event adds no map to an extend block. -/
theorem Effect.extendsPlain (h : Effect c pool e c' other) (hn : e.Nests ks ks') (hf : c.Fits pool ks)
    (hw : pool.WellFormed) (hp : pool.ExtendsPlain) : other.ExtendsPlain := by
  refine hp.of_touches hw (h.touches hn hf) fun d hd => ?_
  cases h with
  | edition | package | importFile | fileOption | required | strayField | strayValue | closeEnum |
      closeBlock => exact .inl hd
  | blockOption | enumOption => exact .inl hd
  | message added =>
    cases hn with
    | openMessage hks =>
      rw [(Pool.blockAdded_addMessage added (hf.hasScope hks).1).fields] at hd
      exact .inl hd
  | @extend type =>
    cases hn with
    | openExtend hks =>
      rw [(Pool.blockAdded_addExtend c.file type _ (hf.hasScope hks).1).fields] at hd
      exact .inl hd
  | enum added =>
    cases hn with
    | openEnum hks =>
      rw [(Pool.enumAdded_addEnum added (hf.hasScope hks).1).fields] at hd
      exact .inl hd
  | value inEnum added =>
    obtain ⟨-, -, rfl⟩ := Pool.addValue_eq_ok added
    exact .inl hd
  | reservedRanges | reservedNames | extensionRanges =>
    unfold modifyOpen at hd
    split at hd <;> exact .inl hd
  | @field f block other scope added =>
    have hadded := Pool.fieldAdded added (hf.scope_block scope).1
    refine ((hadded.fields d).mp hd).imp_right ?_
    rintro rfl hextend
    cases hn with
    | @field _ k _ hk hmap =>
      obtain ⟨b, hb, -, hbo, hx⟩ := hf.block hk rfl
      obtain rfl : block = b := Scope.block.inj (scope.symm.trans hb)
      rw [hadded.field_new] at hextend ⊢
      rw [hadded.block] at hextend
      exact hmap (of_decide_eq_true (hx.symm.trans hextend))

end Cursor

end ProtoSchema
