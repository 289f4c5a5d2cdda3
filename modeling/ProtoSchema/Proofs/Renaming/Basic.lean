import ProtoSchema.Proofs.Pool.Grounding

/-! # Pools that differ in the places of declarations

Two runs may read one file at different moments, and then its declarations stand at different places
of the two pools.  A `Renaming` sends places of one pool to places of another; `Matches ρ f` says that
the file `f` and its declarations are in the second pool what they are in the first one, up to the
renaming `ρ`, and in the same order.

What a file mentions lies in the file and in those it imports, directly or through others
(`Grounded`).  So a renaming may be changed at other places (`Matches.congr`), and both pools may be
changed elsewhere (`Matches.of_kept`). -/

namespace ProtoSchema

/-! ### Tables with other values -/

namespace Table

variable {κ α β : Type}

/-- The table with a function applied to every value. -/
def map (f : α → β) (t : Table κ α) : Table κ β where
  entries := t.entries.map fun e => (e.1, f e.2)
  nodup := by
    rw [List.map_map]
    exact t.nodup

theorem eq_of_entries {t u : Table κ α} (h : t.entries = u.entries) : t = u := by
  cases t
  cases u
  cases h
  rfl

@[simp] theorem values_map (f : α → β) (t : Table κ α) : (t.map f).values = t.values.map f := by
  simp [values, map]

@[simp] theorem map_empty (f : α → β) : (empty : Table κ α).map f = empty := rfl

variable [DecidableEq κ]

@[simp] theorem find?_map (f : α → β) (t : Table κ α) (k : κ) :
    (t.map f).find? k = (t.find? k).map f := by
  obtain ⟨es, nodup⟩ := t
  simp only [find?, map]
  clear nodup
  induction es with
  | nil => rfl
  | cons e es ih =>
    obtain ⟨k', a⟩ := e
    simp only [List.map_cons, List.lookup_cons]
    cases k == k' with
    | true => rfl
    | false => exact ih

theorem map_insert (f : α → β) (t : Table κ α) (k : κ) (a : α) :
    (t.insert k a).map f = (t.map f).insert k (f a) := by
  apply eq_of_entries
  cases h : t.find? k with
  | some b =>
    have h' : (t.map f).find? k = some (f b) := by rw [find?_map, h]; rfl
    rw [insert_of_find? h, insert_of_find? h']
  | none =>
    have h' : (t.map f).find? k = none := by rw [find?_map, h]; rfl
    rw [entries_insert h']
    show (t.insert k a).entries.map _ = t.entries.map _ ++ [(k, f a)]
    rw [entries_insert h, List.map_append]
    rfl

theorem map_insertAll (f : α → β) (es : List (κ × α)) (t : Table κ α) :
    (t.insertAll es).map f = (t.map f).insertAll (es.map fun e => (e.1, f e.2)) := by
  induction es generalizing t with
  | nil => rfl
  | cons e es ih =>
    show ((t.insert e.1 e.2).insertAll es).map f = ((t.map f).insert e.1 (f e.2)).insertAll _
    rw [ih, map_insert]

omit [DecidableEq κ] in
theorem map_congr_values {f g : α → β} {t : Table κ α} (h : ∀ a ∈ t.values, f a = g a) :
    t.map f = t.map g := by
  apply eq_of_entries
  refine List.map_congr_left fun e he => ?_
  rw [h e.2 (List.mem_map_of_mem he)]

omit [DecidableEq κ] in
theorem map_eq_self {f : α → α} (h : ∀ a, f a = a) (t : Table κ α) : t.map f = t := by
  apply eq_of_entries
  refine (List.map_congr_left fun e _ => ?_).trans (List.map_id _)
  exact congrArg (Prod.mk e.1) (h e.2)

end Table

/-! ### Renamings -/

/-- Places in another pool. -/
structure Renaming where
  file : FileId → FileId
  block : BlockId → BlockId
  enum : EnumId → EnumId
  field : FieldId → FieldId

namespace Renaming

variable (ρ : Renaming)

def scope : Scope → Scope
  | .file i => .file (ρ.file i)
  | .block b => .block (ρ.block b)

def type : TypeId → TypeId
  | .message b => .message (ρ.block b)
  | .enum e => .enum (ρ.enum e)

def heading : Heading → Heading
  | .message fullName => .message fullName
  | .extend name target => .extend name (target.map ρ.type)

def fieldType : FieldType → FieldType
  | .scalar s => .scalar s
  | .named name target => .named name (target.map ρ.type)

def members (m : Members) : Members where
  messages := m.messages.map ρ.block
  enums := m.enums.map ρ.enum
  extendBlocks := m.extendBlocks.map ρ.block

def imported (i : Import) : Import := { i with file := ρ.file i.file }

def onFile (f : File) : File :=
  { f with
    imports := f.imports.map ρ.imported
    members := ρ.members f.members
    types := f.types.map ρ.type }

def onBlock (b : Block) : Block :=
  { b with
    heading := ρ.heading b.heading
    file := ρ.file b.file
    parent := ρ.scope b.parent
    members := ρ.members b.members
    fields := b.fields.map ρ.field }

def onEnum (e : EnumType) : EnumType :=
  { e with file := ρ.file e.file, parent := ρ.scope e.parent }

def onField (d : Field) : Field :=
  { d with type := ρ.fieldType d.type, block := ρ.block d.block }

/-- The renaming that leaves every place as it is. -/
protected def id : Renaming := ⟨id, id, id, id⟩

variable {ρ}

@[simp] theorem isExtend_onBlock (b : Block) : (ρ.onBlock b).isExtend = b.isExtend := by
  obtain ⟨heading⟩ := b
  cases heading <;> rfl

@[simp] theorem fullName_onBlock (b : Block) : (ρ.onBlock b).fullName = b.fullName := by
  obtain ⟨heading⟩ := b
  cases heading <;> rfl

@[simp] theorem title_onBlock (b : Block) : (ρ.onBlock b).title = b.title := by
  obtain ⟨heading⟩ := b
  cases heading <;> rfl

@[simp] theorem name_onBlock (b : Block) : (ρ.onBlock b).name = b.name := by
  simp [Block.name]

@[simp] theorem packageName_onFile (f : File) : (ρ.onFile f).packageName = f.packageName := rfl

@[simp] theorem members_empty : ρ.members {} = {} := rfl

/-! ### The renaming that changes nothing -/

theorem scope_id (s : Scope) : Renaming.id.scope s = s := by cases s <;> rfl

theorem type_id (t : TypeId) : Renaming.id.type t = t := by cases t <;> rfl

theorem target_id (target : Option TypeId) : target.map Renaming.id.type = target := by
  cases target with
  | none => rfl
  | some t => exact congrArg some (type_id t)

theorem members_id (m : Members) : Renaming.id.members m = m := by
  have hmap : ∀ {α : Type} (t : Table String α), t.map id = t := Table.map_eq_self fun _ => rfl
  simp only [members, Renaming.id, hmap, List.map_id]

theorem onFile_id (f : File) : Renaming.id.onFile f = f := by
  simp only [onFile, members_id, Table.map_eq_self type_id]
  rw [Table.map_eq_self (f := Renaming.id.imported) fun _ => rfl]

theorem onBlock_id (b : Block) : Renaming.id.onBlock b = b := by
  have hheading : Renaming.id.heading b.heading = b.heading := by
    cases b.heading with
    | message name => rfl
    | extend name target => exact congrArg (Heading.extend name) (target_id target)
  simp only [onBlock, members_id, hheading, scope_id]
  rw [Table.map_eq_self (f := Renaming.id.field) fun _ => rfl]
  rfl

theorem onEnum_id (e : EnumType) : Renaming.id.onEnum e = e := by
  simp only [onEnum, scope_id]
  rfl

theorem onField_id (d : Field) : Renaming.id.onField d = d := by
  have htype : Renaming.id.fieldType d.type = d.type := by
    cases d.type with
    | scalar s => rfl
    | named name target => exact congrArg (FieldType.named name) (target_id target)
  simp only [onField, htype]
  rfl

end Renaming

namespace Pool

variable {pool other third fourth : Pool} {ρ σ : Renaming} {f g : FileId}

/-! ### Renamings that agree -/

/-- Two renamings agree on some files and on all that is declared there. -/
structure AgreeOn (K : FileId → Prop) (pool : Pool) (ρ σ : Renaming) : Prop where
  file : ∀ i, K i → σ.file i = ρ.file i
  block : ∀ b, pool.HasBlock b → K (pool.block b).file → σ.block b = ρ.block b
  enum : ∀ e, pool.HasEnum e → K (pool.enum e).file → σ.enum e = ρ.enum e
  field : ∀ d, pool.HasField d → K (pool.block (pool.field d).block).file → σ.field d = ρ.field d

theorem AgreeOn.refl (K : FileId → Prop) (pool : Pool) (ρ : Renaming) : AgreeOn K pool ρ ρ :=
  ⟨fun _ _ => rfl, fun _ _ _ => rfl, fun _ _ _ => rfl, fun _ _ _ => rfl⟩

theorem AgreeOn.mono {K K' : FileId → Prop} (h : AgreeOn K pool ρ σ) (hK : ∀ i, K' i → K i) :
    AgreeOn K' pool ρ σ :=
  ⟨fun i hi => h.file i (hK i hi), fun b hb hf => h.block b hb (hK _ hf),
    fun e he hf => h.enum e he (hK _ hf), fun d hd hf => h.field d hd (hK _ hf)⟩

theorem AgreeOn.trans {K : FileId → Prop} {τ : Renaming} (h : AgreeOn K pool ρ σ)
    (h' : AgreeOn K pool σ τ) : AgreeOn K pool ρ τ :=
  ⟨fun i hi => (h'.file i hi).trans (h.file i hi),
    fun b hb hf => (h'.block b hb hf).trans (h.block b hb hf),
    fun e he hf => (h'.enum e he hf).trans (h.enum e he hf),
    fun d hd hf => (h'.field d hd hf).trans (h.field d hd hf)⟩

theorem AgreeOn.type {K : FileId → Prop} (h : AgreeOn K pool ρ σ) {t : TypeId}
    (ht : pool.HasType t) (hK : K (pool.typeFile t)) : σ.type t = ρ.type t := by
  cases t with
  | message b => exact congrArg TypeId.message (h.block b ht.1 hK)
  | enum e => exact congrArg TypeId.enum (h.enum e ht hK)

theorem AgreeOn.scope {K : FileId → Prop} (h : AgreeOn K pool ρ σ) {s : Scope}
    (hs : pool.InRange s) (hK : K (pool.scopeFile s)) : σ.scope s = ρ.scope s := by
  cases s with
  | file i => exact congrArg Scope.file (h.file i hK)
  | block b => exact congrArg Scope.block (h.block b hs hK)

/-- A declaration in a scope is in the file of the scope. -/
theorem WellFormed.file_of_parent (hw : pool.WellFormed) {s : Scope} {b : BlockId}
    (hb : pool.HasBlock b) (hp : (pool.block b).parent = s) :
    (pool.block b).file = pool.scopeFile s := by
  rw [← hp, (hw.block_scope b hb).2]

theorem AgreeOn.members {K : FileId → Prop} (h : AgreeOn K pool ρ σ) (hw : pool.WellFormed)
    {s : Scope} (hK : K (pool.scopeFile s)) :
    σ.members (pool.members s) = ρ.members (pool.members s) := by
  unfold Renaming.members
  congr 1
  · refine Table.map_congr_values fun b hb => ?_
    obtain ⟨hb, -, hp⟩ := hw.mem_messages_iff.mp hb
    exact h.block b hb (hw.file_of_parent hb hp ▸ hK)
  · refine Table.map_congr_values fun e he => ?_
    obtain ⟨he, hp⟩ := hw.mem_enums_iff.mp he
    exact h.enum e he ((hw.enum_scope e he).2 ▸ hp ▸ hK)
  · refine List.map_congr_left fun b hb => ?_
    obtain ⟨hb, hp, -⟩ := (hw.extend_iff s b).mp hb
    exact h.block b hb (hw.file_of_parent hb hp ▸ hK)

section agree

variable (h : AgreeOn (pool.Reaches f) pool ρ σ) (hw : pool.WellFormed) (hg : pool.Grounded f)
include h hg

theorem AgreeOn.onFile (hw : pool.WellFormed) : σ.onFile (pool.file f) = ρ.onFile (pool.file f) := by
  have hmembers : σ.members (pool.file f).members = ρ.members (pool.file f).members :=
    h.members hw (s := .file f) (Reaches.refl f)
  have himports : (pool.file f).imports.map σ.imported = (pool.file f).imports.map ρ.imported := by
    refine Table.map_congr_values fun i hi => ?_
    simp only [Renaming.imported, h.file i.file (.single ⟨i, hi, rfl⟩)]
  have htypes : (pool.file f).types.map σ.type = (pool.file f).types.map ρ.type := by
    refine Table.map_congr_values fun t ht => ?_
    obtain ⟨name, hname⟩ := Table.mem_values_iff.mp ht
    obtain ⟨ht, hr⟩ := hg.types name t hname
    exact h.type ht hr
  simp only [Renaming.onFile, hmembers, himports, htypes]

omit hg in
theorem AgreeOn.target {target : Option TypeId} (ht : ∀ t, target = some t → pool.Sees f t) :
    target.map σ.type = target.map ρ.type := by
  cases target with
  | none => rfl
  | some t => exact congrArg some (h.type (ht t rfl).1 (ht t rfl).2)

include hw

theorem AgreeOn.onBlock {b : BlockId} (hb : pool.BlockOf f b) :
    σ.onBlock (pool.block b) = ρ.onBlock (pool.block b) := by
  have hf : pool.Reaches f (pool.block b).file := Reaches.of_eq hb.2
  have hheading : σ.heading (pool.block b).heading = ρ.heading (pool.block b).heading := by
    cases hh : (pool.block b).heading with
    | message name => rfl
    | extend name target =>
      refine congrArg (Heading.extend name) (h.target fun t ht => ?_)
      exact hg.refers (.extend hb (ht ▸ hh))
  have hparent : σ.scope (pool.block b).parent = ρ.scope (pool.block b).parent :=
    h.scope (hw.block_scope b hb.1).1.inRange ((hw.block_scope b hb.1).2 ▸ hf)
  have hmembers : σ.members (pool.block b).members = ρ.members (pool.block b).members :=
    h.members hw (s := .block b) hf
  have hfields : (pool.block b).fields.map σ.field = (pool.block b).fields.map ρ.field := by
    refine Table.map_congr_values fun d hd => ?_
    obtain ⟨hd, hblock⟩ := hw.mem_fields_iff.mp hd
    exact h.field d hd (by rwa [hblock])
  simp only [Renaming.onBlock, hheading, hparent, hmembers, hfields, h.file _ hf]

omit hg in
theorem AgreeOn.onEnum {e : EnumId} (he : pool.EnumOf f e) :
    σ.onEnum (pool.enum e) = ρ.onEnum (pool.enum e) := by
  have hf : pool.Reaches f (pool.enum e).file := Reaches.of_eq he.2
  have hparent : σ.scope (pool.enum e).parent = ρ.scope (pool.enum e).parent :=
    h.scope (hw.enum_scope e he.1).1.inRange ((hw.enum_scope e he.1).2 ▸ hf)
  simp only [Renaming.onEnum, hparent, h.file _ hf]

omit hw in
theorem AgreeOn.onField {d : FieldId} (hd : pool.FieldOf f d) :
    σ.onField (pool.field d) = ρ.onField (pool.field d) := by
  have htype : σ.fieldType (pool.field d).type = ρ.fieldType (pool.field d).type := by
    cases ht : (pool.field d).type with
    | scalar s => rfl
    | named name target =>
      refine congrArg (FieldType.named name) (h.target fun t htt => ?_)
      exact hg.refers (.field hd (htt ▸ ht))
  have hblock := h.block (pool.field d).block hd.2.1 (.of_eq hd.2.2)
  simp only [Renaming.onField, htype, hblock]

end agree

/-! ### Files that match -/

/-- The file `f` and its declarations are the same in two pools, up to a renaming that keeps their
order. -/
structure Matches (ρ : Renaming) (f : FileId) (pool other : Pool) : Prop where
  file : other.file (ρ.file f) = ρ.onFile (pool.file f)
  blocks : ∀ b, other.BlockOf (ρ.file f) b ↔ ∃ a, pool.BlockOf f a ∧ ρ.block a = b
  enums : ∀ e, other.EnumOf (ρ.file f) e ↔ ∃ a, pool.EnumOf f a ∧ ρ.enum a = e
  fields : ∀ d, other.FieldOf (ρ.file f) d ↔ ∃ a, pool.FieldOf f a ∧ ρ.field a = d
  block : ∀ b, pool.BlockOf f b → other.block (ρ.block b) = ρ.onBlock (pool.block b)
  enum : ∀ e, pool.EnumOf f e → other.enum (ρ.enum e) = ρ.onEnum (pool.enum e)
  field : ∀ d, pool.FieldOf f d → other.field (ρ.field d) = ρ.onField (pool.field d)
  block_lt : ∀ a b, pool.BlockOf f a → pool.BlockOf f b → a.index < b.index →
    (ρ.block a).index < (ρ.block b).index
  enum_lt : ∀ a b, pool.EnumOf f a → pool.EnumOf f b → a.index < b.index →
    (ρ.enum a).index < (ρ.enum b).index
  field_lt : ∀ a b, pool.FieldOf f a → pool.FieldOf f b → a.index < b.index →
    (ρ.field a).index < (ρ.field b).index

namespace Matches

theorem blockOf (h : Matches ρ f pool other) {b : BlockId} (hb : pool.BlockOf f b) :
    other.BlockOf (ρ.file f) (ρ.block b) := (h.blocks _).mpr ⟨b, hb, rfl⟩

theorem enumOf (h : Matches ρ f pool other) {e : EnumId} (he : pool.EnumOf f e) :
    other.EnumOf (ρ.file f) (ρ.enum e) := (h.enums _).mpr ⟨e, he, rfl⟩

theorem fieldOf (h : Matches ρ f pool other) {d : FieldId} (hd : pool.FieldOf f d) :
    other.FieldOf (ρ.file f) (ρ.field d) := (h.fields _).mpr ⟨d, hd, rfl⟩

theorem block_inj (h : Matches ρ f pool other) {a b : BlockId} (ha : pool.BlockOf f a)
    (hb : pool.BlockOf f b) : ρ.block a = ρ.block b ↔ a = b := by
  refine ⟨fun he => ?_, fun he => he ▸ rfl⟩
  rcases Nat.lt_trichotomy a.index b.index with hlt | heq | hlt
  · exact absurd (he ▸ h.block_lt a b ha hb hlt) (Nat.lt_irrefl _)
  · exact congrArg BlockId.mk heq
  · exact absurd (he ▸ h.block_lt b a hb ha hlt) (Nat.lt_irrefl _)

theorem enum_inj (h : Matches ρ f pool other) {a b : EnumId} (ha : pool.EnumOf f a)
    (hb : pool.EnumOf f b) : ρ.enum a = ρ.enum b ↔ a = b := by
  refine ⟨fun he => ?_, fun he => he ▸ rfl⟩
  rcases Nat.lt_trichotomy a.index b.index with hlt | heq | hlt
  · exact absurd (he ▸ h.enum_lt a b ha hb hlt) (Nat.lt_irrefl _)
  · exact congrArg EnumId.mk heq
  · exact absurd (he ▸ h.enum_lt b a hb ha hlt) (Nat.lt_irrefl _)

theorem field_inj (h : Matches ρ f pool other) {a b : FieldId} (ha : pool.FieldOf f a)
    (hb : pool.FieldOf f b) : ρ.field a = ρ.field b ↔ a = b := by
  refine ⟨fun he => ?_, fun he => he ▸ rfl⟩
  rcases Nat.lt_trichotomy a.index b.index with hlt | heq | hlt
  · exact absurd (he ▸ h.field_lt a b ha hb hlt) (Nat.lt_irrefl _)
  · exact congrArg FieldId.mk heq
  · exact absurd (he ▸ h.field_lt b a hb ha hlt) (Nat.lt_irrefl _)

/-- Every file matches itself. -/
theorem refl (f : FileId) (pool : Pool) : Matches Renaming.id f pool pool := by
  refine ⟨(Renaming.onFile_id _).symm, fun b => ?_, fun e => ?_, fun d => ?_,
    fun b _ => (Renaming.onBlock_id _).symm, fun e _ => (Renaming.onEnum_id _).symm,
    fun d _ => (Renaming.onField_id _).symm, fun _ _ _ _ h => h, fun _ _ _ _ h => h,
    fun _ _ _ _ h => h⟩
  · exact ⟨fun h => ⟨b, h, rfl⟩, fun ⟨a, h, e⟩ => e ▸ h⟩
  · exact ⟨fun h => ⟨e, h, rfl⟩, fun ⟨a, h, he⟩ => he ▸ h⟩
  · exact ⟨fun h => ⟨d, h, rfl⟩, fun ⟨a, h, e⟩ => e ▸ h⟩

/-- Both pools may be changed in other files. -/
theorem of_kept (h : Matches ρ f pool other) (hk : Kept f pool third)
    (hk' : Kept (ρ.file f) other fourth) : Matches ρ f third fourth where
  file := by rw [hk'.file, h.file, hk.file]
  blocks b := by simp only [hk'.blocks, h.blocks, hk.blocks]
  enums e := by simp only [hk'.enums, h.enums, hk.enums]
  fields d := by simp only [hk'.fields, h.fields, hk.fields]
  block b hb := by
    have hb := (hk.blocks b).mp hb
    rw [hk'.block _ (h.blockOf hb), h.block b hb, hk.block b hb]
  enum e he := by
    have he := (hk.enums e).mp he
    rw [hk'.enum _ (h.enumOf he), h.enum e he, hk.enum e he]
  field d hd := by
    have hd := (hk.fields d).mp hd
    rw [hk'.field _ (h.fieldOf hd), h.field d hd, hk.field d hd]
  block_lt a b ha hb := h.block_lt a b ((hk.blocks a).mp ha) ((hk.blocks b).mp hb)
  enum_lt a b ha hb := h.enum_lt a b ((hk.enums a).mp ha) ((hk.enums b).mp hb)
  field_lt a b ha hb := h.field_lt a b ((hk.fields a).mp ha) ((hk.fields b).mp hb)

/-- The renaming may be changed where the file mentions nothing. -/
theorem congr (h : Matches ρ f pool other) (hw : pool.WellFormed) (hg : pool.Grounded f)
    (ha : AgreeOn (pool.Reaches f) pool ρ σ) : Matches σ f pool other := by
  have hfile := ha.file f (.refl f)
  have hblock : ∀ b, pool.BlockOf f b → σ.block b = ρ.block b := fun b hb =>
    ha.block b hb.1 (.of_eq hb.2)
  have henum : ∀ e, pool.EnumOf f e → σ.enum e = ρ.enum e := fun e he =>
    ha.enum e he.1 (.of_eq he.2)
  have hfield : ∀ d, pool.FieldOf f d → σ.field d = ρ.field d := fun d hd =>
    ha.field d hd.1 (.of_eq hd.2.2)
  refine ⟨?_, fun b => ?_, fun e => ?_, fun d => ?_, fun b hb => ?_, fun e he => ?_, fun d hd => ?_,
    fun a b h₁ h₂ => ?_, fun a b h₁ h₂ => ?_, fun a b h₁ h₂ => ?_⟩
  · rw [hfile, h.file, ha.onFile hg hw]
  · rw [hfile, h.blocks]
    exact exists_congr fun a => and_congr_right fun h => by rw [hblock a h]
  · rw [hfile, h.enums]
    exact exists_congr fun a => and_congr_right fun h => by rw [henum a h]
  · rw [hfile, h.fields]
    exact exists_congr fun a => and_congr_right fun h => by rw [hfield a h]
  · rw [hblock b hb, h.block b hb, ha.onBlock hw hg hb]
  · rw [henum e he, h.enum e he, ha.onEnum hw he]
  · rw [hfield d hd, h.field d hd, ha.onField hg hd]
  · rw [hblock a h₁, hblock b h₂]
    exact h.block_lt a b h₁ h₂
  · rw [henum a h₁, henum b h₂]
    exact h.enum_lt a b h₁ h₂
  · rw [hfield a h₁, hfield b h₂]
    exact h.field_lt a b h₁ h₂

/-! ### Scopes -/

theorem scope_inj (h : Matches ρ f pool other) {s t : Scope} (hs : pool.InRange s)
    (hsf : pool.scopeFile s = f) (ht : pool.InRange t) (htf : pool.scopeFile t = f) :
    ρ.scope s = ρ.scope t ↔ s = t := by
  cases s with
  | file i =>
    cases t with
    | file j =>
      cases hsf
      cases htf
      exact iff_of_true rfl rfl
    | block b => simp [Renaming.scope]
  | block a =>
    cases t with
    | file j => simp [Renaming.scope]
    | block b =>
      simp only [Renaming.scope, Scope.block.injEq]
      exact h.block_inj ⟨hs, hsf⟩ ⟨ht, htf⟩

theorem inRange (h : Matches ρ f pool other) (hf : other.HasFile (ρ.file f)) {s : Scope}
    (hs : pool.InRange s) (hsf : pool.scopeFile s = f) :
    other.InRange (ρ.scope s) ∧ other.scopeFile (ρ.scope s) = ρ.file f := by
  cases s with
  | file i =>
    cases hsf
    exact ⟨hf, rfl⟩
  | block b =>
    have hb := h.blockOf ⟨hs, hsf⟩
    exact ⟨hb.1, hb.2⟩

theorem hasScope (h : Matches ρ f pool other) (hf : other.HasFile (ρ.file f)) {s : Scope}
    (hs : pool.HasScope s) (hsf : pool.scopeFile s = f) :
    other.HasScope (ρ.scope s) ∧ other.scopeFile (ρ.scope s) = ρ.file f := by
  cases s with
  | file i =>
    cases hsf
    exact ⟨hf, rfl⟩
  | block b =>
    have hb := h.blockOf ⟨hs.1, hsf⟩
    refine ⟨⟨hb.1, ?_⟩, hb.2⟩
    rw [h.block b ⟨hs.1, hsf⟩, Renaming.isExtend_onBlock]
    exact hs.2

theorem members (h : Matches ρ f pool other) {s : Scope} (hs : pool.InRange s)
    (hsf : pool.scopeFile s = f) : other.members (ρ.scope s) = ρ.members (pool.members s) := by
  cases s with
  | file i =>
    cases hsf
    exact congrArg File.members h.file
  | block b => exact congrArg Block.members (h.block b ⟨hs, hsf⟩)

theorem scopeName (h : Matches ρ f pool other) {s : Scope} (hs : pool.InRange s)
    (hsf : pool.scopeFile s = f) : other.scopeName (ρ.scope s) = pool.scopeName s := by
  cases s with
  | file i =>
    cases hsf
    exact (congrArg File.packageName h.file).trans (Renaming.packageName_onFile _)
  | block b =>
    exact (congrArg Block.fullName (h.block b ⟨hs, hsf⟩)).trans (Renaming.fullName_onBlock _)

theorem scopeTitle (h : Matches ρ f pool other) {s : Scope} (hs : pool.InRange s)
    (hsf : pool.scopeFile s = f) : other.scopeTitle (ρ.scope s) = pool.scopeTitle s := by
  cases s with
  | file i =>
    cases hsf
    show (other.file (ρ.file i)).name = (pool.file i).name
    rw [show other.file (ρ.file i) = _ from h.file]
    rfl
  | block b => exact (congrArg Block.title (h.block b ⟨hs, hsf⟩)).trans (Renaming.title_onBlock _)

theorem typeName (h : Matches ρ f pool other) {t : TypeId} (ht : pool.HasType t)
    (htf : pool.typeFile t = f) : other.typeName (ρ.type t) = pool.typeName t := by
  cases t with
  | message b =>
    exact (congrArg Block.fullName (h.block b ⟨ht.1, htf⟩)).trans (Renaming.fullName_onBlock _)
  | enum e =>
    show (other.enum (ρ.enum e)).fullName = (pool.enum e).fullName
    rw [h.enum e ⟨ht, htf⟩]
    rfl

end Matches

end Pool

end ProtoSchema
