import ProtoSchema.Descriptor.OfPool
import ProtoSchema.Pool.Statements
import ProtoSchema.Proofs.Renaming.Lookup
import ProtoSchema.Proofs.Renaming.Walks

/-! # What is put out of pools that match

Source text and descriptor name declarations, they do not say where these stand.  So a file has the
same source and the same descriptor in pools that are alike (`Alike.source`, `Alike.descriptor`). -/

namespace ProtoSchema.Pool

variable {pool other : Pool} {ρ : Renaming} {f : FileId}

theorem importPlaces_map (imports : List Import) (kind : ImportKind) :
    importPlaces (imports.map ρ.imported) kind = importPlaces imports kind := by
  simp only [importPlaces, List.zipIdx_map, List.filter_map, List.map_map]
  rfl

namespace Alike

variable (h : Alike ρ f pool other)
include h

/-! ### Names of types -/

theorem typeName {t : TypeId} (ht : pool.Sees f t) :
    other.typeName (ρ.type t) = pool.typeName t :=
  (h.matched _ ht.2).typeName ht.1 rfl

theorem boundName {name : TypeName} {target : Option TypeId}
    (ht : ∀ t, target = some t → pool.Sees f t) :
    other.boundName name (target.map ρ.type) = pool.boundName name target := by
  cases target with
  | none => rfl
  | some t =>
    show other.absoluteName (ρ.type t) = pool.absoluteName t
    simp only [Pool.absoluteName, h.typeName (ht t rfl)]

theorem boundType {d : FieldId} (hd : pool.FieldOf f d) :
    other.boundType (ρ.fieldType (pool.field d).type) = pool.boundType (pool.field d).type := by
  cases ht : (pool.field d).type with
  | scalar s => rfl
  | named name target =>
    refine congrArg WrittenType.named (h.boundName fun t htt => ?_)
    exact (h.grounded f (.refl f)).refers (.field hd (htt ▸ ht))

/-! ### Statements -/

theorem fieldStatements {d : FieldId} (hd : pool.FieldOf f d) :
    other.fieldStatements (ρ.field d) = pool.fieldStatements d := by
  have htype := h.boundType hd
  simp only [Pool.fieldStatements, h.own.field d hd, Renaming.onField, htype]

theorem fieldsStatements {b : BlockId} (hb : pool.BlockOf f b) :
    other.fieldsStatements (ρ.block b) = pool.fieldsStatements b := by
  simp only [Pool.fieldsStatements, h.own.block b hb, Renaming.onBlock, Table.values_map,
    List.flatMap_map]
  exact List.flatMap_congr fun d hd => h.fieldStatements (h.left.fieldOf_of_mem_fields hb hd)

theorem enumStatements {e : EnumId} (he : pool.EnumOf f e) :
    other.enumStatements (ρ.enum e) = pool.enumStatements e := by
  simp only [Pool.enumStatements, h.own.enum e he]
  rfl

theorem extendStatements {b : BlockId} (hb : pool.BlockOf f b) :
    other.extendStatements (ρ.block b) = pool.extendStatements b := by
  simp only [Pool.extendStatements, h.fieldsStatements hb, h.own.block b hb, Renaming.onBlock]
  cases hh : (pool.block b).heading with
  | message name => rfl
  | extend type target =>
    simp only [Renaming.heading]
    rw [h.boundName fun t ht => (h.grounded f (.refl f)).refers (.extend hb (ht ▸ hh))]

theorem enumsStatements {s : Scope} (hsf : pool.scopeFile s = f) :
    ((pool.members s).enums.values.map ρ.enum).flatMap other.enumStatements =
      (pool.members s).enums.values.flatMap pool.enumStatements := by
  rw [List.flatMap_map]
  exact List.flatMap_congr fun e he => h.enumStatements (h.left.enumOf_of_mem_enums hsf he)

theorem extendsStatements {s : Scope} (hsf : pool.scopeFile s = f) :
    ((pool.members s).extendBlocks.map ρ.block).flatMap other.extendStatements =
      (pool.members s).extendBlocks.flatMap pool.extendStatements := by
  rw [List.flatMap_map]
  exact List.flatMap_congr fun b hb =>
    h.extendStatements (h.left.blockOf_of_mem_extendBlocks hsf hb)

theorem messageStatements {b : BlockId} (hb : pool.BlockOf f b) :
    other.messageStatements (ρ.block b) = pool.messageStatements b := by
  refine h.own.foldMessage (c := id) h.left h.right (fun a ha nested => ?_) hb
  have henums := h.enumsStatements (s := .block a) ha.2
  have hextends := h.extendsStatements (s := .block a) ha.2
  have hmembers : (other.block (ρ.block a)).members = ρ.members (pool.block a).members := by
    rw [h.own.block a ha]
    rfl
  have hname : (other.block (ρ.block a)).name = (pool.block a).name := by
    rw [h.own.block a ha, Renaming.name_onBlock]
  have hoptions : (other.block (ρ.block a)).options = (pool.block a).options := by
    rw [h.own.block a ha]
    rfl
  have hranges : rangeStatements (other.block (ρ.block a)) = rangeStatements (pool.block a) := by
    rw [h.own.block a ha]
    rfl
  simp only [Pool.messageAround, List.map_id, id, hname, hoptions, hranges, hmembers,
    h.fieldsStatements ha, Renaming.members, Table.values_map]
  rw [show (pool.block a).members = pool.members (.block a) from rfl, henums, hextends]

theorem fileName {g : FileId} (hg : pool.Reaches f g) :
    (other.file (ρ.file g)).name = (pool.file g).name := by
  rw [(h.matched g hg).file]
  rfl

/-- The names of the imports. -/
theorem importNames {i : Import} (hi : i ∈ (pool.file f).imports.values) :
    (other.file (ρ.imported i).file).name = (pool.file i.file).name :=
  h.fileName (.single ⟨i, hi, rfl⟩)

theorem headStatements : other.headStatements (other.file (ρ.file f)) =
    pool.headStatements (pool.file f) := by
  simp only [Pool.headStatements, h.own.file, Renaming.onFile, Table.values_map, List.map_map]
  congr 2
  refine List.map_congr_left fun i hi => ?_
  show Event.importFile i.kind (.unplaced (other.file (ρ.imported i).file).name) = _
  rw [h.importNames hi]

/-- A file is declared by the same statements. -/
theorem statements : other.statements (ρ.file f) = pool.statements f := by
  have hmembers : (other.file (ρ.file f)).members = ρ.members (pool.file f).members := by
    rw [h.own.file]
    rfl
  have henums := h.enumsStatements (s := .file f) rfl
  have hextends := h.extendsStatements (s := .file f) rfl
  simp only [Pool.statements, h.headStatements, hmembers, Renaming.members, Table.values_map]
  rw [show (pool.file f).members = pool.members (.file f) from rfl, henums, hextends,
    List.flatMap_map]
  congr 2
  exact List.flatMap_congr fun b hb =>
    h.messageStatements (h.left.blockOf_of_mem_messages (s := .file f) rfl hb)

/-- A file has the same source text. -/
theorem source : other.source (ρ.file f) = pool.source f :=
  congrArg (Event.print 0) h.statements

/-! ### Descriptors -/

theorem fieldTypeDescriptor {d : FieldId} (hd : pool.FieldOf f d) :
    other.fieldTypeDescriptor (ρ.fieldType (pool.field d).type) =
      pool.fieldTypeDescriptor (pool.field d).type := by
  cases ht : (pool.field d).type with
  | scalar s => rfl
  | named name target =>
    cases target with
    | none => rfl
    | some t =>
      have hname := h.typeName ((h.grounded f (.refl f)).refers (.field hd ht))
      cases t with
      | message b => exact congrArg Descriptor.FieldType.message hname
      | enum e => exact congrArg Descriptor.FieldType.enum hname

theorem fieldDescriptor {d : FieldId} (hd : pool.FieldOf f d) (owner : DottedName) :
    other.fieldDescriptor owner (other.field (ρ.field d)) =
      pool.fieldDescriptor owner (pool.field d) := by
  have htype := h.fieldTypeDescriptor hd
  simp only [Pool.fieldDescriptor, h.own.field d hd, Renaming.onField, htype]

theorem mapEntry? {d : FieldId} (hd : pool.FieldOf f d) :
    other.mapEntry? (other.field (ρ.field d)) = pool.mapEntry? (pool.field d) := by
  have htype := h.fieldTypeDescriptor hd
  simp only [Pool.mapEntry?, Pool.mapEntry, h.own.field d hd, Renaming.onField, htype]

theorem enumDescriptor {e : EnumId} (he : pool.EnumOf f e) :
    other.enumDescriptor (ρ.enum e) = pool.enumDescriptor e := by
  simp only [Pool.enumDescriptor, h.own.enum e he]
  rfl

/-- The name of the message that the fields of a block belong to. -/
theorem ownerName {b : BlockId} (hb : pool.BlockOf f b) :
    (other.owner? (ρ.block b)).map (fun m => (other.block m).fullName) =
      (pool.owner? b).map fun m => (pool.block m).fullName := by
  simp only [Pool.owner?, h.own.block b hb, Renaming.onBlock]
  cases hh : (pool.block b).heading with
  | message name =>
    simp only [Renaming.heading, Option.map_some, h.own.block b hb, Renaming.fullName_onBlock]
  | extend type target =>
    cases target with
    | none => rfl
    | some t =>
      have hname := h.typeName ((h.grounded f (.refl f)).refers (.extend hb hh))
      cases t with
      | message m => exact congrArg some hname
      | enum e => rfl

theorem extensionDescriptors {b : BlockId} (hb : pool.BlockOf f b) :
    other.extensionDescriptors (ρ.block b) = pool.extensionDescriptors b := by
  have hvalues : (other.block (ρ.block b)).fields.values =
      (pool.block b).fields.values.map ρ.field := by
    rw [h.own.block b hb]
    exact Table.values_map ..
  simp only [Pool.extensionDescriptors, h.ownerName hb, hvalues, List.map_map]
  refine List.map_congr_left fun d hd => ?_
  have hfield := h.fieldDescriptor (h.left.fieldOf_of_mem_fields hb hd) []
  simp only [Function.comp, hfield]

theorem enumDescriptors {s : Scope} (hsf : pool.scopeFile s = f) :
    ((pool.members s).enums.values.map ρ.enum).map other.enumDescriptor =
      (pool.members s).enums.values.map pool.enumDescriptor := by
  rw [List.map_map]
  exact List.map_congr_left fun e he => h.enumDescriptor (h.left.enumOf_of_mem_enums hsf he)

theorem extensionsDescriptors {s : Scope} (hsf : pool.scopeFile s = f) :
    ((pool.members s).extendBlocks.map ρ.block).flatMap other.extensionDescriptors =
      (pool.members s).extendBlocks.flatMap pool.extensionDescriptors := by
  rw [List.flatMap_map]
  exact List.flatMap_congr fun b hb =>
    h.extensionDescriptors (h.left.blockOf_of_mem_extendBlocks hsf hb)

theorem fieldDescriptors {b : BlockId} (hb : pool.BlockOf f b) (owner : DottedName) :
    (((pool.block b).fields.values.map ρ.field).map other.field).map (other.fieldDescriptor owner) =
      ((pool.block b).fields.values.map pool.field).map (pool.fieldDescriptor owner) := by
  simp only [List.map_map]
  exact List.map_congr_left fun d hd =>
    h.fieldDescriptor (h.left.fieldOf_of_mem_fields hb hd) owner

theorem mapEntries {b : BlockId} (hb : pool.BlockOf f b) :
    (((pool.block b).fields.values.map ρ.field).map other.field).filterMap other.mapEntry? =
      ((pool.block b).fields.values.map pool.field).filterMap pool.mapEntry? := by
  simp only [List.map_map, List.filterMap_map]
  exact List.filterMap_congr fun d hd => h.mapEntry? (h.left.fieldOf_of_mem_fields hb hd)

theorem messageDescriptor {b : BlockId} (hb : pool.BlockOf f b) :
    other.messageDescriptor (ρ.block b) = pool.messageDescriptor b := by
  refine h.own.foldMessage (c := id) h.left h.right (fun a ha nested => ?_) hb
  have henums := h.enumDescriptors (s := .block a) ha.2
  have hextends := h.extensionsDescriptors (s := .block a) ha.2
  have hmembers : (ρ.onBlock (pool.block a)).members = ρ.members (pool.members (.block a)) := rfl
  have hvalues : (ρ.onBlock (pool.block a)).fields.values =
      (pool.block a).fields.values.map ρ.field := Table.values_map ..
  simp only [Pool.messageDescriptorAround, h.own.block a ha, Renaming.name_onBlock,
    Renaming.fullName_onBlock, hmembers, hvalues, h.fieldDescriptors ha, h.mapEntries ha,
    Renaming.members, Table.values_map, henums, hextends, List.map_id, id]
  rfl

/-- A file has the same descriptor. -/
theorem descriptor : other.descriptor (ρ.file f) = pool.descriptor f := by
  have henums := h.enumDescriptors (s := .file f) rfl
  have hextends := h.extensionsDescriptors (s := .file f) rfl
  have hmembers : (ρ.onFile (pool.file f)).members = ρ.members (pool.members (.file f)) := rfl
  have himports : (ρ.onFile (pool.file f)).imports.values =
      (pool.file f).imports.values.map ρ.imported := Table.values_map ..
  have hnames : ((pool.file f).imports.values.map ρ.imported).map
      (fun i => (other.file i.file).name) =
        (pool.file f).imports.values.map fun i => (pool.file i.file).name := by
    rw [List.map_map]
    exact List.map_congr_left fun i hi => h.importNames hi
  have hmessages : ((pool.members (.file f)).messages.values.map ρ.block).map
      other.messageDescriptor =
        (pool.members (.file f)).messages.values.map pool.messageDescriptor := by
    rw [List.map_map]
    exact List.map_congr_left fun b hb =>
      h.messageDescriptor (h.left.blockOf_of_mem_messages (s := .file f) rfl hb)
  simp only [Pool.descriptor, h.own.file, hmembers, himports, hnames, Renaming.members,
    Table.values_map, henums, hextends, hmessages, importPlaces_map]
  rfl

end Alike

end ProtoSchema.Pool
