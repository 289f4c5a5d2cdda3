import ProtoSchema.Descriptor.OfPool
import ProtoSchema.Proofs.Pool.Legibility
import ProtoSchema.Proofs.Pool.Outline

/-! # What descriptors declare

A descriptor of a file declares messages and enums under absolute names, and holds extensions
(`Descriptor.File.Declares`, `DeclaresEnum`, `HoldsExtension`).  The descriptor of a file of a pool declares
its messages and enums under their full names and holds its extensions (`declares_message`,
`declares_enum`, `holds_extension`), so nothing of the file is left out (`exports_descriptor`), and besides
the messages of the file it declares nothing but entry messages of map fields (`of_declares`). -/

namespace ProtoSchema

namespace Descriptor

/-- The absolute name of the package of a file, empty if it has none. -/
def File.root (file : File) : String := (file.package.map ("." ++ ·)).getD ""

/-- The file declares a message under an absolute name, directly or in a message. -/
inductive File.Declares (file : File) : String → Message → Prop
  | top {m} (mem : m ∈ file.messages) : Declares file (file.root ++ "." ++ m.name) m
  | nested {name outer m} (declared : Declares file name outer) (mem : m ∈ outer.nestedTypes) :
      Declares file (name ++ "." ++ m.name) m

/-- The file declares an enum under an absolute name, directly or in a message. -/
inductive File.DeclaresEnum (file : File) : String → Enum → Prop
  | top {e} (mem : e ∈ file.enums) : DeclaresEnum file (file.root ++ "." ++ e.name) e
  | nested {name outer e} (declared : file.Declares name outer) (mem : e ∈ outer.enumTypes) :
      DeclaresEnum file (name ++ "." ++ e.name) e

/-- The file holds an extension, directly or in a message. -/
inductive File.HoldsExtension (file : File) : Field → Prop
  | top {d} (mem : d ∈ file.extensions) : HoldsExtension file d
  | nested {name outer d} (declared : file.Declares name outer) (mem : d ∈ outer.extensions) :
      HoldsExtension file d

theorem absolute_append {scope : DottedName} (h : scope ≠ []) (n : String) :
    absolute (scope ++ [n]) = absolute scope ++ "." ++ n := by
  simp only [absolute, TypeName.text, DottedName.text, if_true]
  rw [String.intercalate_append_of_ne_nil h (List.cons_ne_nil _ _)]
  simp only [String.intercalate_singleton, String.append_assoc]

end Descriptor

namespace Pool

open Descriptor (absolute)

variable {pool : Pool} {f : FileId} {b : BlockId}

/-! ### Single descriptors -/

namespace WellFormed

variable (hw : pool.WellFormed)
include hw

theorem messageDescriptor_eq (b : BlockId) : pool.messageDescriptor b =
    pool.messageDescriptorAround b ((pool.members (.block b)).messages.values.map pool.messageDescriptor) :=
  hw.foldMessage_eq _ b

theorem messageDescriptor_name (b : BlockId) :
    (pool.messageDescriptor b).name = (pool.block b).name := by
  rw [hw.messageDescriptor_eq]
  rfl

theorem messageDescriptor_isMapEntry (b : BlockId) :
    (pool.messageDescriptor b).isMapEntry = false := by
  rw [hw.messageDescriptor_eq]
  rfl

theorem messageDescriptor_extensionRanges (b : BlockId) : (pool.messageDescriptor b).extensionRanges =
    (pool.block b).extensionRanges.map NumberRange.halfOpen := by
  rw [hw.messageDescriptor_eq]
  rfl

theorem mem_enumTypes_iff {m : Descriptor.Enum} : m ∈ (pool.messageDescriptor b).enumTypes ↔
    ∃ e ∈ (pool.members (.block b)).enums.values, pool.enumDescriptor e = m := by
  rw [hw.messageDescriptor_eq]
  exact List.mem_map

theorem mem_fieldDescriptors_iff {d : Descriptor.Field} : d ∈ (pool.messageDescriptor b).fields ↔
    ∃ g ∈ (pool.block b).fields.values,
      pool.fieldDescriptor (pool.block b).fullName (pool.field g) = d := by
  rw [hw.messageDescriptor_eq]
  simp only [messageDescriptorAround, List.map_map]
  exact List.mem_map

theorem mem_extensions_iff {d : Descriptor.Field} : d ∈ (pool.messageDescriptor b).extensions ↔
    ∃ x ∈ (pool.members (.block b)).extendBlocks, d ∈ pool.extensionDescriptors x := by
  rw [hw.messageDescriptor_eq]
  exact List.mem_flatMap

/-- The nested types are the nested messages and the entry messages of the map fields. -/
theorem mem_nestedTypes_iff {m : Descriptor.Message} : m ∈ (pool.messageDescriptor b).nestedTypes ↔
    (∃ a ∈ (pool.members (.block b)).messages.values, pool.messageDescriptor a = m) ∨
      ∃ g ∈ (pool.block b).fields.values, ∃ key, (pool.field g).form = .map key ∧
        pool.mapEntry (pool.field g) key = m := by
  rw [hw.messageDescriptor_eq]
  simp only [messageDescriptorAround, List.mem_append, List.mem_map, List.mem_filterMap,
    exists_exists_and_eq_and]
  refine or_congr_right (exists_congr fun g => and_congr_right fun _ => ?_)
  unfold mapEntry?
  cases (pool.field g).form <;> simp

end WellFormed

/-! ### Names -/

theorem absolute_root (hl : pool.Legible) (hf : pool.HasFile f) (n : String) :
    absolute ((pool.file f).packageName ++ [n]) = (pool.descriptor f).root ++ "." ++ n := by
  have hroot : (pool.descriptor f).root =
      (((pool.file f).package.map fun p => p.value.text).map ("." ++ ·)).getD "" := rfl
  rw [hroot, File.packageName]
  cases hp : (pool.file f).package with
  | none => rfl
  | some p => exact Descriptor.absolute_append ((hl.file f hf).package p hp).ne_nil n

theorem WellFormed.fullName_ne_nil (hw : pool.WellFormed) (hb : pool.HasBlock b)
    (hx : (pool.block b).isExtend = false) : (pool.block b).fullName ≠ [] := by
  obtain ⟨n, hn⟩ := hw.message_name b _ hb (heading_eq_message_iff.mpr ⟨hx, rfl⟩)
  rw [hn]
  exact List.append_ne_nil_of_right_ne_nil _ (List.cons_ne_nil _ _)

theorem WellFormed.fullName_eq (hw : pool.WellFormed) (hb : pool.HasBlock b)
    (hx : (pool.block b).isExtend = false) :
    (pool.block b).fullName = pool.scopeName (pool.block b).parent ++ [(pool.messageDescriptor b).name] := by
  rw [hw.messageDescriptor_name]
  exact hw.fullName_concat hb hx

theorem WellFormed.enum_fullName_eq (hw : pool.WellFormed) {e : EnumId} (he : pool.HasEnum e) :
    (pool.enum e).fullName = pool.scopeName (pool.enum e).parent ++ [(pool.enumDescriptor e).name] :=
  hw.enum_fullName_concat he

section declared

variable (hw : pool.WellFormed) (hl : pool.Legible)
include hw hl

/-- The descriptor of a file declares the messages of the file under their full names. -/
theorem declares_message (hb : pool.BlockOf f b) (hx : (pool.block b).isExtend = false) :
    (pool.descriptor f).Declares (absolute (pool.block b).fullName) (pool.messageDescriptor b) := by
  have hf := hw.hasFile_of_blockOf hb
  induction hi : b.index using Nat.strongRecOn generalizing b with
  | ind n ih =>
    have hmem : b ∈ (pool.members (pool.block b).parent).messages.values :=
      hw.mem_messages_iff.mpr ⟨hb.1, hx, rfl⟩
    rw [hw.fullName_eq hb.1 hx]
    obtain hp | ⟨p, hp, hpf, hpx, hlt⟩ := hw.parent_of_blockOf hb
    · rw [hp] at hmem ⊢
      rw [show pool.scopeName (.file f) = (pool.file f).packageName from rfl, absolute_root hl hf]
      exact .top (List.mem_map_of_mem hmem)
    · rw [hp] at hmem ⊢
      rw [show pool.scopeName (.block p) = (pool.block p).fullName from rfl,
        Descriptor.absolute_append (hw.fullName_ne_nil hpf.1 hpx)]
      exact (ih p.index (hi ▸ hlt) hpf hpx rfl).nested (hw.mem_nestedTypes_iff.mpr (.inl ⟨b, hmem, rfl⟩))

/-- The descriptor of a file declares the enums of the file under their full names. -/
theorem declares_enum {e : EnumId} (he : pool.EnumOf f e) :
    (pool.descriptor f).DeclaresEnum (absolute (pool.enum e).fullName) (pool.enumDescriptor e) := by
  have hf := hw.hasFile_of_enumOf he
  have hmem : e ∈ (pool.members (pool.enum e).parent).enums.values := hw.mem_enums_iff.mpr ⟨he.1, rfl⟩
  obtain ⟨hscope, hfile⟩ := hw.enum_scope e he.1
  rw [hw.enum_fullName_eq he.1]
  cases hp : (pool.enum e).parent with
  | file i =>
    rw [hp] at hmem hfile
    obtain rfl : i = f := hfile.trans he.2
    rw [show pool.scopeName (.file i) = (pool.file i).packageName from rfl, absolute_root hl hf]
    exact .top (List.mem_map_of_mem hmem)
  | block p =>
    rw [hp] at hmem hfile hscope
    rw [show pool.scopeName (.block p) = (pool.block p).fullName from rfl,
      Descriptor.absolute_append (hw.fullName_ne_nil hscope.1 hscope.2)]
    exact .nested (declares_message hw hl ⟨hscope.1, hfile.trans he.2⟩ hscope.2)
      (hw.mem_enumTypes_iff.mpr ⟨e, hmem, rfl⟩)

/-- The descriptor of a file holds the extensions of the file. -/
theorem holds_extension {x : BlockId} (hx : pool.BlockOf f x) (hextend : (pool.block x).isExtend = true)
    {d : Descriptor.Field} (hd : d ∈ pool.extensionDescriptors x) :
    (pool.descriptor f).HoldsExtension d := by
  have hmem : x ∈ (pool.members (pool.block x).parent).extendBlocks :=
    (hw.extend_iff _ x).mpr ⟨hx.1, rfl, hextend⟩
  obtain hp | ⟨p, hp, hpf, hpx, -⟩ := hw.parent_of_blockOf hx
  · rw [hp] at hmem
    exact .top (List.mem_flatMap.mpr ⟨x, hmem, hd⟩)
  · rw [hp] at hmem
    exact .nested (declares_message hw hl hpf hpx) (hw.mem_extensions_iff.mpr ⟨x, hmem, hd⟩)

/-- A message that the descriptor of a file declares is a message of the file, or the entry message of a
map field of one, under its full name. -/
theorem of_declares (hf : pool.HasFile f) {name : String} {m : Descriptor.Message}
    (h : (pool.descriptor f).Declares name m) :
    ∃ b, pool.BlockOf f b ∧ (pool.block b).isExtend = false ∧
      (name = absolute (pool.block b).fullName ∧ m = pool.messageDescriptor b ∨
        ∃ g ∈ (pool.block b).fields.values, ∃ key, (pool.field g).form = .map key ∧
          m = pool.mapEntry (pool.field g) key) := by
  have hmember : ∀ {s b}, b ∈ (pool.members s).messages.values → pool.scopeFile s = f →
      pool.BlockOf f b ∧ (pool.block b).isExtend = false ∧ (pool.block b).parent = s := by
    intro s b hmem hs
    obtain ⟨hb, hx, hp⟩ := hw.mem_messages_iff.mp hmem
    exact ⟨⟨hb, (hw.block_scope b hb).2.symm.trans (hp ▸ hs)⟩, hx, hp⟩
  induction h with
  | top mem =>
    obtain ⟨b, hmem, rfl⟩ := List.mem_map.mp mem
    obtain ⟨hb, hx, hp⟩ := hmember (s := .file f) hmem rfl
    refine ⟨b, hb, hx, .inl ⟨?_, rfl⟩⟩
    rw [hw.fullName_eq hb.1 hx, hp, ← absolute_root hl hf]
    rfl
  | @nested name outer m declared mem ih =>
    obtain ⟨a, ha, hax, ⟨rfl, rfl⟩ | ⟨g, -, key, -, rfl⟩⟩ := ih
    · rcases hw.mem_nestedTypes_iff.mp mem with ⟨b, hmem, rfl⟩ | ⟨g, hg, key, hkey, rfl⟩
      · obtain ⟨hb, hx, hp⟩ := hmember (s := .block a) hmem ha.2
        refine ⟨b, hb, hx, .inl ⟨?_, rfl⟩⟩
        rw [hw.fullName_eq hb.1 hx, hp, ← Descriptor.absolute_append (hw.fullName_ne_nil ha.1 hax)]
        rfl
      · exact ⟨a, ha, hax, .inr ⟨g, hg, key, hkey, rfl⟩⟩
    · -- nothing is nested in an entry message
      cases mem

/-- An enum that the descriptor of a file declares is an enum of the file. -/
theorem of_declaresEnum (hf : pool.HasFile f) {name : String} {E : Descriptor.Enum}
    (h : (pool.descriptor f).DeclaresEnum name E) : ∃ e, pool.EnumOf f e ∧ pool.enumDescriptor e = E := by
  have hmember : ∀ {s e}, e ∈ (pool.members s).enums.values → pool.scopeFile s = f → pool.EnumOf f e := by
    intro s e hmem hs
    obtain ⟨he, hp⟩ := hw.mem_enums_iff.mp hmem
    exact ⟨he, (hw.enum_scope e he).2.symm.trans (hp ▸ hs)⟩
  cases h with
  | top mem =>
    obtain ⟨e, hmem, rfl⟩ := List.mem_map.mp mem
    exact ⟨e, hmember (s := .file f) hmem rfl, rfl⟩
  | nested declared mem =>
    obtain ⟨b, hb, -, ⟨-, rfl⟩ | ⟨g, -, key, -, rfl⟩⟩ := of_declares hw hl hf declared
    · obtain ⟨e, hmem, rfl⟩ := hw.mem_enumTypes_iff.mp mem
      exact ⟨e, hmember (s := .block b) hmem hb.2, rfl⟩
    · cases mem

/-- An extension in the descriptor of a file comes from an extend block of the file. -/
theorem of_holdsExtension (hf : pool.HasFile f) {d : Descriptor.Field}
    (h : (pool.descriptor f).HoldsExtension d) :
    ∃ x, pool.BlockOf f x ∧ (pool.block x).isExtend = true ∧ d ∈ pool.extensionDescriptors x := by
  have hextend : ∀ {s x}, x ∈ (pool.members s).extendBlocks → pool.scopeFile s = f →
      pool.BlockOf f x ∧ (pool.block x).isExtend = true := by
    intro s x hmem hs
    obtain ⟨hx, hp, hext⟩ := (hw.extend_iff s x).mp hmem
    exact ⟨⟨hx, (hw.block_scope x hx).2.symm.trans (hp ▸ hs)⟩, hext⟩
  cases h with
  | top mem =>
    obtain ⟨x, hmem, hd⟩ := List.mem_flatMap.mp mem
    obtain ⟨hx, hext⟩ := hextend (s := .file f) hmem rfl
    exact ⟨x, hx, hext, hd⟩
  | nested declared mem =>
    obtain ⟨b, hb, -, ⟨-, rfl⟩ | ⟨g, -, key, -, rfl⟩⟩ := of_declares hw hl hf declared
    · obtain ⟨x, hmem, hd⟩ := hw.mem_extensions_iff.mp mem
      obtain ⟨hx, hext⟩ := hextend (s := .block b) hmem hb.2
      exact ⟨x, hx, hext, hd⟩
    · cases mem

end declared

/-! ### All that is declared -/

/-- A field of a descriptor has the name and the number of the field `g`, and the type of a plain field: a
scalar type, or the full name of the type that it is bound to. -/
structure ExportsField (pool : Pool) (g : FieldId) (d : Descriptor.Field) : Prop where
  name : d.name = (pool.field g).name.value
  number : d.number = (pool.field g).number.value
  scalar : ∀ label s, (pool.field g).form = .plain label → (pool.field g).type = .scalar s →
    d.type = .scalar s
  bound : ∀ label name t, (pool.field g).form = .plain label → (pool.field g).type = .named name (some t) →
    d.type.name? = some (absolute (pool.typeName t))

/-- The descriptor of a message has the fields, ranges and names of the message `b`, one by one, and the
entry messages of its map fields. -/
structure ExportsMessage (pool : Pool) (b : BlockId) (m : Descriptor.Message) : Prop where
  written : m.isMapEntry = false
  fields : List.Forall₂ pool.ExportsField (pool.block b).fields.values m.fields
  entries : ∀ g ∈ (pool.block b).fields.values, ∀ key, (pool.field g).form = .map key →
    pool.mapEntry (pool.field g) key ∈ m.nestedTypes
  extensionRanges : m.extensionRanges = (pool.block b).extensionRanges.map NumberRange.halfOpen
  reservedRanges : m.reservedRanges = (pool.block b).reservedRanges.map NumberRange.halfOpen
  reservedNames : m.reservedNames = (pool.block b).reservedNames

/-- The descriptor of a file has all that the file `f` declares, under full names. -/
structure Exports (pool : Pool) (f : FileId) (file : Descriptor.File) : Prop where
  dependencies : file.dependencies = (pool.file f).imports.values.map fun i => (pool.file i.file).name
  message : ∀ b, pool.BlockOf f b → (pool.block b).isExtend = false →
    ∃ m, file.Declares (absolute (pool.block b).fullName) m ∧ pool.ExportsMessage b m
  enum : ∀ e, pool.EnumOf f e → ∃ E, file.DeclaresEnum (absolute (pool.enum e).fullName) E ∧
    E.values = (pool.enum e).values.entries.map fun v => (v.2.name.value, v.1)
  extension : ∀ x, pool.BlockOf f x → (pool.block x).isExtend = true → ∀ g ∈ (pool.block x).fields.values,
    ∃ d, file.HoldsExtension d ∧ pool.ExportsField g d ∧
      ∀ m, pool.owner? x = some m → d.extendee = some (pool.block m).fullName

theorem exportsField_fieldDescriptor (owner : DottedName) (g : FieldId) :
    pool.ExportsField g (pool.fieldDescriptor owner (pool.field g)) where
  name := rfl
  number := rfl
  scalar label s hform htype := by simp only [fieldDescriptor, hform, htype, fieldTypeDescriptor]
  bound label name t hform htype := by
    simp only [fieldDescriptor, hform, htype]
    cases t <;> rfl

theorem WellFormed.exportsMessage (hw : pool.WellFormed) (b : BlockId) :
    pool.ExportsMessage b (pool.messageDescriptor b) := by
  refine ⟨hw.messageDescriptor_isMapEntry b, ?_, fun g hg key hkey => ?_,
    hw.messageDescriptor_extensionRanges b, ?_, ?_⟩
  · rw [hw.messageDescriptor_eq]
    simp only [messageDescriptorAround, List.map_map, List.forall₂_map_right_iff, List.forall₂_same]
    exact fun g _ => exportsField_fieldDescriptor _ g
  · exact hw.mem_nestedTypes_iff.mpr (.inr ⟨g, hg, key, hkey, rfl⟩)
  all_goals
    rw [hw.messageDescriptor_eq]
    rfl

/-- The descriptor of a file leaves nothing out. -/
theorem exports_descriptor (hw : pool.WellFormed) (hl : pool.Legible) (f : FileId) :
    pool.Exports f (pool.descriptor f) where
  dependencies := rfl
  message b hb hx := ⟨_, declares_message hw hl hb hx, hw.exportsMessage b⟩
  enum e he := ⟨_, declares_enum hw hl he, rfl⟩
  extension x hx hextend g hg := by
    refine ⟨_, holds_extension hw hl hx hextend (List.mem_map_of_mem hg), ?_, fun m hm => ?_⟩
    · exact ⟨rfl, rfl, (exportsField_fieldDescriptor [] g).scalar, (exportsField_fieldDescriptor [] g).bound⟩
    · simp only [hm, Option.map_some, Option.getD_some]

end Pool

end ProtoSchema
