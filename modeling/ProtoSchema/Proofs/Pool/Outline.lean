import ProtoSchema.Proofs.Event.Respelling
import ProtoSchema.Proofs.Renaming.Walks

/-! # Outlines

An outline is all that a file declares, without the places of the declarations: for each scope and each
kind of declaration those that are written there, in order.  What an outline shows of names and constants
is left to a `View`: they are shown as they are written, or as the text of the file says them.

In a well-formed pool a name is free in a scope if no declaration of the outline has it
(`WellFormed.placeOf?_eq_none_iff`), and declarations of one scope have different names. -/

namespace ProtoSchema

open Located

/-! ### Lists of declarations -/

/-- What stands directly in a scope, one list for each kind of declaration: `ε` stands for enums, `μ` for
messages, `φ` for fields and `χ` for extend blocks. -/
@[ext]
structure Declarations (ε μ φ χ : Type) where
  options : List OptionDecl := []
  reservedRanges : List NumberRange := []
  reservedNames : List String := []
  extensionRanges : List NumberRange := []
  enums : List ε := []
  messages : List μ := []
  fields : List φ := []
  extendBlocks : List χ := []

namespace Declarations

variable {ε μ φ χ : Type}

/-- The declarations of `D` and behind them, kind by kind, those of `D'`. -/
protected def append (D D' : Declarations ε μ φ χ) : Declarations ε μ φ χ where
  options := D.options ++ D'.options
  reservedRanges := D.reservedRanges ++ D'.reservedRanges
  reservedNames := D.reservedNames ++ D'.reservedNames
  extensionRanges := D.extensionRanges ++ D'.extensionRanges
  enums := D.enums ++ D'.enums
  messages := D.messages ++ D'.messages
  fields := D.fields ++ D'.fields
  extendBlocks := D.extendBlocks ++ D'.extendBlocks

instance : Append (Declarations ε μ φ χ) := ⟨Declarations.append⟩

theorem append_def (D D' : Declarations ε μ φ χ) : D ++ D' =
    { options := D.options ++ D'.options
      reservedRanges := D.reservedRanges ++ D'.reservedRanges
      reservedNames := D.reservedNames ++ D'.reservedNames
      extensionRanges := D.extensionRanges ++ D'.extensionRanges
      enums := D.enums ++ D'.enums
      messages := D.messages ++ D'.messages
      fields := D.fields ++ D'.fields
      extendBlocks := D.extendBlocks ++ D'.extendBlocks } := rfl

protected theorem append_assoc (D D' D'' : Declarations ε μ φ χ) : D ++ D' ++ D'' = D ++ (D' ++ D'') := by
  simp only [append_def, List.append_assoc]

end Declarations

/-! ### What is declared -/

/-- An enum and its values. -/
structure EnumOutline where
  name : String
  options : List OptionDecl
  values : List ValueDecl

/-- An extended type and the fields that extend it. -/
structure ExtendOutline where
  type : TypeName
  fields : List FieldDecl

/-- A message and what is declared in it. -/
inductive MessageOutline where
  | mk (name : String) (declared : Declarations EnumOutline MessageOutline FieldDecl ExtendOutline)

def MessageOutline.name : MessageOutline → String
  | mk name _ => name

/-- The declarations of a scope. -/
abbrev ScopeOutline := Declarations EnumOutline MessageOutline FieldDecl ExtendOutline

/-- A file: its version, its package, the files that it imports, and what is declared in it. -/
structure FileOutline where
  edition : Option Edition
  package : Option DottedName
  imports : List (String × ImportKind)
  declared : ScopeOutline

namespace Declarations

/-- The names that are declared in a scope. -/
def names (D : ScopeOutline) : List String :=
  D.enums.map EnumOutline.name ++ D.messages.map MessageOutline.name ++
    D.fields.map fun f => f.name.value

/-- The numbers of the fields of a scope. -/
def numbers (D : ScopeOutline) : List Nat := D.fields.map fun f => f.number.value

theorem names_append (D D' : ScopeOutline) : (D ++ D').names.Perm (D.names ++ D'.names) := by
  rw [List.perm_iff_count]
  intro n
  simp only [append_def, names, List.map_append, List.count_append]
  omega

theorem numbers_append (D D' : ScopeOutline) : (D ++ D').numbers = D.numbers ++ D'.numbers :=
  List.map_append ..

end Declarations

/-- What an outline shows of a name with what it denotes, and of a constant. -/
structure View where
  type : TypeName → Option TypeId → TypeName
  constant : Constant → Constant

namespace View

/-- Names and constants as they are written. -/
def asWritten : View := ⟨fun name _ => name, id⟩

/-- Names and constants as they are read from the text of a file: names are absolute and spell what they
denote, and a number that has no digits is a word. -/
def asPrinted (pool : Pool) : View := ⟨pool.boundName, Constant.reread⟩

def option (V : View) (o : OptionDecl) : OptionDecl := { o with value := V.constant o.value }

def fieldType (V : View) : FieldType → WrittenType
  | .scalar s => .scalar s
  | .named name target => .named (V.type name target)

def field (V : View) (f : Field) : FieldDecl :=
  { form := f.form, type := unplaced (V.fieldType f.type), name := unplaced f.name.value,
    number := unplaced f.number.value, options := f.options.map V.option }

def value (V : View) (number : Int) (v : EnumValue) : ValueDecl :=
  { name := unplaced v.name.value, number := unplaced number, options := v.options.map V.option }

def enum (V : View) (e : EnumType) : EnumOutline :=
  { name := e.name, options := e.options.map V.option
    values := e.values.entries.map fun v => V.value v.1 v.2 }

/-- The type that a block extends; a message extends none. -/
def extendee (V : View) (b : Block) : TypeName :=
  match b.heading with
  | .message _ => ⟨false, []⟩
  | .extend type target => V.type type target

end View

namespace Pool

/-- What is written in a scope besides messages, enums and extend blocks. -/
def attributes (pool : Pool) : Scope → Declarations EnumId BlockId FieldId BlockId
  | .file id => { options := (pool.file id).options }
  | .block id =>
    let b := pool.block id
    { options := b.options, reservedRanges := b.reservedRanges, reservedNames := b.reservedNames
      extensionRanges := b.extensionRanges, fields := b.fields.values }

/-- What is written directly in a scope. -/
def contents (pool : Pool) (s : Scope) : Declarations EnumId BlockId FieldId BlockId :=
  let members := pool.members s
  { pool.attributes s with
    enums := members.enums.values
    messages := members.messages.values
    extendBlocks := members.extendBlocks }

variable (V : View)

def fieldOutline (pool : Pool) (d : FieldId) : FieldDecl := V.field (pool.field d)

def enumOutline (pool : Pool) (e : EnumId) : EnumOutline := V.enum (pool.enum e)

def extendOutline (pool : Pool) (b : BlockId) : ExtendOutline :=
  ⟨V.extendee (pool.block b), (pool.block b).fields.values.map (pool.fieldOutline V)⟩

/-- The outline of some declarations, with the outlines of the messages. -/
def outlineAround (pool : Pool) (D : Declarations EnumId BlockId FieldId BlockId)
    (messages : List MessageOutline) : ScopeOutline :=
  { options := D.options.map V.option, reservedRanges := D.reservedRanges
    reservedNames := D.reservedNames, extensionRanges := D.extensionRanges
    enums := D.enums.map (pool.enumOutline V), messages
    fields := D.fields.map (pool.fieldOutline V)
    extendBlocks := D.extendBlocks.map (pool.extendOutline V) }

/-- A message with all that is declared in it. -/
def messageOutline (pool : Pool) (b : BlockId) : MessageOutline :=
  pool.foldMessage (fun b nested =>
    .mk (pool.block b).name (pool.outlineAround V (pool.contents (.block b)) nested)) b

/-- The outline of some declarations. -/
def outlineOf (pool : Pool) (D : Declarations EnumId BlockId FieldId BlockId) : ScopeOutline :=
  pool.outlineAround V D (D.messages.map (pool.messageOutline V))

/-- What is declared in a scope. -/
def declared (pool : Pool) (s : Scope) : ScopeOutline := pool.outlineOf V (pool.contents s)

/-- All that a file declares. -/
def outline (pool : Pool) (f : FileId) : FileOutline :=
  { edition := (pool.file f).edition.map Located.value
    package := (pool.file f).package.map Located.value
    imports := (pool.file f).imports.entries.map fun i => (i.1, i.2.kind)
    declared := pool.declared V (.file f) }

variable {V} {pool : Pool}

theorem outlineOf_append (D D' : Declarations EnumId BlockId FieldId BlockId) :
    pool.outlineOf V (D ++ D') = pool.outlineOf V D ++ pool.outlineOf V D' := by
  simp only [Declarations.append_def, outlineOf, outlineAround, List.map_append]

namespace WellFormed

theorem messageOutline_eq (hw : pool.WellFormed) (b : BlockId) :
    pool.messageOutline V b = .mk (pool.block b).name (pool.declared V (.block b)) :=
  hw.foldMessage_eq _ b

/-! ### Names -/

/-- The full name of a message is that of its scope, and behind it its own name. -/
theorem fullName_concat (hw : pool.WellFormed) {b : BlockId} (hb : pool.HasBlock b)
    (hx : (pool.block b).isExtend = false) :
    (pool.block b).fullName = pool.scopeName (pool.block b).parent ++ [(pool.block b).name] := by
  obtain ⟨n, hn⟩ := hw.message_name b _ hb (heading_eq_message_iff.mpr ⟨hx, rfl⟩)
  rw [Block.name, hn, List.getLast?_concat]
  rfl

theorem enum_fullName_concat (hw : pool.WellFormed) {e : EnumId} (he : pool.HasEnum e) :
    (pool.enum e).fullName = pool.scopeName (pool.enum e).parent ++ [(pool.enum e).name] := by
  obtain ⟨n, hn⟩ := hw.enum_name e he
  rw [EnumType.name, hn, List.getLast?_concat]
  rfl

theorem message_names (hw : pool.WellFormed) (s : Scope) :
    (pool.members s).messages.values.map (fun b => (pool.block b).name) =
      (pool.members s).messages.keys := by
  rw [Table.values, Table.keys, List.map_map]
  refine List.map_congr_left fun entry hmem => ?_
  obtain ⟨n, b⟩ := entry
  obtain ⟨-, -, hn⟩ := (hw.message_iff s n b).mp (Table.mem_entries_iff.mp hmem)
  simp [Block.name, (heading_eq_message_iff.mp hn).2]

theorem enum_names (hw : pool.WellFormed) (s : Scope) :
    (pool.members s).enums.values.map (fun e => (pool.enum e).name) =
      (pool.members s).enums.keys := by
  rw [Table.values, Table.keys, List.map_map]
  refine List.map_congr_left fun entry hmem => ?_
  obtain ⟨n, e⟩ := entry
  obtain ⟨-, -, hn⟩ := (hw.enum_iff s n e).mp (Table.mem_entries_iff.mp hmem)
  simp [EnumType.name, hn]

theorem field_numbers (hw : pool.WellFormed) (b : BlockId) :
    (pool.block b).fields.values.map (fun d => (pool.field d).number.value) =
      (pool.block b).fields.keys := by
  rw [Table.values, Table.keys, List.map_map]
  refine List.map_congr_left fun entry hmem => ?_
  obtain ⟨n, d⟩ := entry
  exact ((hw.field_iff b n d).mp (Table.mem_entries_iff.mp hmem)).2.2

theorem declared_names (hw : pool.WellFormed) (s : Scope) : (pool.declared V s).names =
    (pool.members s).enums.keys ++ (pool.members s).messages.keys ++
      (pool.contents s).fields.map fun d => (pool.field d).name.value := by
  have hmessages : ∀ b, (pool.messageOutline V b).name = (pool.block b).name := fun b => by
    rw [hw.messageOutline_eq]
    rfl
  rw [← hw.enum_names, ← hw.message_names]
  simp only [Declarations.names, declared, outlineOf, outlineAround, List.map_map]
  congr 2
  exact List.map_congr_left fun b _ => hmessages b

theorem declared_numbers (hw : pool.WellFormed) (b : BlockId) :
    (pool.declared V (.block b)).numbers = (pool.block b).fields.keys := by
  rw [← hw.field_numbers]
  simp only [Declarations.numbers, declared, outlineOf, outlineAround, List.map_map]
  rfl

/-- A name is free in a scope if nothing that is declared there has it. -/
theorem placeOf?_eq_none_iff (hw : pool.WellFormed) {s : Scope} {n : String} :
    pool.placeOf? s n = none ↔ n ∉ (pool.declared V s).names := by
  rw [hw.declared_names, Pool.placeOf?_eq_none_iff, Table.find?_eq_none_iff, Table.find?_eq_none_iff,
    List.mem_append, List.mem_append, not_or, not_or, List.mem_map]
  refine ⟨fun ⟨hm, he, hf⟩ => ⟨⟨he, hm⟩, ?_⟩, fun ⟨⟨he, hm⟩, hf⟩ => ⟨hm, he, ?_⟩⟩
  · rintro ⟨d, hd, rfl⟩
    cases s with
    | file i => cases hd
    | block b => exact hf b rfl d hd rfl
  · rintro b rfl d hd rfl
    exact hf ⟨d, hd, rfl⟩

theorem find?_number_eq_none_iff (hw : pool.WellFormed) {b : BlockId} {n : Nat} :
    (pool.block b).fields.find? n = none ↔ n ∉ (pool.declared V (.block b)).numbers := by
  rw [hw.declared_numbers, Table.find?_eq_none_iff]

theorem nodup_fields (hw : pool.WellFormed) (b : BlockId) : (pool.block b).fields.values.Nodup :=
  .of_map (fun d => (pool.field d).number.value)
    (by rw [hw.field_numbers]; exact (pool.block b).fields.nodup)

/-- Declarations in one scope have different names. -/
theorem nodup_names (hw : pool.WellFormed) (s : Scope) : (pool.declared V s).names.Nodup := by
  have hfield : ∀ d ∈ (pool.contents s).fields,
      pool.HasField d ∧ s = .block (pool.field d).block := by
    intro d hd
    cases s with
    | file i => cases hd
    | block b =>
      obtain ⟨n, hn⟩ := Table.mem_values_iff.mp hd
      obtain ⟨hfield, rfl, -⟩ := (hw.field_iff b n d).mp hn
      exact ⟨hfield, rfl⟩
  rw [hw.declared_names, List.nodup_append, List.nodup_append]
  refine ⟨⟨(pool.members s).enums.nodup, (pool.members s).messages.nodup, ?_⟩, ?_, ?_⟩
  · intro n he m hm hne
    subst hne
    rcases hw.message_enum s n with hnone | hnone
    · exact Table.find?_eq_none_iff.mp hnone hm
    · exact Table.find?_eq_none_iff.mp hnone he
  · refine .map_on (fun d hd e he hname => ?_) ?_
    · obtain ⟨hd, hs⟩ := hfield d hd
      obtain ⟨he, hs'⟩ := hfield e he
      exact hw.field_field d e hd he (Scope.block.inj (hs.symm.trans hs')) hname
    · cases s with
      | file i => exact List.nodup_nil
      | block b => exact hw.nodup_fields b
  · intro n hn m hm hne
    subst hne
    obtain ⟨d, hd, rfl⟩ := List.mem_map.mp hm
    obtain ⟨hthere, hs⟩ := hfield d hd
    subst hs
    obtain ⟨hmessage, henum⟩ := hw.field_member d hthere
    rcases List.mem_append.mp hn with hn | hn
    · exact Table.find?_eq_none_iff.mp henum hn
    · exact Table.find?_eq_none_iff.mp hmessage hn

theorem nodup_numbers (hw : pool.WellFormed) (s : Scope) : (pool.declared V s).numbers.Nodup := by
  cases s with
  | file i => exact List.nodup_nil
  | block b =>
    rw [hw.declared_numbers]
    exact (pool.block b).fields.nodup

end WellFormed

end Pool

end ProtoSchema
