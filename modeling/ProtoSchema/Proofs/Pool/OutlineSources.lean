import ProtoSchema.Proofs.Pool.OutlinePairs
import ProtoSchema.Proofs.Pool.Printing

/-! # Sources of files with one outline

The source of a file says what its outline shows, with every type under its absolute name, and constants
as they are read again.  A constant that is read again is written as it was (`Event.print_reread`), so
files with one outline have one source (`source_eq_of_outline`). -/

namespace ProtoSchema

open Located (unplaced)

/-! ### Constants that are read again -/

theorem Constant.text_reread (k : Constant) : k.reread.text = k.text := by
  unfold Constant.reread
  split
  · rfl
  · rfl
  · rfl

/-- A second reading changes nothing. -/
theorem Constant.reread_reread (k : Constant) : k.reread.reread = k.reread := by
  fun_cases Constant.reread k with
  | case1 => rfl
  | case2 => rfl
  | case3 _ hnan hinfinite => exact Constant.reread.eq_3 k hnan hinfinite

theorem OptionDecl.text_reread (o : OptionDecl) : o.reread.text = o.text := by
  simp only [OptionDecl.text, OptionDecl.reread, Constant.text_reread]

theorem OptionDecl.listText_reread (os : List OptionDecl) :
    listText (os.map OptionDecl.reread) = listText os := by
  have htext : (os.map OptionDecl.reread).map text = os.map text := by
    rw [List.map_map]
    exact List.map_congr_left fun o _ => o.text_reread
  simp only [listText, htext, List.map_eq_nil_iff]

namespace Event

theorem line?_reread (e : Event) : e.reread.line? = e.line? := by
  cases e with
  | option o => simp only [reread, line?, OptionDecl.text_reread]
  | field f => simp only [reread, line?, FieldDecl.text, OptionDecl.listText_reread]
  | value v => simp only [reread, line?, ValueDecl.text, OptionDecl.listText_reread]
  | _ => rfl

/-- What is read again is written as it was. -/
theorem print_reread (es : List Event) : ∀ depth, print depth (es.map reread) = print depth es := by
  induction es with
  | nil => exact fun _ => rfl
  | cons e es ih =>
    intro depth
    have hclose : e.reread = close ↔ e = close := by cases e <;> simp [reread]
    have hopens : e.reread.opens = e.opens := by cases e <;> rfl
    simp only [List.map_cons, print, line?_reread, hclose, hopens, ih]

end Event

/-! ### Statements of an outline -/

namespace FieldDecl

/-- The statements of a field. -/
def statements (f : FieldDecl) : List Event :=
  if f.form = .plain (some .required) then [.required default, .field f] else [.field f]

end FieldDecl

/-- The statements of an enum. -/
def EnumOutline.statements (e : EnumOutline) : List Event :=
  .openEnum (unplaced e.name) :: (e.options.map .option ++ e.values.map .value ++ [.close])

/-- The statements of an extend block. -/
def ExtendOutline.statements (x : ExtendOutline) : List Event :=
  .openExtend (unplaced x.type) :: (x.fields.flatMap FieldDecl.statements ++ [.close])

theorem flatMap_eq_flatMap {α β γ : Type} {F : α → List γ} {G : β → List γ} {as : List α}
    {bs : List β} (h : List.Forall₂ (fun a b => F a = G b) as bs) : as.flatMap F = bs.flatMap G := by
  rw [List.flatMap_def, List.flatMap_def, map_eq_map_iff.mpr h]

namespace Pool

variable {pool other : Pool} {f g : FileId} {s s' : Scope}

theorem reread_fieldStatements (d : FieldId) : (pool.fieldStatements d).map Event.reread =
    (pool.fieldOutline (.asPrinted pool) d).statements := by
  have htype : pool.boundType (pool.field d).type =
      (View.asPrinted pool).fieldType (pool.field d).type := by cases (pool.field d).type <;> rfl
  have hform : (pool.fieldOutline (.asPrinted pool) d).form = (pool.field d).form := rfl
  simp only [fieldStatements, FieldDecl.statements, htype, hform]
  split <;> rfl

theorem reread_enumStatements (e : EnumId) : (pool.enumStatements e).map Event.reread =
    (pool.enumOutline (.asPrinted pool) e).statements := by
  simp only [enumStatements, EnumOutline.statements, enumOutline, View.enum, List.map_cons,
    List.map_append, List.map_map]
  rfl

theorem reread_fieldsStatements (b : BlockId) : (pool.fieldsStatements b).map Event.reread =
    ((pool.block b).fields.values.map (pool.fieldOutline (.asPrinted pool))).flatMap
      FieldDecl.statements := by
  rw [fieldsStatements, List.map_flatMap, List.flatMap_map]
  exact List.flatMap_congr fun d _ => reread_fieldStatements d

theorem reread_extendStatements {b : BlockId} (hx : (pool.block b).isExtend = true) :
    (pool.extendStatements b).map Event.reread = (pool.extendOutline (.asPrinted pool) b).statements := by
  obtain ⟨type, target, hh⟩ := Block.exists_extend hx
  simp only [extendStatements, hh, List.map_cons, List.map_append, reread_fieldsStatements,
    ExtendOutline.statements, extendOutline, View.extendee]
  rfl

/-! ### Files side by side -/

theorem optionEvents_of_options {os os' : List OptionDecl}
    (h : os.map (View.asPrinted pool).option = os'.map (View.asPrinted other).option) :
    (os.map Event.option).map Event.reread = (os'.map Event.option).map Event.reread := by
  have := congrArg (List.map Event.option) h
  rwa [List.map_map, List.map_map] at this ⊢

theorem Paired.enums_reread (h : Paired (.asPrinted pool) (.asPrinted other) pool other s s') :
    ((pool.members s).enums.values.flatMap pool.enumStatements).map Event.reread =
      ((other.members s').enums.values.flatMap other.enumStatements).map Event.reread := by
  rw [List.map_flatMap, List.map_flatMap]
  refine flatMap_eq_flatMap (forall₂_imp_of_mem h.enums fun e _ e' _ he => ?_)
  rw [reread_enumStatements, reread_enumStatements, he]

section

variable (hw : pool.WellFormed) (hw' : other.WellFormed)
include hw hw'

theorem Paired.extendBlocks_reread
    (h : Paired (.asPrinted pool) (.asPrinted other) pool other s s') :
    ((pool.members s).extendBlocks.flatMap pool.extendStatements).map Event.reread =
      ((other.members s').extendBlocks.flatMap other.extendStatements).map Event.reread := by
  rw [List.map_flatMap, List.map_flatMap]
  refine flatMap_eq_flatMap (forall₂_imp_of_mem h.extendBlocks fun b hb b' hb' he => ?_)
  rw [reread_extendStatements ((hw.extend_iff s b).mp hb).2.2,
    reread_extendStatements ((hw'.extend_iff s' b').mp hb').2.2, he]

theorem messageStatements_of_outline {b b' : BlockId} (hb : pool.BlockOf f b)
    (hb' : other.BlockOf g b') (h : pool.messageOutline (.asPrinted pool) b =
      other.messageOutline (.asPrinted other) b') :
    (pool.messageStatements b).map Event.reread = (other.messageStatements b').map Event.reread := by
  refine message_pairs hw hw' (P := fun b b' => (pool.messageStatements b).map Event.reread =
    (other.messageStatements b').map Event.reread) (fun b b' _ _ hname hpaired hmessages => ?_) b b' hb
    hb' h
  have hoptions : ((pool.block b).options.map Event.option).map Event.reread =
      ((other.block b').options.map Event.option).map Event.reread :=
    optionEvents_of_options hpaired.options
  have hranges : rangeStatements (pool.block b) = rangeStatements (other.block b') := by
    have h₁ : (pool.block b).reservedRanges = _ := hpaired.reservedRanges
    have h₂ : (pool.block b).reservedNames = _ := hpaired.reservedNames
    have h₃ : (pool.block b).extensionRanges = _ := hpaired.extensionRanges
    rw [rangeStatements, h₁, h₂, h₃]
    rfl
  have hnested : ((pool.block b).members.messages.values.flatMap pool.messageStatements).map
      Event.reread = ((other.block b').members.messages.values.flatMap other.messageStatements).map
      Event.reread := by
    rw [List.map_flatMap, List.map_flatMap]
    exact flatMap_eq_flatMap hmessages
  have hfields : (pool.fieldsStatements b).map Event.reread =
      (other.fieldsStatements b').map Event.reread := by
    have hlist : (pool.block b).fields.values.map (pool.fieldOutline (.asPrinted pool)) =
        (other.block b').fields.values.map (other.fieldOutline (.asPrinted other)) :=
      map_eq_map_iff.mpr hpaired.fields
    rw [reread_fieldsStatements, reread_fieldsStatements, hlist]
  have henums := hpaired.enums_reread
  have hextends := hpaired.extendBlocks_reread hw hw'
  rw [hw.messageStatements_eq, hw'.messageStatements_eq]
  simp only [messageAround, ← List.flatMap_def, List.map_cons, List.map_append, hname, hranges, hoptions,
    hnested, hfields]
  rw [show (pool.block b).members = pool.members (.block b) from rfl,
    show (other.block b').members = other.members (.block b') from rfl, henums, hextends]

/-- Files with one outline have one source, if their imports are written alike. -/
theorem source_eq_of_outline
    (himports : (pool.file f).imports.values.map
        (fun i => Event.importFile i.kind (unplaced (pool.file i.file).name)) =
      (other.file g).imports.values.map
        fun i => .importFile i.kind (unplaced (other.file i.file).name))
    (h : pool.outline (.asPrinted pool) f = other.outline (.asPrinted other) g) :
    pool.source f = other.source g := by
  obtain ⟨hedition, hpackage, -, hdeclared⟩ := FileOutline.mk.inj h
  have hpaired := declared_eq_iff.mp hdeclared
  have heditions : (pool.file f).edition.toList.map (fun e => Event.edition (unplaced e.value)) =
      (other.file g).edition.toList.map fun e => .edition (unplaced e.value) := by
    have := congrArg (fun e => e.toList.map fun v => Event.edition (unplaced v)) hedition
    simp only [Option.toList_map, List.map_map] at this
    exact this
  have hpackages : (pool.file f).package.toList.map (fun p => Event.package (unplaced p.value)) =
      (other.file g).package.toList.map fun p => .package (unplaced p.value) := by
    have := congrArg (fun p => p.toList.map fun v => Event.package (unplaced v)) hpackage
    simp only [Option.toList_map, List.map_map] at this
    exact this
  have hoptions : ((pool.file f).options.map Event.option).map Event.reread =
      ((other.file g).options.map Event.option).map Event.reread :=
    optionEvents_of_options hpaired.options
  have hmessages : ((pool.file f).members.messages.values.flatMap pool.messageStatements).map
      Event.reread = ((other.file g).members.messages.values.flatMap other.messageStatements).map
      Event.reread := by
    rw [List.map_flatMap, List.map_flatMap]
    refine flatMap_eq_flatMap (forall₂_imp_of_mem hpaired.messages fun b hb b' hb' he => ?_)
    exact messageStatements_of_outline hw hw' (hw.blockOf_of_mem_messages (s := .file f) rfl hb)
      (hw'.blockOf_of_mem_messages (s := .file g) rfl hb') he
  have henums := hpaired.enums_reread
  have hextends := hpaired.extendBlocks_reread hw hw'
  have hall : (pool.statements f).map Event.reread = (other.statements g).map Event.reread := by
    simp only [statements, headStatements, List.map_append, heditions, hpackages, himports, hoptions,
      hmessages]
    rw [show (pool.file f).members = pool.members (.file f) from rfl,
      show (other.file g).members = other.members (.file g) from rfl, henums, hextends]
  rw [source, source, ← Event.print_reread, hall, Event.print_reread]

end

end Pool

end ProtoSchema
