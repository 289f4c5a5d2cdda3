import ProtoSchema.Proofs.Event.Printing
import ProtoSchema.Proofs.Pool.Legibility
import ProtoSchema.Proofs.Pool.References
import ProtoSchema.Proofs.Renaming.Walks

/-! # The statements of a file

The statements of a complete file can be written and read one line after the other (`lines_statements`):
each stands where it may stand, and each is legible. -/

namespace ProtoSchema

open Event (Lines)

theorem Frames.TakesTypes.between {fs : Frames} (h : fs.TakesTypes) : fs.Between := by
  cases h with
  | file => exact .file
  | message => exact .block

namespace Block

/-- The kind of a message or extend block. -/
def kind (b : Block) : BlockKind := if b.isExtend then .extend else .message

theorem kind_ne_enum (b : Block) : b.kind ≠ .enum := by
  unfold kind
  split <;> simp

end Block

namespace Event

/-- Legible events that may be written one line after the other, and leave the frames as they are. -/
def LegibleLines (fs : Frames) (es : List Event) : Prop := Lines fs es fs ∧ ∀ e ∈ es, e.Legible

variable {fs : Frames} {es es' : List Event} {e : Event}

theorem LegibleLines.nil : LegibleLines fs [] := ⟨.nil, List.forall_mem_nil _⟩

theorem LegibleLines.append (h : LegibleLines fs es) (h' : LegibleLines fs es') :
    LegibleLines fs (es ++ es') :=
  ⟨h.1.append h'.1, List.forall_mem_append.mpr ⟨h.2, h'.2⟩⟩

theorem legibleLines_single (he : e.Legible) (place : e.Stands fs fs) (between : fs.Between) :
    LegibleLines fs [e] :=
  ⟨.line place between between .nil, List.forall_mem_singleton.mpr he⟩

theorem legibleLines_flatMap {α : Type} {as : List α} {events : α → List Event}
    (h : ∀ a ∈ as, LegibleLines fs (events a)) : LegibleLines fs (as.flatMap events) := by
  refine ⟨lines_flatMap fun a ha => (h a ha).1, fun e he => ?_⟩
  obtain ⟨a, ha, he⟩ := List.mem_flatMap.mp he
  exact (h a ha).2 e he

theorem legibleLines_map {α : Type} {as : List α} {event : α → Event}
    (h : ∀ a ∈ as, (event a).Legible ∧ (event a).Stands fs fs) (between : fs.Between) :
    LegibleLines fs (as.map event) := by
  rw [List.map_eq_flatMap]
  exact legibleLines_flatMap fun a ha => legibleLines_single (h a ha).1 (h a ha).2 between

/-- A block around lines. -/
theorem LegibleLines.block {k : BlockKind} (he : e.Legible) (place : e.Stands fs (.header k :: fs))
    (between : fs.Between) (h : LegibleLines (.body k :: fs) es) :
    LegibleLines fs (e :: (es ++ [.close])) := by
  refine ⟨.block place (h.1.append (.line .close .block between .nil)), ?_⟩
  rw [List.forall_mem_cons, List.forall_mem_append, List.forall_mem_singleton]
  exact ⟨he, h.2, trivial⟩

end Event

namespace Pool

variable {pool : Pool} {f : FileId} {fs : Frames}

/-- A file of a pool that can be written: what it declares is legible, and every name in it denotes
something. -/
structure Writable (pool : Pool) (f : FileId) : Prop where
  tree : pool.WellFormed
  there : pool.HasFile f
  legible : pool.Legible
  plain : pool.ExtendsPlain
  filled : pool.EnumsFilled f
  linked : ∀ {s name offset target}, pool.Refers f s name offset target →
    ∃ t, target = some t ∧ pool.HasType t

namespace WellFormed

theorem fieldOf_of_mem (hw : pool.WellFormed) {b : BlockId} (hb : pool.BlockOf f b) {d : FieldId}
    (hd : d ∈ (pool.block b).fields.values) : pool.FieldOf f d ∧ (pool.field d).block = b := by
  obtain ⟨n, hn⟩ := Table.mem_values_iff.mp hd
  obtain ⟨hthere, rfl, -⟩ := (hw.field_iff b n d).mp hn
  exact ⟨⟨hthere, hb⟩, rfl⟩

end WellFormed

namespace Writable

/-- The absolute name of what is denoted can be read. -/
theorem boundName (h : pool.Writable f) {s : Scope} {name : TypeName} {offset : Nat}
    {target : Option TypeId} (hr : pool.Refers f s name offset target) :
    (pool.boundName name target).segments.Legible := by
  obtain ⟨t, rfl, ht⟩ := h.linked hr
  exact h.legible.typeName h.tree ht

theorem boundType (h : pool.Writable f) {d : FieldId} (hd : pool.FieldOf f d) :
    (pool.boundType (pool.field d).type).Legible := by
  cases htype : (pool.field d).type with
  | scalar s => trivial
  | named name target => exact h.boundName (.field hd htype)

theorem fieldStatements (h : pool.Writable f) {d : FieldId} (hd : pool.FieldOf f d) {k : BlockKind}
    (hk : k = (pool.block (pool.field d).block).kind) :
    Event.LegibleLines (.body k :: fs) (pool.fieldStatements d) := by
  have hlegible := h.legible.field d hd.1
  have hne : k ≠ .enum := hk ▸ Block.kind_ne_enum _
  have hdecl : ∀ decl : FieldDecl, decl.form = (pool.field d).form →
      decl.type.value = pool.boundType (pool.field d).type →
      decl.name.value = (pool.field d).name.value → decl.number.value = (pool.field d).number.value →
      decl.options = (pool.field d).options → decl.Legible := by
    intro decl hform htype hname hnumber hoptions
    exact ⟨hform ▸ hlegible.form, htype ▸ h.boundType hd, hname ▸ hlegible.name,
      hnumber ▸ hlegible.number, hoptions ▸ hlegible.options⟩
  simp only [Pool.fieldStatements]
  split
  · next hform =>
    refine ⟨.required hne hform .nil, ?_⟩
    rw [List.forall_mem_cons, List.forall_mem_singleton]
    exact ⟨trivial, hdecl _ rfl rfl rfl rfl rfl⟩
  · next hform =>
    refine Event.legibleLines_single (hdecl _ rfl rfl rfl rfl rfl) ?_ .block
    rcases hcase : (pool.field d).form with l | key
    · exact .field hne rfl fun hl => hform (hcase.trans (hl ▸ rfl))
    · -- an extend block has no maps
      have hx : (pool.block (pool.field d).block).isExtend = false := by
        by_contra hx
        exact h.plain d hd.1 (Bool.of_not_eq_false hx) key hcase
      rw [Block.kind, hx] at hk
      subst hk
      exact .mapField rfl

theorem fieldsStatements (h : pool.Writable f) {b : BlockId} (hb : pool.BlockOf f b) {k : BlockKind}
    (hk : k = (pool.block b).kind) :
    Event.LegibleLines (.body k :: fs) (pool.fieldsStatements b) := by
  refine Event.legibleLines_flatMap fun d hd => ?_
  obtain ⟨hfield, rfl⟩ := h.tree.fieldOf_of_mem hb hd
  exact h.fieldStatements hfield hk

theorem enumStatements (h : pool.Writable f) {e : EnumId} (he : pool.HasEnum e)
    (hfs : fs.TakesTypes) : Event.LegibleLines fs (pool.enumStatements e) := by
  have hlegible := h.legible.enum e he
  obtain ⟨n, hn⟩ := h.tree.enum_name e he
  have hname : IsIdent (pool.enum e).name := by
    rw [EnumType.name, hn, List.getLast?_concat]
    exact hlegible.fullName n (by rw [hn]; simp)
  refine .block hname (.openEnum hfs) hfs.between (.append ?_ ?_)
  · exact Event.legibleLines_map (fun o ho => ⟨hlegible.options o ho, .option (by simp)⟩) .block
  · exact Event.legibleLines_map (fun v hv => ⟨hlegible.values v hv, .value⟩) .block

theorem extendStatements (h : pool.Writable f) {b : BlockId} (hb : pool.BlockOf f b)
    (hfs : fs.TakesTypes) : Event.LegibleLines fs (pool.extendStatements b) := by
  unfold Pool.extendStatements
  split
  · exact .nil
  · next type target heading =>
    refine .block (h.boundName (.extend hb heading)) (.openExtend hfs) hfs.between ?_
    exact h.fieldsStatements hb (by simp [Block.kind, Block.isExtend, heading])

theorem rangeStatements (h : pool.Legible) {b : BlockId} (hb : pool.HasBlock b) :
    Event.LegibleLines (.body .message :: fs) (Pool.rangeStatements (pool.block b)) := by
  have hlegible := h.block b hb
  refine .append (.append ?_ ?_) ?_
  · split
    · exact .nil
    · next hne => exact Event.legibleLines_single ⟨hne, hlegible.reservedRanges⟩ .reservedRanges .block
  · split
    · exact .nil
    · next hne => exact Event.legibleLines_single hne .reservedNames .block
  · split
    · exact .nil
    · next hne => exact Event.legibleLines_single ⟨hne, hlegible.extensionRanges⟩ .extensionRanges .block

end Writable

theorem WellFormed.messageStatements_eq (hw : pool.WellFormed) (b : BlockId) :
    pool.messageStatements b =
      pool.messageAround b ((pool.block b).members.messages.values.map pool.messageStatements) :=
  hw.foldMessage_eq _ b

namespace Writable

/-- What is declared in the message `b`, which is in the file. -/
theorem messageStatements (h : pool.Writable f) (b : BlockId) : ∀ {fs : Frames}, fs.TakesTypes →
    pool.BlockOf f b → (pool.block b).isExtend = false →
    Event.LegibleLines fs (pool.messageStatements b) := by
  induction b using h.tree.message_induction with
  | step b ih =>
    intro fs hfs hb hx
    have hlegible := h.legible.block b hb.1
    have hinner : Frames.TakesTypes (.body .message :: fs) := .message
    obtain ⟨n, hn⟩ := h.tree.message_name b _ hb.1 (heading_eq_message_iff.mpr ⟨hx, rfl⟩)
    have hname : IsIdent (pool.block b).name := by
      rw [Block.name, hn, List.getLast?_concat]
      exact hlegible.fullName n (by rw [hn]; simp)
    rw [h.tree.messageStatements_eq, messageAround]
    refine .block hname (.openMessage hfs) hfs.between ?_
    refine .append (.append (.append (.append (.append ?_ ?_) ?_) ?_) ?_) ?_
    · exact Event.legibleLines_map (fun o ho => ⟨hlegible.options o ho, .option (by simp)⟩) .block
    · exact rangeStatements h.legible hb.1
    · refine Event.legibleLines_flatMap fun e he => ?_
      exact h.enumStatements ((h.tree.mem_enums_iff (s := .block b)).mp he).1 hinner
    · rw [← List.flatMap_def]
      refine Event.legibleLines_flatMap fun a ha => ih a ha hinner ?_ ?_
      · exact h.tree.blockOf_of_mem_messages (s := .block b) hb.2 ha
      · exact ((h.tree.mem_messages_iff (s := .block b)).mp ha).2.1
    · exact h.fieldsStatements hb (by simp [Block.kind, hx])
    · refine Event.legibleLines_flatMap fun a ha => h.extendStatements ?_ hinner
      obtain ⟨hthere, hparent, -⟩ := (h.tree.extend_iff (.block b) a).mp ha
      exact ⟨hthere, (h.tree.file_of_parent hthere hparent).trans hb.2⟩

/-- The statements of a file are legible lines. -/
theorem lines_statements (h : pool.Writable f) :
    Event.LegibleLines [] (pool.statements f) := by
  have hlegible := h.legible.file f h.there
  refine .append (.append (.append (.append (.append (.append ?_ ?_) ?_) ?_) ?_) ?_) ?_
  · exact Event.legibleLines_map (fun e _ => ⟨trivial, .edition⟩) .file
  · refine Event.legibleLines_map (fun p hp => ⟨?_, .package⟩) .file
    exact hlegible.package p (Option.mem_toList.mp hp)
  · exact Event.legibleLines_map (fun i _ => ⟨trivial, .importFile⟩) .file
  · exact Event.legibleLines_map (fun o ho => ⟨hlegible.options o ho, .fileOption⟩) .file
  · refine Event.legibleLines_flatMap fun e he => ?_
    exact h.enumStatements ((h.tree.mem_enums_iff (s := .file f)).mp he).1 .file
  · refine Event.legibleLines_flatMap fun b hb => h.messageStatements b .file ?_ ?_
    · exact h.tree.blockOf_of_mem_messages (s := .file f) rfl hb
    · exact ((h.tree.mem_messages_iff (s := .file f)).mp hb).2.1
  · refine Event.legibleLines_flatMap fun b hb => h.extendStatements ?_ .file
    obtain ⟨hthere, hparent, -⟩ := (h.tree.extend_iff (.file f) b).mp hb
    exact ⟨hthere, h.tree.file_of_parent hthere hparent⟩

end Writable

end Pool

end ProtoSchema
