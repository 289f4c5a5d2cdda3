import ProtoSchema.Proofs.Pool.Checking
import ProtoSchema.Proofs.Pool.Outline
import ProtoSchema.Proofs.Renaming.Output

/-! # Outlines of files that match

An outline does not say where declarations stand, so files that match have one outline (`Matches.outline`).
What is written in a file does not change when its names are bound (`Checked.outline`). -/

namespace ProtoSchema

namespace Pool

variable {pool other third : Pool} {ρ : Renaming} {f : FileId} {V V' : View}

/-! ### Walks -/

/-- The file `f` shows the same in two pools, at other places. -/
structure Shows (ρ : Renaming) (V V' : View) (f : FileId) (pool other : Pool) : Prop where
  contents : ∀ s, pool.InRange s → pool.scopeFile s = f →
    other.outlineAround V' (other.contents (ρ.scope s)) [] =
        pool.outlineAround V (pool.contents s) [] ∧
      (other.contents (ρ.scope s)).messages = (pool.contents s).messages.map ρ.block
  name : ∀ b, pool.BlockOf f b → (other.block (ρ.block b)).name = (pool.block b).name

namespace Shows

variable (h : Shows ρ V V' f pool other)
include h

theorem declared {s : Scope} (hs : pool.InRange s) (hsf : pool.scopeFile s = f)
    (hmessages : ∀ b ∈ (pool.contents s).messages,
      other.messageOutline V' (ρ.block b) = pool.messageOutline V b) :
    other.declared V' (ρ.scope s) = pool.declared V s := by
  obtain ⟨haround, hlist⟩ := h.contents s hs hsf
  have hnested : (other.contents (ρ.scope s)).messages.map (other.messageOutline V') =
      (pool.contents s).messages.map (pool.messageOutline V) := by
    rw [hlist, List.map_map]
    exact List.map_congr_left hmessages
  have hwith := congrArg (fun D : ScopeOutline =>
    { D with messages := (pool.contents s).messages.map (pool.messageOutline V) }) haround
  rw [Pool.declared, outlineOf, hnested]
  exact hwith

variable (hw : pool.WellFormed) (hw' : other.WellFormed)
include hw hw'

theorem messageOutline (b : BlockId) : pool.BlockOf f b →
    other.messageOutline V' (ρ.block b) = pool.messageOutline V b := by
  induction b using hw.message_induction with
  | step b ih =>
    intro hb
    rw [hw.messageOutline_eq, hw'.messageOutline_eq, h.name b hb]
    refine congrArg (MessageOutline.mk _) (h.declared (s := .block b) hb.1 hb.2 fun a ha => ih a ha ?_)
    exact hw.blockOf_of_mem_messages (s := .block b) hb.2 ha

/-- The declarations of the file. -/
theorem file (hf : pool.HasFile f) :
    other.declared V' (.file (ρ.file f)) = pool.declared V (.file f) :=
  h.declared (s := .file f) hf rfl fun b hb =>
    h.messageOutline hw hw' b (hw.blockOf_of_mem_messages (s := .file f) rfl hb)

end Shows

/-! ### Files that match -/

namespace Matches

variable (h : Matches ρ f pool other) (hw : pool.WellFormed)
  (htype : ∀ {s name offset target}, pool.Refers f s name offset target →
    V'.type name (target.map ρ.type) = V.type name target)
  (hconstant : V'.constant = V.constant)
include h htype hconstant

omit h htype in
theorem option_eq : V'.option = V.option := by
  funext o
  rw [View.option, View.option, hconstant]

theorem fieldOutline {d : FieldId} (hd : pool.FieldOf f d) :
    other.fieldOutline V' (ρ.field d) = pool.fieldOutline V d := by
  have hfield : V'.fieldType (ρ.fieldType (pool.field d).type) = V.fieldType (pool.field d).type := by
    cases ht : (pool.field d).type with
    | scalar a => rfl
    | named name target => exact congrArg WrittenType.named (htype (.field hd ht))
  rw [Pool.fieldOutline, Pool.fieldOutline, h.field d hd, View.field, View.field,
    option_eq hconstant]
  exact congrArg (fun t => FieldDecl.mk _ (Located.unplaced t) _ _ _) hfield

omit htype in
theorem enumOutline {e : EnumId} (he : pool.EnumOf f e) :
    other.enumOutline V' (ρ.enum e) = pool.enumOutline V e := by
  have hvalue : V'.value = V.value := by
    funext n v
    rw [View.value, View.value, option_eq hconstant]
  rw [Pool.enumOutline, Pool.enumOutline, h.enum e he, View.enum, View.enum, hvalue,
    option_eq hconstant]
  rfl

include hw

theorem fieldOutlines {b : BlockId} (hb : pool.BlockOf f b) :
    (other.block (ρ.block b)).fields.values.map (other.fieldOutline V') =
      (pool.block b).fields.values.map (pool.fieldOutline V) := by
  rw [h.block b hb]
  show ((pool.block b).fields.map ρ.field).values.map _ = _
  rw [Table.values_map, List.map_map]
  exact List.map_congr_left fun d hd =>
    h.fieldOutline htype hconstant (hw.fieldOf_of_mem_fields hb hd)

theorem extendOutline {b : BlockId} (hb : pool.BlockOf f b) :
    other.extendOutline V' (ρ.block b) = pool.extendOutline V b := by
  have hextendee : V'.extendee (ρ.onBlock (pool.block b)) = V.extendee (pool.block b) := by
    simp only [View.extendee, Renaming.onBlock]
    cases hh : (pool.block b).heading with
    | message name => rfl
    | extend name target => exact htype (.extend hb hh)
  rw [Pool.extendOutline, Pool.extendOutline, h.fieldOutlines hw htype hconstant hb, h.block b hb,
    hextendee]

theorem shows : Shows ρ V V' f pool other where
  contents s hs hsf := by
    have hoption : V'.option = V.option := option_eq hconstant
    have hmembers := h.members hs hsf
    have henums : (other.members (ρ.scope s)).enums.values.map (other.enumOutline V') =
        (pool.members s).enums.values.map (pool.enumOutline V) := by
      rw [hmembers]
      show ((pool.members s).enums.map ρ.enum).values.map _ = _
      rw [Table.values_map, List.map_map]
      exact List.map_congr_left fun e he =>
        h.enumOutline hconstant (hw.enumOf_of_mem_enums hsf he)
    have hextends : (other.members (ρ.scope s)).extendBlocks.map (other.extendOutline V') =
        (pool.members s).extendBlocks.map (pool.extendOutline V) := by
      rw [hmembers]
      show ((pool.members s).extendBlocks.map ρ.block).map _ = _
      rw [List.map_map]
      exact List.map_congr_left fun b hb =>
        h.extendOutline hw htype hconstant (hw.blockOf_of_mem_extendBlocks hsf hb)
    refine ⟨?_, ?_⟩
    · simp only [outlineAround, Pool.contents, henums, hextends, hoption]
      cases s with
      | file i =>
        cases hsf
        have hoptions : (other.file (ρ.file i)).options = (pool.file i).options := by
          rw [show other.file (ρ.file i) = _ from h.file]
          rfl
        simp only [Renaming.scope, attributes, hoptions, List.map_nil]
      | block b =>
        have hfields := h.fieldOutlines hw htype hconstant ⟨hs, hsf⟩
        simp only [Renaming.scope, attributes, hfields]
        rw [h.block b ⟨hs, hsf⟩]
        rfl
    · show (other.members (ρ.scope s)).messages.values = (pool.members s).messages.values.map ρ.block
      rw [hmembers]
      exact Table.values_map ..
  name b hb := by rw [h.block b hb, Renaming.name_onBlock]

/-- Files that match have one outline. -/
theorem outline (hw' : other.WellFormed) (hf : pool.HasFile f) :
    other.outline V' (ρ.file f) = pool.outline V f := by
  have hdeclared := (h.shows hw htype hconstant).file hw hw' hf
  rw [Pool.outline, Pool.outline, hdeclared, h.file]
  simp only [Renaming.onFile, Table.map, List.map_map]
  rfl

end Matches

/-- What is written in a file that is left alone stays. -/
theorem Kept.outline (h : Kept f pool other) (hw : pool.WellFormed) (hw' : other.WellFormed)
    (hf : pool.HasFile f) : other.outline .asWritten f = pool.outline .asWritten f :=
  ((Matches.refl f pool).of_kept (.refl _ _) h).outline hw (fun _ => rfl) rfl hw' hf

/-! ### Names that are bound -/

theorem asWritten_extendee {a b : Block} (h : a.heading.Refines b.heading) :
    View.asWritten.extendee b = View.asWritten.extendee a := by
  rcases h with he | ⟨type, t, ha, hb⟩
  · rw [View.extendee, View.extendee, he]
  · rw [View.extendee, View.extendee, ha, hb]
    rfl

theorem asWritten_fieldType {a b : FieldType} (h : a.Refines b) :
    View.asWritten.fieldType b = View.asWritten.fieldType a := by
  rcases h with rfl | ⟨name, t, rfl, rfl⟩
  · rfl
  · rfl

namespace Binds

theorem block_eq (h : Binds f pool other) (b : BlockId) : ∃ heading,
    other.block b = { pool.block b with heading } ∧ (pool.block b).heading.Refines heading := by
  cases h with
  | @block b₀ type t there hh found =>
    rw [block_modifyBlock]
    split
    · exact Block.bind_eq _ t
    · exact ⟨(pool.block b).heading, rfl, .inl rfl⟩
  | field => exact ⟨(pool.block b).heading, rfl, .inl rfl⟩

theorem field_eq (h : Binds f pool other) (d : FieldId) : ∃ type,
    other.field d = { pool.field d with type } ∧ (pool.field d).type.Refines type := by
  cases h with
  | block => exact ⟨(pool.field d).type, rfl, .inl rfl⟩
  | @field d₀ name t there type found =>
    rw [field_modifyField]
    split
    · exact Field.bind_eq _ t
    · exact ⟨(pool.field d).type, rfl, .inl rfl⟩

theorem fieldOutline (h : Binds f pool other) (d : FieldId) :
    other.fieldOutline .asWritten d = pool.fieldOutline .asWritten d := by
  obtain ⟨type, he, hrefines⟩ := h.field_eq d
  rw [Pool.fieldOutline, Pool.fieldOutline, he, View.field, View.field,
    asWritten_fieldType hrefines]

theorem extendOutline (h : Binds f pool other) (b : BlockId) :
    other.extendOutline .asWritten b = pool.extendOutline .asWritten b := by
  obtain ⟨heading, he, hrefines⟩ := h.block_eq b
  have hfields : (other.block b).fields = (pool.block b).fields := by rw [he]
  have hextendee : View.asWritten.extendee (other.block b) = View.asWritten.extendee (pool.block b) :=
    asWritten_extendee (by rw [he]; exact hrefines)
  rw [Pool.extendOutline, Pool.extendOutline, hextendee, hfields]
  exact congrArg _ (List.map_congr_left fun d _ => h.fieldOutline d)

theorem shows (h : Binds f pool other) (g : FileId) :
    Shows .id .asWritten .asWritten g pool other where
  contents s _ _ := by
    have hcontents : other.contents s = pool.contents s := by
      have hmembers : other.members s = pool.members s := by rw [h.sameTree.members]
      have hattributes : other.attributes s = pool.attributes s := by
        cases s with
        | file i => simp only [attributes, h.file_eq]
        | block b =>
          obtain ⟨heading, he, -⟩ := h.block_eq b
          simp only [attributes, he]
      rw [Pool.contents, Pool.contents, hmembers, hattributes]
    have henum : other.enumOutline .asWritten = pool.enumOutline .asWritten := by
      have : other.enum = pool.enum := by cases h <;> rfl
      funext e
      rw [Pool.enumOutline, Pool.enumOutline, this]
    have hfield : other.fieldOutline .asWritten = pool.fieldOutline .asWritten :=
      funext h.fieldOutline
    have hextend : other.extendOutline .asWritten = pool.extendOutline .asWritten :=
      funext h.extendOutline
    rw [Renaming.scope_id, hcontents, outlineAround, outlineAround, henum, hfield, hextend]
    exact ⟨rfl, (List.map_id _).symm⟩
  name b _ := by
    have : (other.block b).fullName = (pool.block b).fullName :=
      congrFun h.sameTree.scopeName (.block b)
    rw [show Renaming.id.block b = b from rfl, Block.name, Block.name, this]

end Binds

/-- What is written in a file does not change when names are bound. -/
theorem Swept.outline (h : Swept f pool other) (hw : pool.WellFormed) {g : FileId}
    (hg : pool.HasFile g) : other.outline .asWritten g = pool.outline .asWritten g := by
  induction h with
  | refl => rfl
  | @tail swept last hab hbc ih =>
    have hswept : Swept f pool swept := hab
    have hw' := hswept.sameTree.wellFormed hw
    have hdeclared : last.declared .asWritten (.file g) = swept.declared .asWritten (.file g) :=
      (hbc.shows g).file hw' (hbc.sameTree.wellFormed hw') (hswept.sameTree.files ▸ hg)
    rw [← ih, Pool.outline, Pool.outline, hdeclared, hbc.file_eq]

/-! ### Records of files -/

/-- A file shows the same if nothing is changed that is written in a file. -/
theorem outline_of_sameTree (h : SameTree pool other) (hw : pool.WellFormed) {g : FileId}
    (hg : pool.HasFile g) (hblock : other.block = pool.block) (henum : other.enum = pool.enum)
    (hfield : other.field = pool.field) (hfile : ∀ i, ∃ types, other.file i = { pool.file i with types }) :
    other.outline V g = pool.outline V g := by
  have hshows : Shows .id V V g pool other := by
    refine ⟨fun s _ _ => ?_, fun b _ => by rw [hblock]; rfl⟩
    have hmembers : other.members s = pool.members s := by rw [h.members]
    have hattributes : other.attributes s = pool.attributes s := by
      cases s with
      | file i =>
        obtain ⟨types, he⟩ := hfile i
        simp only [attributes, he]
      | block b => simp only [attributes, hblock]
    have henums : other.enumOutline V = pool.enumOutline V := by
      funext e
      rw [enumOutline, enumOutline, henum]
    have hfields : other.fieldOutline V = pool.fieldOutline V := by
      funext d
      rw [fieldOutline, fieldOutline, hfield]
    have hextends : other.extendOutline V = pool.extendOutline V := by
      funext b
      rw [extendOutline, extendOutline, hblock, hfields]
    have hcontents : other.contents s = pool.contents s := by
      rw [contents, contents, hmembers, hattributes]
    rw [Renaming.scope_id, hcontents, outlineAround, outlineAround, henums, hfields, hextends]
    exact ⟨rfl, (List.map_id _).symm⟩
  have hdeclared : other.declared V (.file g) = pool.declared V (.file g) :=
    hshows.file hw (h.wellFormed hw) hg
  obtain ⟨types, he⟩ := hfile g
  rw [outline, outline, hdeclared, he]

theorem outline_recordTypes (hw : pool.WellFormed) {g : FileId} (hg : pool.HasFile g) :
    (pool.recordTypes f).outline V g = pool.outline V g := by
  have htree : SameTree pool (pool.recordTypes f) := .modifyFile _ _ fun _ => ⟨rfl, rfl⟩
  refine outline_of_sameTree htree hw hg rfl rfl rfl fun i => ?_
  rw [recordTypes, file_modifyFile]
  split
  · exact ⟨_, rfl⟩
  · exact ⟨(pool.file i).types, rfl⟩

/-- What is written in a file does not change when it is completed. -/
theorem Checked.outline (h : Checked f (pool.recordTypes f) other) (hw : pool.WellFormed)
    {g : FileId} (hg : pool.HasFile g) : other.outline .asWritten g = pool.outline .asWritten g := by
  have htree : SameTree pool (pool.recordTypes f) := .modifyFile _ _ fun _ => ⟨rfl, rfl⟩
  obtain ⟨swept, hs, he⟩ := h.swept
  have hw' := htree.wellFormed hw
  have hg' : (pool.recordTypes f).HasFile g := htree.files ▸ hg
  have hset : ({ swept with extensions := other.extensions } : Pool).outline .asWritten g =
      swept.outline .asWritten g :=
    outline_of_sameTree (.setExtensions _) (hs.sameTree.wellFormed hw') (hs.sameTree.files ▸ hg') rfl
      rfl rfl fun i => ⟨(swept.file i).types, rfl⟩
  calc other.outline .asWritten g
    _ = ({ swept with extensions := other.extensions } : Pool).outline .asWritten g :=
      congrArg (fun p => p.outline .asWritten g) he
    _ = swept.outline .asWritten g := hset
    _ = (pool.recordTypes f).outline .asWritten g := hs.outline hw' hg'
    _ = pool.outline .asWritten g := outline_recordTypes hw hg

end Pool

end ProtoSchema
