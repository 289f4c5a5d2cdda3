import ProtoSchema.Proofs.Pool.Effects
import ProtoSchema.Proofs.Renaming.Changes

/-! # Events in pools that match

If an event is applied to a file in two pools that are alike, both times there is the same fault, or
both times there is none and the file matches again (`Alike.apply`). -/

namespace ProtoSchema

namespace Renaming

variable (ρ : Renaming)

def cursor (c : Cursor) : Cursor :=
  { c with file := ρ.file c.file, scope := ρ.scope c.scope, openEnum := c.openEnum.map ρ.enum }

end Renaming

namespace Pool

variable {pool other pool' other' third : Pool} {ρ σ τ : Renaming} {f : FileId} {c : Cursor}
  {ks ks' : OpenBlocks}

/-- Two renamings differ at places of declarations of the file `f` only. -/
structure OnlyAt (f : FileId) (pool : Pool) (ρ σ : Renaming) : Prop where
  file : σ.file = ρ.file
  block : ∀ b, ¬pool.BlockOf f b → σ.block b = ρ.block b
  enum : ∀ e, ¬pool.EnumOf f e → σ.enum e = ρ.enum e
  field : ∀ d, ¬pool.FieldOf f d → σ.field d = ρ.field d

theorem OnlyAt.refl (f : FileId) (pool : Pool) (ρ : Renaming) : OnlyAt f pool ρ ρ :=
  ⟨rfl, fun _ _ => rfl, fun _ _ => rfl, fun _ _ => rfl⟩

theorem onlyAt_setBlock {b b' : BlockId} (hb : pool.BlockOf f b) :
    OnlyAt f pool ρ (ρ.setBlock b b') :=
  ⟨rfl, fun i hi => if_neg fun (e : i = b) => hi (e ▸ hb), fun _ _ => rfl, fun _ _ => rfl⟩

theorem onlyAt_setEnum {e e' : EnumId} (he : pool.EnumOf f e) :
    OnlyAt f pool ρ (ρ.setEnum e e') :=
  ⟨rfl, fun _ _ => rfl, fun i hi => if_neg fun (h : i = e) => hi (h ▸ he), fun _ _ => rfl⟩

theorem onlyAt_setField {d d' : FieldId} (hd : pool.FieldOf f d) :
    OnlyAt f pool ρ (ρ.setField d d') :=
  ⟨rfl, fun _ _ => rfl, fun _ _ => rfl, fun i hi => if_neg fun (h : i = d) => hi (h ▸ hd)⟩

/-- What happened to a file in two pools: the same fault both times, or changes behind which it
matches. -/
inductive SameOutcome (ρ : Renaming) (f : FileId) :
    Except Fault (Cursor × Pool × Option Notice) → Except Fault (Cursor × Pool × Option Notice) →
      Prop
  | ok {σ c pool other notice} (only : OnlyAt f pool ρ σ) (matched : Matches σ f pool other) :
      SameOutcome ρ f (.ok (c, pool, notice)) (.ok (σ.cursor c, other, notice))
  | error {fault} : SameOutcome ρ f (.error fault) (.error fault)

theorem addMessage_eq (file : FileId) (parent : Scope) (name : Located String) :
    pool.addMessage file parent name = (pool.checkName parent name).map fun _ =>
      (({ pool with blocks := pool.blocks.push (pool.newMessage file parent name) } :
        Pool).modifyMembers parent fun m =>
          { m with messages := m.messages.insert name.value ⟨pool.blocks.size⟩ },
        ⟨pool.blocks.size⟩) := by
  unfold addMessage
  cases pool.checkName parent name <;> rfl

theorem addEnum_eq (file : FileId) (parent : Scope) (name : Located String) :
    pool.addEnum file parent name = (pool.checkName parent name).map fun _ =>
      (({ pool with enums := pool.enums.push (pool.newEnum file parent name) } :
        Pool).modifyMembers parent fun m =>
          { m with enums := m.enums.insert name.value ⟨pool.enums.size⟩ },
        ⟨pool.enums.size⟩) := by
  unfold addEnum
  cases pool.checkName parent name <;> rfl

/-- The pool with a field behind the others and in its block. -/
def withField (pool : Pool) (F : Field) : Pool :=
  ({ pool with fields := pool.fields.push F } : Pool).modifyBlock F.block fun b =>
    { b with fields := b.fields.insert F.number.value ⟨pool.fields.size⟩ }

theorem addField_eq (F : Field) :
    pool.addField F =
      match (pool.block F.block).fields.find? F.number.value with
      | some first => .error (.duplicateFieldNumber F.number.value (pool.block F.block).title
          (pool.field first).number.span F.number.span)
      | none => (pool.checkName (.block F.block) F.name).map fun _ => pool.withField F := by
  simp only [addField]
  cases (pool.block F.block).fields.find? F.number.value with
  | some first => rfl
  | none => cases pool.checkName (.block F.block) F.name <;> rfl

/-! ### Names in a scope -/

theorem Matches.placeOf? (h : Matches ρ f pool other) (hw : pool.WellFormed) {s : Scope}
    (hs : pool.InRange s) (hsf : pool.scopeFile s = f) (name : String) :
    other.placeOf? (ρ.scope s) name = pool.placeOf? s name := by
  have hmessage : ((other.members (ρ.scope s)).messages.find? name).map
      (fun b => (other.block b).span) =
        ((pool.members s).messages.find? name).map fun b => (pool.block b).span := by
    rw [h.members hs hsf]
    simp only [Renaming.members, Table.find?_map]
    cases hb : (pool.members s).messages.find? name with
    | none => rfl
    | some b =>
      obtain ⟨hhas, hp, -⟩ := (hw.message_iff s name b).mp hb
      have := h.block b ⟨hhas, (hw.file_of_parent hhas hp).trans hsf⟩
      show some (other.block (ρ.block b)).span = _
      rw [this]
      rfl
  have henum : ((other.members (ρ.scope s)).enums.find? name).map
      (fun e => (other.enum e).span) =
        ((pool.members s).enums.find? name).map fun e => (pool.enum e).span := by
    rw [h.members hs hsf]
    simp only [Renaming.members, Table.find?_map]
    cases he : (pool.members s).enums.find? name with
    | none => rfl
    | some e =>
      obtain ⟨hhas, hp, -⟩ := (hw.enum_iff s name e).mp he
      have := h.enum e ⟨hhas, (hw.enum_scope e hhas).2.symm.trans (hp ▸ hsf)⟩
      show some (other.enum (ρ.enum e)).span = _
      rw [this]
      rfl
  cases s with
  | file i =>
    simp only [Pool.placeOf?]
    exact congrArg₂ Option.or hmessage (congrArg₂ Option.or henum rfl)
  | block b =>
    have hfields : (other.block (ρ.block b)).fields.values.map other.field =
        ((pool.block b).fields.values.map pool.field).map ρ.onField := by
      rw [h.block b ⟨hs, hsf⟩, List.map_map]
      simp only [Renaming.onBlock, Table.values_map, List.map_map]
      refine List.map_congr_left fun d hd => ?_
      obtain ⟨hd, hdb⟩ := hw.mem_fields_iff.mp hd
      exact h.field d ⟨hd, hdb ▸ ⟨hs, hsf⟩⟩
    have hfield : (((other.block (ρ.block b)).fields.values.map other.field).find?
        (·.name.value = name)).map (fun d => d.name.span) =
          (((pool.block b).fields.values.map pool.field).find? (·.name.value = name)).map
            fun d => d.name.span := by
      rw [hfields, List.find?_map, Option.map_map]
      rfl
    simp only [Pool.placeOf?]
    exact congrArg₂ Option.or hmessage (congrArg₂ Option.or henum hfield)

theorem Matches.checkName (h : Matches ρ f pool other) (hw : pool.WellFormed) {s : Scope}
    (hs : pool.InRange s) (hsf : pool.scopeFile s = f) (name : Located String) :
    other.checkName (ρ.scope s) name = pool.checkName s name := by
  unfold Pool.checkName
  rw [h.placeOf? hw hs hsf, h.scopeTitle hs hsf]

/-! ### Statements of a file -/

namespace Alike

section events

variable (h : Alike ρ f pool other) (hcf : c.file = f)
include h hcf

theorem addEdition (e : Located Edition) :
    SameOutcome ρ f (c.apply pool (.edition e)) ((ρ.cursor c).apply other (.edition e)) := by
  subst hcf
  have hedition : (other.file (ρ.file c.file)).edition = (pool.file c.file).edition := by
    rw [h.own.file]
    rfl
  simp only [Cursor.apply, Cursor.addEdition, Renaming.cursor, hedition]
  cases (pool.file c.file).edition with
  | some first => exact .error
  | none => exact .ok (.refl ..) (h.own.modifyFile h.there h.there' rfl)

theorem addPackage (name : Located DottedName) :
    SameOutcome ρ f (c.apply pool (.package name)) ((ρ.cursor c).apply other (.package name)) := by
  subst hcf
  have hpackage : (other.file (ρ.file c.file)).package = (pool.file c.file).package := by
    rw [h.own.file]
    rfl
  obtain ⟨file, scope, openEnum, defined⟩ := c
  simp only [Cursor.apply, Cursor.addPackage, Renaming.cursor, hpackage]
  cases (pool.file file).package with
  | some first => exact .error
  | none =>
    cases defined with
    | true => exact .error
    | false => exact .ok (.refl ..) (h.own.modifyFile h.there h.there' rfl)

theorem required (span : Span) :
    SameOutcome ρ f (c.apply pool (.required span)) ((ρ.cursor c).apply other (.required span)) := by
  subst hcf
  have hedition : (other.file (ρ.file c.file)).editionOrOldest =
      (pool.file c.file).editionOrOldest := by
    rw [h.own.file]
    rfl
  simp only [Cursor.apply, Renaming.cursor, hedition]
  split
  · exact .error
  · exact .ok (.refl ..) h.own

/-- The type of a new field is the same up to the renaming. -/
theorem fieldType (hs : pool.InRange c.scope) (hsf : pool.scopeFile c.scope = f) (t : WrittenType) :
    (ρ.cursor c).fieldType other t = ρ.fieldType (c.fieldType pool t) := by
  subst hcf
  cases t with
  | scalar s => rfl
  | named name => exact congrArg (FieldType.named name) (h.resolve? hs hsf name)

variable (hf : c.Fits pool ks)
include hf

theorem addOption (o : OptionDecl) :
    SameOutcome ρ f (c.apply pool (.option o)) ((ρ.cursor c).apply other (.option o)) := by
  subst hcf
  refine .ok (.refl ..) ?_
  obtain ⟨file, scope, openEnum, defined⟩ := c
  cases openEnum with
  | some e => exact h.own.modifyEnum (hf.enumOf rfl) rfl rfl
  | none =>
    cases scope with
    | file i =>
      obtain rfl : i = file := hf.scope_file rfl
      exact h.own.modifyFile h.there h.there' rfl
    | block b => exact h.own.modifyBlock (hf.scope_block rfl) rfl rfl

/-- A change of ranges or names of the open block. -/
theorem modifyOpen {k : Block → Block} (hk : ∀ b, k (ρ.onBlock b) = ρ.onBlock (k b))
    (hfile : ∀ b, (k b).file = b.file) :
    Matches ρ f (c.modifyOpen pool k) ((ρ.cursor c).modifyOpen other k) := by
  subst hcf
  obtain ⟨file, scope, openEnum, defined⟩ := c
  cases scope with
  | file i => exact h.own
  | block b => exact h.own.modifyBlock (hf.scope_block rfl) (hk _) (hfile _)

theorem addValue (v : ValueDecl) :
    SameOutcome ρ f (c.apply pool (.value v)) ((ρ.cursor c).apply other (.value v)) := by
  subst hcf
  obtain ⟨file, scope, openEnum, defined⟩ := c
  cases openEnum with
  | none => exact .ok (.refl ..) h.own
  | some e =>
    have he := hf.enumOf rfl
    have hvalues : (other.enum (ρ.enum e)).values = (pool.enum e).values := by
      rw [h.own.enum e he]
      rfl
    have hname : (other.enum (ρ.enum e)).fullName = (pool.enum e).fullName := by
      rw [h.own.enum e he]
      rfl
    simp only [Cursor.apply, Renaming.cursor, Option.map_some, Pool.addValue, hvalues, hname]
    cases (pool.enum e).values.find? v.number.value with
    | some first => exact .error
    | none =>
      dsimp only
      cases (pool.enum e).values.values.find? (·.name.value = v.name.value) with
      | some first => exact .error
      | none =>
        refine .ok (.refl ..) (h.own.modifyEnum he (k := fun e => { e with
          values := e.values.insert v.number.value ⟨v.name, v.options⟩ }) ?_ rfl)
        rfl

/-- A block or an enum ends. -/
theorem close : SameOutcome ρ f (c.apply pool .close) ((ρ.cursor c).apply other .close) := by
  subst hcf
  obtain ⟨file, scope, openEnum, defined⟩ := c
  cases openEnum with
  | some e =>
    have hclose : Cursor.closeEnum (other.enum (ρ.enum e)) = Cursor.closeEnum (pool.enum e) := by
      rw [h.own.enum e (hf.enumOf rfl)]
      rfl
    simp only [Cursor.apply, Renaming.cursor, Option.map_some, hclose]
    cases Cursor.closeEnum (pool.enum e) with
    | error fault => exact .error
    | ok notice => exact .ok (.refl ..) h.own
  | none =>
    have hparent : (other.parent? (ρ.scope scope)).getD (ρ.scope scope) =
        ρ.scope ((pool.parent? scope).getD scope) := by
      cases scope with
      | file i => rfl
      | block b =>
        show (other.block (ρ.block b)).parent = ρ.scope (pool.block b).parent
        rw [h.own.block b (hf.scope_block rfl)]
        rfl
    simp only [Cursor.apply, Renaming.cursor, Option.map_none, hparent]
    exact SameOutcome.ok (.refl ..) h.own

/-! ### New declarations -/

theorem openMessage (hks : ks.TakesTypes) (name : Located String) :
    SameOutcome ρ f (c.apply pool (.openMessage name))
      ((ρ.cursor c).apply other (.openMessage name)) := by
  subst hcf
  obtain ⟨hs, hsf⟩ := hf.hasScope hks
  obtain ⟨hs', -⟩ := h.own.hasScope h.there' hs hsf
  have hcheck := h.own.checkName h.left hs.inRange hsf name
  have hscope := h.own.scopeName hs.inRange hsf
  simp only [Cursor.apply, Renaming.cursor, addMessage_eq, hcheck]
  cases hc : pool.checkName c.scope name with
  | error fault => exact .error
  | ok u =>
    let σ := ρ.setBlock ⟨pool.blocks.size⟩ ⟨other.blocks.size⟩
    have hagree : AgreeOn (fun _ => True) pool ρ σ := agreeOn_setBlock _
    have hσ : Matches σ c.file pool other :=
      h.own.congr h.left (h.grounded _ (.refl _)) (hagree.mono fun _ _ => trivial)
    have hsσ : σ.scope c.scope = ρ.scope c.scope := hagree.scope hs.inRange trivial
    have hnew : σ.block ⟨pool.blocks.size⟩ = ⟨other.blocks.size⟩ := if_pos rfl
    have hadded := blockAdded (pool.newMessage c.file c.scope name)
      (fun m => { m with messages := m.messages.insert name.value ⟨pool.blocks.size⟩ }) rfl hs
    have hadded' := blockAdded (other.newMessage (ρ.file c.file) (ρ.scope c.scope) name)
      (fun m => { m with messages := m.messages.insert name.value ⟨other.blocks.size⟩ }) rfl hs'
    have hmatches := hσ.blockAdded h.left h.right h.there hadded hadded' hnew rfl
      (by simp only [newMessage, Renaming.onBlock, Renaming.heading, hscope, hsσ]; rfl) hs hsf
      (by simp only [Renaming.members, Table.map_insert, hnew])
    have hcursor : σ.cursor (c.inside ⟨pool.blocks.size⟩) =
        (ρ.cursor c).inside ⟨other.blocks.size⟩ := by
      simp only [Renaming.cursor, Cursor.inside, Renaming.scope, hnew]
      rfl
    have : SameOutcome ρ c.file (.ok (c.inside ⟨pool.blocks.size⟩, _, none))
        (.ok (σ.cursor (c.inside ⟨pool.blocks.size⟩), _, none)) :=
      .ok (onlyAt_setBlock ((hadded.blockOf_iff rfl).mpr (.inr rfl))) hmatches
    rw [hcursor] at this
    exact this

theorem openExtend (hks : ks.TakesTypes) (ht : pool.TypesSound) (type : Located TypeName) :
    SameOutcome ρ f (c.apply pool (.openExtend type))
      ((ρ.cursor c).apply other (.openExtend type)) := by
  subst hcf
  obtain ⟨hs, hsf⟩ := hf.hasScope hks
  obtain ⟨hs', -⟩ := h.own.hasScope h.there' hs hsf
  have htarget := h.resolve? hs.inRange hsf type.value
  let σ := ρ.setBlock ⟨pool.blocks.size⟩ ⟨other.blocks.size⟩
  have hagree : AgreeOn (fun _ => True) pool ρ σ := agreeOn_setBlock _
  have hσ : Matches σ c.file pool other :=
    h.own.congr h.left (h.grounded _ (.refl _)) (hagree.mono fun _ _ => trivial)
  have hsσ : σ.scope c.scope = ρ.scope c.scope := hagree.scope hs.inRange trivial
  have hnew : σ.block ⟨pool.blocks.size⟩ = ⟨other.blocks.size⟩ := if_pos rfl
  have htσ : (pool.resolve? c.file c.scope type.value).map σ.type =
      (pool.resolve? c.file c.scope type.value).map ρ.type := by
    cases hr : pool.resolve? c.file c.scope type.value with
    | none => rfl
    | some t =>
      exact congrArg some (hagree.type (h.left.resolve?_hasType ht hr) trivial)
  have hadded := blockAdded_addExtend c.file type (pool.resolve? c.file c.scope type.value) hs
  have hadded' := blockAdded_addExtend (ρ.file c.file) type
    (other.resolve? (ρ.file c.file) (ρ.scope c.scope) type.value) hs'
  have hmatches := hσ.blockAdded h.left h.right h.there hadded hadded' hnew rfl
    (by simp only [newExtend, Renaming.onBlock, Renaming.heading, hsσ, htarget, htσ]; rfl) hs hsf
    (by simp only [Renaming.members, List.map_append, List.map_singleton, hnew])
  have hcursor : σ.cursor (c.inside ⟨pool.blocks.size⟩) =
      (ρ.cursor c).inside ⟨other.blocks.size⟩ := by
    simp only [Renaming.cursor, Cursor.inside, Renaming.scope, hnew]
    rfl
  have : SameOutcome ρ c.file (.ok (c.inside ⟨pool.blocks.size⟩, _, none))
      (.ok (σ.cursor (c.inside ⟨pool.blocks.size⟩), _, none)) :=
    .ok (onlyAt_setBlock ((hadded.blockOf_iff rfl).mpr (.inr rfl))) hmatches
  rw [hcursor] at this
  exact this

theorem openEnum (hks : ks.TakesTypes) (name : Located String) :
    SameOutcome ρ f (c.apply pool (.openEnum name)) ((ρ.cursor c).apply other (.openEnum name)) := by
  subst hcf
  obtain ⟨hs, hsf⟩ := hf.hasScope hks
  obtain ⟨hs', -⟩ := h.own.hasScope h.there' hs hsf
  have hcheck := h.own.checkName h.left hs.inRange hsf name
  have hscope := h.own.scopeName hs.inRange hsf
  simp only [Cursor.apply, Renaming.cursor, addEnum_eq, hcheck]
  cases hc : pool.checkName c.scope name with
  | error fault => exact .error
  | ok u =>
    let σ := ρ.setEnum ⟨pool.enums.size⟩ ⟨other.enums.size⟩
    have hagree : AgreeOn (fun _ => True) pool ρ σ := agreeOn_setEnum _
    have hσ : Matches σ c.file pool other :=
      h.own.congr h.left (h.grounded _ (.refl _)) (hagree.mono fun _ _ => trivial)
    have hsσ : σ.scope c.scope = ρ.scope c.scope := hagree.scope hs.inRange trivial
    have hnew : σ.enum ⟨pool.enums.size⟩ = ⟨other.enums.size⟩ := if_pos rfl
    have hadded := enumAdded (pool.newEnum c.file c.scope name)
      (fun m => { m with enums := m.enums.insert name.value ⟨pool.enums.size⟩ }) hs
    have hadded' := enumAdded (other.newEnum (ρ.file c.file) (ρ.scope c.scope) name)
      (fun m => { m with enums := m.enums.insert name.value ⟨other.enums.size⟩ }) hs'
    have hmatches := hσ.enumAdded h.there hadded hadded' hnew rfl
      (by simp only [newEnum, Renaming.onEnum, hscope, hsσ]; rfl) hs hsf
      (by simp only [Renaming.members, Table.map_insert, hnew])
    have hcursor : σ.cursor { c with openEnum := some ⟨pool.enums.size⟩, defined := true } =
        { ρ.cursor c with openEnum := some ⟨other.enums.size⟩, defined := true } := by
      simp only [Renaming.cursor, hsσ, Option.map_some, hnew]
      rfl
    have : SameOutcome ρ c.file
        (.ok ({ c with openEnum := some ⟨pool.enums.size⟩, defined := true }, _, none))
        (.ok (σ.cursor { c with openEnum := some ⟨pool.enums.size⟩, defined := true }, _, none)) :=
      .ok (onlyAt_setEnum ((hadded.enumOf_iff rfl).mpr (.inr rfl))) hmatches
    rw [hcursor] at this
    exact this

theorem addField (d : FieldDecl) :
    SameOutcome ρ f (c.apply pool (.field d)) ((ρ.cursor c).apply other (.field d)) := by
  cases hscope : c.scope with
  | file i =>
    have hscope' : (ρ.cursor c).scope = .file (ρ.file i) := by simp [Renaming.cursor, hscope, Renaming.scope]
    simp only [Cursor.apply, Cursor.addField, hscope, hscope']
    exact .ok (.refl ..) h.own
  | block b =>
    have hscope' : (ρ.cursor c).scope = .block (ρ.block b) := by simp [Renaming.cursor, hscope, Renaming.scope]
    have hb : pool.BlockOf f b := hcf ▸ hf.scope_block hscope
    have hblock := h.own.block b hb
    have hcheck : other.checkName (.block (ρ.block b)) d.name = pool.checkName (.block b) d.name :=
      h.own.checkName h.left (s := .block b) hb.1 hb.2 d.name
    have hfind : (other.block (ρ.block b)).fields.find? d.number.value =
        ((pool.block b).fields.find? d.number.value).map ρ.field := by
      rw [hblock]
      exact Table.find?_map ..
    have htype := h.fieldType hcf (hscope ▸ hb.1) (hscope ▸ hb.2) d.type.value
    have hnumber : ∀ first, (pool.block b).fields.find? d.number.value = some first →
        (other.field (ρ.field first)).number = (pool.field first).number := by
      intro first hfirst
      obtain ⟨hd, hdb, -⟩ := (h.left.field_iff b _ first).mp hfirst
      rw [h.own.field first ⟨hd, hdb ▸ hb⟩]
      rfl
    have htitle : (other.block (ρ.block b)).title = (pool.block b).title := by
      rw [hblock, Renaming.title_onBlock]
    simp only [Cursor.apply, Cursor.addField, hscope, hscope', addField_eq, hfind]
    cases hfirst : (pool.block b).fields.find? d.number.value with
    | some first =>
      simp only [Option.map_some, htitle, hnumber first hfirst]
      exact .error
    | none =>
      simp only [Option.map_none, hcheck]
      cases hc : pool.checkName (.block b) d.name with
      | error fault => exact .error
      | ok u =>
        let σ := ρ.setField ⟨pool.fields.size⟩ ⟨other.fields.size⟩
        have hσ : Matches σ f pool other := h.own.congr h.left (h.grounded _ (.refl _))
          ((agreeOn_setField _).mono fun _ _ => trivial)
        have hadded : FieldAdded pool (pool.withField (c.newField pool d b)) (c.newField pool d b) :=
          fieldAdded (by rw [addField_eq]; simp only [Cursor.newField, hfirst, hc]; rfl) hb.1
        have hadded' : FieldAdded other (other.withField ((ρ.cursor c).newField other d (ρ.block b)))
            ((ρ.cursor c).newField other d (ρ.block b)) := by
          refine fieldAdded ?_ (h.own.blockOf hb).1
          rw [addField_eq]
          simp only [Cursor.newField, hfind, hfirst, hcheck, hc]
          rfl
        have hmatches := hσ.fieldAdded hadded hadded' (if_pos rfl) hb (by
          simp only [Cursor.newField, Renaming.onField, htype]
          rfl)
        have : SameOutcome ρ f (.ok (c, _, none)) (.ok (σ.cursor c, _, none)) :=
          .ok (onlyAt_setField ((hadded.fieldOf_iff hb).mpr (.inr rfl))) hmatches
        exact this

end events

/-- An event of a file that fits has the same outcome in pools that are alike. -/
theorem apply (h : Alike ρ c.file pool other) (ht : pool.TypesSound) (hf : c.Fits pool ks)
    {e : Event} (hn : e.Nests ks ks') :
    SameOutcome ρ c.file (c.apply pool e) ((ρ.cursor c).apply other e) := by
  cases e with
  | edition e => exact h.addEdition rfl e
  | package name => exact h.addPackage rfl name
  | importFile kind target => exact .ok (.refl ..) h.own
  | option o => exact h.addOption rfl hf o
  | openMessage name =>
    cases hn with
    | openMessage hks => exact h.openMessage rfl hf hks name
  | openExtend type =>
    cases hn with
    | openExtend hks => exact h.openExtend rfl hf hks ht type
  | openEnum name =>
    cases hn with
    | openEnum hks => exact h.openEnum rfl hf hks name
  | required span => exact h.required rfl span
  | field d => exact h.addField rfl hf d
  | value v => exact h.addValue rfl hf v
  | reservedRanges rs => exact .ok (.refl ..) (h.modifyOpen rfl hf (fun _ => rfl) fun _ => rfl)
  | reservedNames names => exact .ok (.refl ..) (h.modifyOpen rfl hf (fun _ => rfl) fun _ => rfl)
  | extensionRanges rs => exact .ok (.refl ..) (h.modifyOpen rfl hf (fun _ => rfl) fun _ => rfl)
  | close => exact h.close rfl hf

end Alike

end Pool

end ProtoSchema
