import ProtoSchema.Proofs.Pool.Rebuilding

/-! # What the statements of a file build

The statements of a declaration build the declaration, as the text of the file shows it
(`View.asPrinted`): one lemma for each kind of declaration, and for messages an induction over what is
nested in them. -/

namespace ProtoSchema

open Located (unplaced)
open Event (Rereads)

/-! ### Insertions that succeed -/

namespace Pool

variable {pool : Pool}

theorem addMessage_of_free (file : FileId) {s : Scope} {name : Located String}
    (h : pool.placeOf? s name.value = none) :
    ∃ other, pool.addMessage file s name = .ok (other, ⟨pool.blocks.size⟩) := by
  unfold addMessage
  rw [checkName_eq_ok_iff.mpr h]
  exact ⟨_, rfl⟩

theorem addEnum_of_free (file : FileId) {s : Scope} {name : Located String}
    (h : pool.placeOf? s name.value = none) :
    ∃ other, pool.addEnum file s name = .ok (other, ⟨pool.enums.size⟩) := by
  unfold addEnum
  rw [checkName_eq_ok_iff.mpr h]
  exact ⟨_, rfl⟩

theorem addField_of_free {F : Field} (hnumber : (pool.block F.block).fields.find? F.number.value = none)
    (h : pool.placeOf? (.block F.block) F.name.value = none) : ∃ other, pool.addField F = .ok other := by
  unfold addField
  rw [checkName_eq_ok_iff.mpr h]
  simp only [hnumber]
  exact ⟨_, rfl⟩

theorem addValue_of_free {e : EnumId} {v : ValueDecl}
    (hnumber : (pool.enum e).values.find? v.number.value = none)
    (hname : ∀ x ∈ (pool.enum e).values.values, x.name.value ≠ v.name.value) :
    ∃ other, pool.addValue e v = .ok other := by
  have hfind : (pool.enum e).values.values.find? (·.name.value = v.name.value) = none :=
    List.find?_eq_none.mpr fun x hx => by simpa using hname x hx
  unfold addValue
  simp only [hnumber, hfind]
  exact ⟨_, rfl⟩

end Pool

theorem asWritten_option : View.asWritten.option = id := rfl

namespace Cursor

variable {c c₁ c' : Cursor} {pool pool₁ other : Pool} {v : Edition} {k : Option BlockKind}
  {D D' : ScopeOutline}

/-! ### Options, reserved and extension numbers -/

/-- Options and ranges are added to a block. -/
theorem built_attributes (hs : Site v k c pool) {b : BlockId} (hb : c.scope = .block b)
    (os : List OptionDecl) (rs : List NumberRange) (names : List String) (xs : List NumberRange)
    {g : Block → Block} (hg : ∀ x : Block, g x = { x with
      options := x.options ++ os, reservedRanges := x.reservedRanges ++ rs,
      reservedNames := x.reservedNames ++ names, extensionRanges := x.extensionRanges ++ xs }) :
    Built c pool
      { options := os, reservedRanges := rs, reservedNames := names, extensionRanges := xs } c
      (pool.modifyBlock b g) := by
  have hthere : pool.HasBlock b := by
    have hscope := hs.scope
    rwa [hb] at hscope
  have htree : (pool.modifyBlock b g).WellFormed := by
    refine Pool.SameTree.wellFormed (.modifyBlock b g fun x => ?_) hs.tree
    rw [hg]
    exact ⟨rfl, rfl, rfl, rfl, rfl, rfl⟩
  refine built_of_contents (L := {
    options := os, reservedRanges := rs, reservedNames := names, extensionRanges := xs })
    hs.tree htree ?_ ?_ ?_ rfl rfl hs.noEnum
  · rw [hb]
    refine .modifyBlock fun x => ?_
    rw [hg]
    exact ⟨rfl, rfl, rfl⟩
  · rw [hb]
    simp only [Pool.contents, Pool.attributes, Pool.members, Pool.block_modifyBlock, hthere, and_true,
      if_true, hg, Declarations.append_def, List.append_nil]
  · simp only [Pool.outlineOf, Pool.outlineAround, asWritten_option, List.map_id, List.map_nil]

/-- An option of a file is added to its options. -/
theorem built_fileOption (hs : Site v k c pool) {i : FileId} (hscope : c.scope = .file i)
    (o : OptionDecl) : Built c pool { options := [o] } c
      (pool.modifyFile i fun f => { f with options := f.options ++ [o] }) := by
  have hthere : pool.HasFile i := by
    have hscope' := hs.scope
    rwa [hscope] at hscope'
  have htree : (pool.modifyFile i fun f => { f with options := f.options ++ [o] }).WellFormed :=
    Pool.SameTree.wellFormed (.modifyFile i _ fun _ => ⟨rfl, rfl⟩) hs.tree
  refine built_of_contents (L := { options := [o] }) hs.tree htree ?_ ?_ ?_ rfl rfl hs.noEnum
  · rw [hscope]
    exact .modifyFile fun x => ⟨_, _, rfl⟩
  · rw [hscope]
    simp only [Pool.contents, Pool.attributes, Pool.members, Pool.file_modifyFile, hthere, and_true,
      if_true, Declarations.append_def, List.append_nil]
  · rfl

namespace Builds

theorem option (o : OptionDecl) : Builds v k [.option o] { options := [o.reread] } := by
  intro c pool es hes hs hf
  obtain ⟨e, rfl, he⟩ := hes.single
  have he : e = .option o.reread := by
    cases e <;> cases he
    rfl
  subst he
  refine ⟨c, c.addOption pool o.reread, .single (by simp) rfl, ?_⟩
  unfold addOption
  rw [hs.noEnum]
  cases hscope : c.scope with
  | block b => exact built_attributes hs hscope [o.reread] [] [] [] fun x => by simp
  | file i => exact built_fileOption hs hscope o.reread

theorem options (os : List OptionDecl) :
    Builds v k (os.map .option) { options := os.map OptionDecl.reread } := by
  rw [List.map_eq_flatMap]
  exact flatMap (fun os => { options := os.map OptionDecl.reread }) rfl (fun _ _ => rfl)
    fun o _ => option o

/-- A statement that adds to the attributes of a block. -/
theorem ofModifyOpen {kind : BlockKind} {e : Event} {os : List OptionDecl} {rs : List NumberRange}
    {names : List String} {xs : List NumberRange} {g : Block → Block}
    (hg : ∀ x, g x = { x with
      options := x.options ++ os, reservedRanges := x.reservedRanges ++ rs,
      reservedNames := x.reservedNames ++ names, extensionRanges := x.extensionRanges ++ xs })
    (hbare : ∀ e', e'.bare = e.reread.bare → (∀ kind target, e' ≠ .importFile kind target) ∧
      ∀ c pool, Cursor.apply c pool e' = .ok (c, c.modifyOpen pool g, none)) :
    Builds v (some kind) [e]
      { options := os, reservedRanges := rs, reservedNames := names, extensionRanges := xs } := by
  intro c pool es hes hs hf
  obtain ⟨e', rfl, he⟩ := hes.single
  obtain ⟨hne, happly⟩ := hbare e' he
  refine ⟨c, _, .single hne (happly c pool), ?_⟩
  have hkind := hs.kind
  unfold modifyOpen
  cases hscope : c.scope with
  | block b => exact built_attributes hs hscope os rs names xs hg
  | file i =>
    rw [hscope] at hkind
    cases hkind

theorem reservedRanges {K : BlockKind} (rs : List NumberRange) :
    Builds v (some K) [.reservedRanges rs] { reservedRanges := rs } := by
  refine ofModifyOpen (g := fun b => { b with reservedRanges := b.reservedRanges ++ rs })
    (fun x => by simp) fun e' he => ?_
  cases e' <;> cases he
  exact ⟨by simp, fun _ _ => rfl⟩

theorem reservedNames {K : BlockKind} (names : List String) :
    Builds v (some K) [.reservedNames names] { reservedNames := names } := by
  refine ofModifyOpen (g := fun b => { b with reservedNames := b.reservedNames ++ names })
    (fun x => by simp) fun e' he => ?_
  cases e' <;> cases he
  exact ⟨by simp, fun _ _ => rfl⟩

theorem extensionRanges {K : BlockKind} (rs : List NumberRange) :
    Builds v (some K) [.extensionRanges rs] { extensionRanges := rs } := by
  refine ofModifyOpen (g := fun b => { b with extensionRanges := b.extensionRanges ++ rs })
    (fun x => by simp) fun e' he => ?_
  cases e' <;> cases he
  exact ⟨by simp, fun _ _ => rfl⟩

/-- A statement that is left out when it has nothing to say. -/
theorem unlessNil {α : Type} [DecidableEq α] {as : List α} {e : Event} {D : List α → ScopeOutline}
    (hnil : D [] = {}) (h : Builds v k [e] (D as)) : Builds v k (if as = [] then [] else [e]) (D as) := by
  split
  · next has =>
    rw [has, hnil]
    exact nil
  · exact h

theorem ranges {K : BlockKind} (b : Block) : Builds v (some K) (Pool.rangeStatements b)
    { reservedRanges := b.reservedRanges, reservedNames := b.reservedNames,
      extensionRanges := b.extensionRanges } := by
  have h₁ := unlessNil (D := fun rs => { reservedRanges := rs }) rfl
    (reservedRanges (v := v) (K := K) b.reservedRanges)
  have h₂ := unlessNil (D := fun names => { reservedNames := names }) rfl
    (reservedNames (v := v) (K := K) b.reservedNames)
  have h₃ := unlessNil (D := fun rs => { extensionRanges := rs }) rfl
    (extensionRanges (v := v) (K := K) b.extensionRanges)
  have hall := (h₁.append h₂).append h₃
  simp only [Declarations.append_def, List.append_nil, List.nil_append] at hall
  exact hall

end Builds

/-! ### Fields -/

/-- A field without the places of its parts. -/
def bareField (f : FieldDecl) : FieldDecl :=
  { f with type := f.type.bare, name := f.name.bare, number := f.number.bare }

/-- Looking a type up does not change how it is written. -/
theorem asWritten_newField (c : Cursor) (pool : Pool) (f : FieldDecl) (b : BlockId) :
    View.asWritten.field (c.newField pool f b) = bareField f := by
  have htype : View.asWritten.fieldType (c.fieldType pool f.type.value) = f.type.value := by
    cases f.type.value <;> rfl
  simp only [View.field, newField, asWritten_option, List.map_id, htype, bareField]
  rfl

theorem contents_fieldAdded {F : Field} (h : Pool.FieldAdded pool other F)
    (hfree : (pool.block F.block).fields.find? F.number.value = none) :
    other.contents (.block F.block) =
      pool.contents (.block F.block) ++ { fields := [⟨pool.fields.size⟩] } := by
  have hfields : (other.block F.block).fields.values =
      (pool.block F.block).fields.values ++ [⟨pool.fields.size⟩] := by
    rw [h.block_fields, if_pos rfl, Table.values, Table.entries_insert hfree, List.map_append]
    rfl
  simp only [Pool.contents, Pool.attributes, Pool.members, hfields, Declarations.append_def,
    List.append_nil]
  rw [h.block F.block]

/-- A field that can be added is built. -/
theorem built_newField (hs : Site v k c pool) {b : BlockId} (hb : c.scope = .block b) {f : FieldDecl}
    (hadd : pool.addField (c.newField pool f b) = .ok other) :
    Built c pool { fields := [bareField f] } c other := by
  have hthere : pool.HasBlock b := by
    have hscope := hs.scope
    rwa [hb] at hscope
  have hadded := Pool.fieldAdded hadd hthere
  refine built_of_contents (L := { fields := [⟨pool.fields.size⟩] }) hs.tree
    (hs.tree.addField hadd hthere) ?_ ?_ ?_ rfl rfl hs.noEnum
  · rw [hb]
    exact .of_fieldAdded hadded
  · rw [hb]
    exact contents_fieldAdded hadded (Pool.addField_eq_ok hadd).1
  · simp only [Pool.outlineOf, Pool.outlineAround, List.map_cons, List.map_nil, Pool.fieldOutline,
      hadded.field_new, asWritten_newField]

namespace Builds

/-- A field that no label stands in front of. -/
theorem field {kind : BlockKind} (f : FieldDecl) : Builds v (some kind) [.field f]
    { fields := [bareField { f with options := f.options.map OptionDecl.reread }] } := by
  intro c pool es hes hs hf
  obtain ⟨e, rfl, he⟩ := hes.single
  obtain ⟨b, hb⟩ : ∃ b, c.scope = .block b := by
    have hkind := hs.kind
    cases hscope : c.scope with
    | file i =>
      rw [hscope] at hkind
      cases hkind
    | block b => exact ⟨b, rfl⟩
  obtain ⟨f', rfl, hf'⟩ : ∃ f', e = .field f' ∧
      bareField f' = bareField { f with options := f.options.map OptionDecl.reread } := by
    cases e with
    | field f' => exact ⟨f', rfl, Event.field.inj he⟩
    | _ => cases he
  rw [← hf'] at hf ⊢
  -- the number and the name are those of the declaration that is to be built
  have hnumber := hf.number hs.tree hb (n := f'.number.value) (List.mem_singleton_self _)
  have hname := hf.placeOf? hs.tree (n := f'.name.value) (List.mem_singleton_self _)
  rw [hb] at hname
  obtain ⟨other, hadd⟩ := Pool.addField_of_free (F := c.newField pool f' b) hnumber hname
  have happly : c.apply pool (.field f') = .ok (c, other, none) := by
    simp only [apply, addField, hb]
    exact congrArg (Except.map _) hadd
  exact ⟨c, other, .single (by simp) happly, built_newField hs hb hadd⟩

/-- A label in front of a field, where the label is allowed. -/
theorem required {span : Span} (hv : v ≠ .proto3) : Builds v k [.required span] {} := by
  intro c pool es hes hs hf
  obtain ⟨e, rfl, he⟩ := hes.single
  obtain ⟨span', rfl⟩ : ∃ span', e = .required span' := by
    cases e <;> cases he
    exact ⟨_, rfl⟩
  have happly : c.apply pool (.required span') = .ok (c, pool, none) := by
    simp only [apply, hs.edition, hv, if_false]
  refine ⟨c, pool, .single (by simp) happly, rfl, rfl, hs.noEnum, hs.tree, .refl _ _, ?_⟩
  simp only [Declarations.append_def, List.append_nil]

/-- The statements of a field of another pool. -/
theorem fieldStatements {kind : BlockKind} (source : Pool) (d : FieldId)
    (hv : (source.field d).form = .plain (some .required) → v ≠ .proto3) :
    Builds v (some kind) (source.fieldStatements d)
      { fields := [source.fieldOutline (.asPrinted source) d] } := by
  have htype : (View.asPrinted source).fieldType (source.field d).type =
      source.boundType (source.field d).type := by
    cases (source.field d).type <;> rfl
  have hfield : source.fieldOutline (.asPrinted source) d = bareField
      { form := (source.field d).form
        type := unplaced (source.boundType (source.field d).type)
        name := unplaced (source.field d).name.value, number := unplaced (source.field d).number.value
        options := (source.field d).options.map OptionDecl.reread } := by
    rw [Pool.fieldOutline, View.field, htype]
    rfl
  rw [hfield]
  simp only [Pool.fieldStatements]
  split
  · next hform => exact (required (hv hform)).append (field _)
  · exact field _

end Builds

/-! ### Enums -/

/-- Nothing but the options and values of the enum `e` differs. -/
structure EnumGrows (e : EnumId) (pool other : Pool) : Prop where
  files : other.files = pool.files
  blocks : other.blocks = pool.blocks
  fields : other.fields = pool.fields
  enums : other.HasEnum = pool.HasEnum
  others : ∀ a, a ≠ e → other.enum a = pool.enum a
  same : ∃ options values, other.enum e = { pool.enum e with options, values }

namespace EnumGrows

variable {third : Pool} {e : EnumId} {s : Scope}

protected theorem refl (e : EnumId) (pool : Pool) : EnumGrows e pool pool :=
  ⟨rfl, rfl, rfl, rfl, fun _ _ => rfl, _, _, rfl⟩

protected theorem trans (h : EnumGrows e pool other) (h' : EnumGrows e other third) :
    EnumGrows e pool third where
  files := h'.files.trans h.files
  blocks := h'.blocks.trans h.blocks
  fields := h'.fields.trans h.fields
  enums := h'.enums.trans h.enums
  others a ha := (h'.others a ha).trans (h.others a ha)
  same := by
    obtain ⟨os, vs, he⟩ := h.same
    obtain ⟨os', vs', he'⟩ := h'.same
    exact ⟨os', vs', by rw [he', he]⟩

theorem modifyEnum {g : EnumType → EnumType} (hg : ∀ x, ∃ options values, g x = { x with options, values }) :
    EnumGrows e pool (pool.modifyEnum e g) where
  files := rfl
  blocks := rfl
  fields := rfl
  enums := Pool.hasEnum_modifyEnum e g
  others a ha := by rw [Pool.enum_modifyEnum, if_neg fun h => ha h.1.symm]
  same := by
    rw [Pool.enum_modifyEnum]
    split
    · exact hg _
    · exact ⟨_, _, rfl⟩

theorem members (h : EnumGrows e pool other) : other.members = pool.members := by
  funext s
  cases s <;> simp only [Pool.members, Pool.file, Pool.block, h.files, h.blocks]

theorem contents (h : EnumGrows e pool other) : other.contents = pool.contents := by
  funext s
  cases s <;> simp only [Pool.contents, Pool.attributes, h.members, Pool.file, Pool.block, h.files,
    h.blocks]

theorem sameTree (h : EnumGrows e pool other) : Pool.SameTree pool other where
  files := by simp only [funext_iff, Pool.HasFile, h.files, implies_true]
  blocks := by simp only [funext_iff, Pool.HasBlock, h.blocks, implies_true]
  enums := h.enums
  fields := by simp only [funext_iff, Pool.HasField, h.fields, implies_true]
  members := h.members
  scopeName := by
    funext s
    cases s <;> simp only [Pool.scopeName, Pool.file, Pool.block, h.files, h.blocks]
  block b := by simp only [Pool.block, h.blocks, true_and]
  enum a := by
    by_cases ha : a = e
    · obtain ⟨os, vs, he⟩ := h.same
      rw [ha, he]
      exact ⟨rfl, rfl, rfl⟩
    · rw [h.others a ha]
      exact ⟨rfl, rfl, rfl⟩
  field d := by simp only [Pool.field, h.fields, true_and]

/-- An enum that was not there before may change. -/
theorem grows (h : EnumGrows e pool₁ other) (hg : Pool.Grows s pool pool₁) (he : ¬pool.HasEnum e) :
    Pool.Grows s pool other where
  file i hi := by
    simp only [Pool.HasFile, Pool.file, h.files]
    exact hg.file i hi
  block b hb := by
    simp only [Pool.HasBlock, Pool.block, h.blocks]
    exact hg.block b hb
  enum a ha := by
    rw [h.enums, h.others a fun hae => he (hae ▸ ha)]
    exact hg.enum a ha
  field d hd := by
    simp only [Pool.HasField, Pool.field, h.fields]
    exact hg.field d hd
  contents t ht hne := by
    rw [h.contents]
    exact hg.contents t ht hne

end EnumGrows

/-- What is read of an enum is added to what is there. -/
structure EnumBuilt (e : EnumId) (pool : Pool) (os : List OptionDecl) (vs : List ValueDecl)
    (other : Pool) : Prop where
  grows : EnumGrows e pool other
  options : (other.enum e).options = (pool.enum e).options ++ os
  values : (View.asWritten.enum (other.enum e)).values = (View.asWritten.enum (pool.enum e)).values ++ vs

theorem EnumBuilt.trans {third : Pool} {e : EnumId} {os os' : List OptionDecl} {vs vs' : List ValueDecl}
    (h : EnumBuilt e pool os vs other) (h' : EnumBuilt e other os' vs' third) :
    EnumBuilt e pool (os ++ os') (vs ++ vs') third where
  grows := h.grows.trans h'.grows
  options := by rw [h'.options, h.options, List.append_assoc]
  values := by rw [h'.values, h.values, List.append_assoc]

/-- An option in an enum. -/
theorem enumBuilt_option {e : EnumId} (he : pool.HasEnum e) (o : OptionDecl) :
    EnumBuilt e pool [o] [] (pool.modifyEnum e fun E => { E with options := E.options ++ [o] }) := by
  refine ⟨.modifyEnum fun x => ⟨_, _, rfl⟩, ?_, ?_⟩ <;> rw [Pool.enum_modifyEnum, if_pos ⟨rfl, he⟩]
  exact (List.append_nil _).symm

/-- A value that can be added to an enum. -/
theorem enumBuilt_value {e : EnumId} (he : pool.HasEnum e) {w : ValueDecl}
    (hadd : pool.addValue e w = .ok other) : EnumBuilt e pool []
      [{ w with name := w.name.bare, number := w.number.bare }] other := by
  obtain ⟨hfree, -, rfl⟩ := Pool.addValue_eq_ok hadd
  refine ⟨.modifyEnum fun x => ⟨_, _, rfl⟩, ?_, ?_⟩ <;> rw [Pool.enum_modifyEnum, if_pos ⟨rfl, he⟩]
  · exact (List.append_nil _).symm
  · simp only [View.enum, Table.entries_insert hfree, List.map_append, List.map_cons, List.map_nil]
    simp only [View.value, asWritten_option, List.map_id]
    rfl

theorem run_enumOptions {e : EnumId} (hopen : c.openEnum = some e) (os : List OptionDecl) :
    ∀ {pool es}, Rereads es (os.map .option) → pool.HasEnum e →
      ∃ other, Run c pool es c other ∧ EnumBuilt e pool (os.map OptionDecl.reread) [] other := by
  induction os with
  | nil =>
    intro pool es hes he
    rw [Event.rereads_nil_iff.mp hes]
    exact ⟨pool, .nil, .refl _ _, (List.append_nil _).symm, (List.append_nil _).symm⟩
  | cons o os ih =>
    intro pool es hes he
    obtain ⟨x, es', rfl, hx, hes'⟩ := hes.cons
    have hx : x = .option o.reread := by
      cases x <;> cases hx
      rfl
    subst hx
    have hbuilt : EnumBuilt e pool [o.reread] [] (c.addOption pool o.reread) := by
      unfold addOption
      rw [hopen]
      exact enumBuilt_option he o.reread
    obtain ⟨other, hrun, hrest⟩ := ih hes' (hbuilt.grows.enums ▸ he)
    exact ⟨other, .cons (by simp) rfl hrun, hbuilt.trans hrest⟩

/-- A value as the text of a file shows it. -/
def printedValue (w : Int × EnumValue) : ValueDecl :=
  { name := unplaced w.2.name.value, number := unplaced w.1
    options := w.2.options.map OptionDecl.reread }

theorem run_enumValues {e : EnumId} (hopen : c.openEnum = some e) (ws : List (Int × EnumValue)) :
    ∀ {pool es}, Rereads es (ws.map fun w => Pool.valueStatement w.1 w.2) → pool.HasEnum e →
      (((View.asWritten.enum (pool.enum e)).values ++ ws.map printedValue).map
        fun x => x.number.value).Nodup →
      (((View.asWritten.enum (pool.enum e)).values ++ ws.map printedValue).map
        fun x => x.name.value).Nodup →
      ∃ other, Run c pool es c other ∧ EnumBuilt e pool [] (ws.map printedValue) other := by
  induction ws with
  | nil =>
    intro pool es hes he _ _
    rw [Event.rereads_nil_iff.mp hes]
    exact ⟨pool, .nil, .refl _ _, (List.append_nil _).symm, (List.append_nil _).symm⟩
  | cons w ws ih =>
    intro pool es hes he hnumbers hnames
    obtain ⟨x, es', rfl, hx, hes'⟩ := hes.cons
    obtain ⟨value, rfl, hname, hnumber, hoptions⟩ : ∃ value : ValueDecl, x = .value value ∧
        value.name.value = w.2.name.value ∧ value.number.value = w.1 ∧
        value.options = w.2.options.map OptionDecl.reread := by
      cases x with
      | value value =>
        have hvalue := Event.value.inj hx
        exact ⟨value, rfl, congrArg (fun y => y.name.value) hvalue,
          congrArg (fun y => y.number.value) hvalue, congrArg (fun y => y.options) hvalue⟩
      | _ => cases hx
    -- neither the number nor the name is that of an earlier value
    rw [List.map_cons, List.append_cons] at hnumbers hnames
    have hfree : ∀ {β : Type} (key : ValueDecl → β),
        (((View.asWritten.enum (pool.enum e)).values ++ [printedValue w] ++
          ws.map printedValue).map key).Nodup →
        ∀ x ∈ (pool.enum e).values.entries, key (View.asWritten.value x.1 x.2) ≠ key (printedValue w) := by
      intro β key hnodup x hx
      rw [List.map_append, List.map_append] at hnodup
      have hfront := (List.nodup_append.mp hnodup).1
      exact (List.nodup_append.mp hfront).2.2 _ (List.mem_map_of_mem (List.mem_map_of_mem hx)) _
        (List.mem_singleton_self _)
    have hnumberFree : (pool.enum e).values.find? value.number.value = none := by
      rw [Table.find?_eq_none_iff, hnumber]
      intro hmem
      obtain ⟨x, hx, hxn⟩ := List.mem_map.mp hmem
      exact hfree (fun y => y.number.value) hnumbers x hx hxn
    have hnameFree : ∀ x ∈ (pool.enum e).values.values, x.name.value ≠ value.name.value := by
      intro x hx
      obtain ⟨y, hy, rfl⟩ := List.mem_map.mp hx
      rw [hname]
      exact hfree (fun y => y.name.value) hnames y hy
    obtain ⟨added, hadd⟩ := Pool.addValue_of_free hnumberFree hnameFree
    have hbuilt : EnumBuilt e pool [] [printedValue w] added := by
      have hvalue := enumBuilt_value he hadd
      rwa [show ({ value with name := value.name.bare, number := value.number.bare } : ValueDecl) =
        printedValue w by simp only [Located.bare, hname, hnumber, hoptions, printedValue]] at hvalue
    have happly : c.apply pool (.value value) = .ok (c, added, none) := by
      simp only [apply, hopen]
      exact congrArg (Except.map _) hadd
    rw [← hbuilt.values] at hnumbers hnames
    obtain ⟨other, hrun, hrest⟩ := ih hes' (hbuilt.grows.enums ▸ he) hnumbers hnames
    exact ⟨other, .cons (by simp) happly hrun, hbuilt.trans hrest⟩

/-- An enum with a value can be closed. -/
theorem closeEnum_of_filled {E : EnumType} (h : (View.asWritten.enum E).values ≠ []) :
    ∃ notice, closeEnum E = .ok notice := by
  have hne : E.values.values ≠ [] := by
    intro hnil
    exact h (by simp [View.enum, List.map_eq_nil_iff.mp hnil])
  obtain ⟨first, rest, hcons⟩ := List.exists_cons_of_ne_nil hne
  unfold closeEnum
  rw [hcons, List.head?_cons]
  dsimp only
  split <;> exact ⟨_, rfl⟩

theorem contents_addEnum {E : EnumType} {n : String} (h : Pool.EnumAdded pool other E fun m =>
    { m with enums := m.enums.insert n ⟨pool.enums.size⟩ })
    (hfree : (pool.members E.parent).enums.find? n = none) :
    other.contents E.parent = pool.contents E.parent ++ { enums := [⟨pool.enums.size⟩] } := by
  simp only [Pool.contents, h.attributes, h.members, if_true, Table.values, Table.entries_insert hfree,
    List.map_append, List.map_cons, List.map_nil, Declarations.append_def, List.append_nil]

namespace Builds

/-- The statements of an enum of another pool. -/
theorem enumStatements (hk : k ≠ some .extend) (source : Pool) (e : EnumId)
    (hnames : ((source.enum e).values.values.map fun x => x.name.value).Nodup)
    (hfilled : (source.enum e).values.entries ≠ []) :
    Builds v k (source.enumStatements e) { enums := [source.enumOutline (.asPrinted source) e] } := by
  intro c pool es hes hs hf
  obtain ⟨x, es', rfl, hx, hbody⟩ := hes.cons
  obtain ⟨name, rfl, hname⟩ : ∃ name, x = .openEnum name ∧ name.value = (source.enum e).name := by
    cases x with
    | openEnum name => exact ⟨name, rfl, congrArg Located.value (Event.openEnum.inj hx)⟩
    | _ => cases hx
  obtain ⟨front, closing, rfl, hfront, hclosing⟩ := hbody.append
  obtain ⟨os, ws, rfl, hos, hws⟩ := hfront.append
  obtain ⟨y, rfl, hy⟩ := hclosing.single
  obtain rfl : y = .close := by
    cases y <;> cases hy
    rfl
  have hscope := hs.hasScope hk
  have hfree := hf.placeOf? hs.tree (n := name.value) (by
    rw [hname]
    exact List.mem_singleton_self _)
  obtain ⟨pool₁, hadd⟩ := Pool.addEnum_of_free c.file hfree
  have hadded := Pool.enumAdded_addEnum hadd hscope
  have happly : c.apply pool (.openEnum name) =
      .ok ({ c with openEnum := some ⟨pool.enums.size⟩, defined := true }, pool₁, none) :=
    congrArg (Except.map _) hadd
  -- the options and the values, from an empty enum on
  have hthere : pool₁.HasEnum ⟨pool.enums.size⟩ := (hadded.enums _).mpr (.inr rfl)
  have hnew : View.asWritten.enum (pool₁.enum ⟨pool.enums.size⟩) = ⟨name.value, [], []⟩ := by
    rw [hadded.enum_new]
    simp [View.enum, Pool.newEnum, EnumType.name]
  obtain ⟨pool₂, hrun₂, hb₂⟩ := run_enumOptions
    (c := { c with openEnum := some ⟨pool.enums.size⟩, defined := true }) rfl _ hos hthere
  have hempty : (View.asWritten.enum (pool₂.enum ⟨pool.enums.size⟩)).values = [] := by
    rw [hb₂.values, hnew, List.append_nil]
  obtain ⟨pool₃, hrun₃, hb₃⟩ := run_enumValues
    (c := { c with openEnum := some ⟨pool.enums.size⟩, defined := true }) rfl _ hws
    (hb₂.grows.enums ▸ hthere)
    (by rw [hempty, List.nil_append, List.map_map]; exact (source.enum e).values.nodup)
    (by rw [hempty, List.nil_append, List.map_map]; rwa [Table.values, List.map_map] at hnames)
  have hb := hb₂.trans hb₃
  have houtline : pool₃.enumOutline .asWritten ⟨pool.enums.size⟩ =
      source.enumOutline (.asPrinted source) e := by
    obtain ⟨os, vs, hsame⟩ := hb.grows.same
    have hoptions := hb.options
    have hvalues := hb.values
    rw [hadded.enum_new] at hsame hoptions
    have hname' : (pool₃.enum ⟨pool.enums.size⟩).name = name.value := by
      rw [hsame]
      simp [Pool.newEnum, EnumType.name]
    have heta : ∀ E : EnumType, View.asWritten.enum E =
        ⟨E.name, E.options, (View.asWritten.enum E).values⟩ := fun E => by
      simp only [View.enum, asWritten_option, List.map_id]
    rw [hnew] at hvalues
    rw [Pool.enumOutline, heta, hname', hname, hoptions, hvalues, List.append_nil]
    rfl
  obtain ⟨notice, hclose⟩ := closeEnum_of_filled (E := pool₃.enum ⟨pool.enums.size⟩) (by
    rw [show View.asWritten.enum _ = _ from houtline]
    simpa [Pool.enumOutline, View.enum] using hfilled)
  have hclosed : Cursor.apply { c with openEnum := some ⟨pool.enums.size⟩, defined := true } pool₃
      .close = .ok ({ c with openEnum := none, defined := true }, pool₃, notice) :=
    congrArg (Except.map _) hclose
  refine ⟨{ c with openEnum := none, defined := true }, pool₃, .cons (by simp) happly
    ((hrun₂.append hrun₃).append (.single (by simp) hclosed)), ?_⟩
  refine built_of_contents (L := { enums := [⟨pool.enums.size⟩] }) hs.tree ?_ ?_ ?_ ?_ rfl rfl rfl
  · exact hb.grows.sameTree.wellFormed (hs.tree.addEnum hadd hscope hs.file)
  · exact hb.grows.grows (.of_enumAdded hadded) Pool.not_hasEnum_size
  · rw [hb.grows.contents]
    exact contents_addEnum hadded (Pool.placeOf?_eq_none_iff.mp hfree).2.1
  · simp only [Pool.outlineOf, Pool.outlineAround, List.map_cons, List.map_nil, houtline]

end Builds

end Cursor

end ProtoSchema
