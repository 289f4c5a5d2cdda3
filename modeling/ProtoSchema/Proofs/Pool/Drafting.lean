import ProtoSchema.Proofs.Pool.Drafts

/-! # Events in a draft

An event leads from a draft to a draft that has it behind its statements (`Drafts.event`): a header opens a
block at the end of the open scope, the end of a block leads back to the scope around it, and any other
statement adds its entry where the cursor is. -/

namespace ProtoSchema.Cursor

open Pool (Drafted Grows GrowsIn)
open Event (Declare DeclareEnum)

/-- Where the cursor adds what is read. -/
def spot (c : Cursor) : Pool.Spot :=
  match c.openEnum with
  | some e => .enum e
  | none => .scope c.scope

/-- The statements `es` of the file of the cursor declare what is there, and the cursor is at its end. -/
structure Drafts (c : Cursor) (es : List Event) (pool : Pool) : Prop where
  drafted : Drafted c.file es c.spot pool
  /-- The open enum is written in the scope of the cursor. -/
  parent : ∀ e, c.openEnum = some e → (pool.enum e).parent = c.scope

variable {c c' : Cursor} {pool other : Pool} {ks ks' : OpenBlocks} {es : List Event} {e : Event}
  {D : ScopeOutline} {v : Edition} {k : Option BlockKind}

/-! ### Where a cursor fits -/

theorem spot_of_noEnum (h : c.openEnum = none) : c.spot = .scope c.scope := by rw [spot, h]

theorem spot_of_inEnum {id : EnumId} (h : c.openEnum = some id) : c.spot = .enum id := by rw [spot, h]

theorem Fits.noEnum (hf : c.Fits pool ks) (hks : ks.head? ≠ some .enum) : c.openEnum = none := by
  cases hf.place with
  | scope noEnum fits => exact noEnum
  | enum inEnum there fits => exact absurd rfl hks

theorem Fits.scopeFile (hf : c.Fits pool ks) :
    pool.InRange c.scope ∧ pool.scopeFile c.scope = c.file := by
  cases hs : c.scope with
  | file i => exact ⟨hf.scope_file hs ▸ hf.hasFile, hf.scope_file hs⟩
  | block b => exact hf.scope_block hs

theorem Fits.site (hf : c.Fits pool ks) (hw : pool.WellFormed) (noEnum : c.openEnum = none) :
    Site (pool.file c.file).editionOrOldest (pool.scopeKind c.scope) c pool :=
  ⟨hw, hf.hasFile, hf.scopeFile.1, hf.scopeFile.2, noEnum, rfl, rfl⟩

/-- In an extend block, such a block is the innermost open one. -/
theorem Fits.extend_head (hf : c.Fits pool ks) (noEnum : c.openEnum = none) {b : BlockId}
    (hb : c.scope = .block b) (hx : (pool.block b).isExtend = true) : ks.head? = some .extend := by
  cases hf.place with
  | scope _ fits =>
    rw [hb] at fits
    cases ks with
    | nil => cases fits
    | cons k ks =>
      obtain ⟨-, b', heq, -, hkind, -⟩ := fits
      cases heq
      rw [hx] at hkind
      rw [List.head?_cons, of_decide_eq_true hkind.symm]
  | enum inEnum there fits =>
    rw [noEnum] at inEnum
    cases inEnum

namespace Drafts

theorem scope (h : c.Drafts es pool) (noEnum : c.openEnum = none) :
    Drafted c.file es (.scope c.scope) pool := by
  have hd := h.drafted
  rwa [spot_of_noEnum noEnum] at hd

theorem of_scope (noEnum : c.openEnum = none) (h : Drafted c.file es (.scope c.scope) pool) :
    c.Drafts es pool := by
  refine ⟨by rwa [spot_of_noEnum noEnum], fun e he => ?_⟩
  rw [noEnum] at he
  cases he

/-- A statement adds its entry to the open scope. -/
theorem built (h : c.Drafts es pool) (noEnum : c.openEnum = none) (hb : Built c pool D c other)
    (entry : e.entry? = some D)
    (hextend : ∀ b, c.scope = .block b → (pool.block b).isExtend = true → ∃ fields, D = { fields }) :
    c.Drafts (es ++ [e]) other :=
  of_scope noEnum <| (h.scope noEnum).grow (hb.grows.within _) hb.declared (fun hU => hU.single entry)
    hextend

/-- A statement has no entry, and nothing is added. -/
theorem silent (h : c.Drafts es pool) (noEnum : c.openEnum = none) (hw : pool.WellFormed)
    (hw' : other.WellFormed) (hg : GrowsIn c.file (.scope c.scope) pool other)
    (hsame : other.contents c.scope = pool.contents c.scope) (entry : e.entry? = some {}) :
    c.Drafts (es ++ [e]) other :=
  of_scope noEnum <| (h.scope noEnum).still hw hw' hg hsame fun hU => hU.single entry

/-- Nothing changes. -/
theorem pass (h : c.Drafts es pool) (noEnum : c.openEnum = none) (hw : pool.WellFormed)
    (hf : pool.HasFile c.file) (entry : e.entry? = some {}) : c.Drafts (es ++ [e]) pool :=
  h.silent noEnum hw hw (.of_kept (.refl _ _) hf _) rfl entry

/-- A statement about the whole file. -/
theorem record (h : c.Drafts es pool) (noEnum : c.openEnum = none) (hw : pool.WellFormed)
    {i : FileId} {k : File → File} (hw' : (pool.modifyFile i k).WellFormed)
    (hk : ∀ F, (k F).members = F.members ∧ (k F).options = F.options) (entry : e.entry? = some {}) :
    c.Drafts (es ++ [e]) (pool.modifyFile i k) :=
  h.silent noEnum hw hw' (.modifyFile hk _ _) (Pool.contents_modifyFile hk _) entry

/-- The open enum grows. -/
theorem enumBuilt (h : c.Drafts es pool) {id : EnumId} (inEnum : c.openEnum = some id)
    {os : List OptionDecl} {vs : List ValueDecl} (hb : EnumBuilt id pool os vs other)
    (hts : ∀ {us os' vs'}, DeclareEnum us os' vs' → DeclareEnum (us ++ [e]) (os' ++ os) (vs' ++ vs)) :
    c.Drafts (es ++ [e]) other := by
  obtain ⟨options, values, hsame⟩ := hb.grows.same
  have hd := h.drafted
  rw [spot_of_inEnum inEnum] at hd
  refine ⟨?_, fun a ha => ?_⟩
  · rw [spot_of_inEnum inEnum]
    refine hd.growEnum (Pool.growsIn_of_enumGrows hb.grows _) (by rw [hsame]) fun hU => ?_
    have hall := hts hU
    simp only [View.enum, asWritten_option, List.map_id] at hall ⊢
    rw [hb.options]
    have hvalues := hb.values
    simp only [View.enum] at hvalues
    rw [hvalues]
    exact hall
  · obtain rfl : id = a := Option.some.inj (inEnum.symm.trans ha)
    rw [hsame]
    exact h.parent id ha

/-- At the beginning of a file nothing is declared in it. -/
theorem start {f : FileId} {name : String} {path : Option String}
    (hfile : pool.file f = { name, path }) : (Cursor.start f).Drafts [] pool := by
  have hempty : pool.contents (.file f) = {} := by
    simp only [Pool.contents, Pool.attributes, Pool.members, hfile]
    rfl
  refine of_scope rfl (.file ?_)
  show Declare [] (pool.outlineOf .asWritten (pool.contents (.file f)))
  rw [hempty]
  exact .nil

/-- While other files are read, the draft of a file stays as it is. -/
theorem kept (h : c.Drafts es pool) (hw : pool.WellFormed) (hw' : other.WellFormed)
    (hk : Pool.Kept c.file pool other) (hf : other.HasFile c.file) : c.Drafts es other := by
  refine ⟨h.drafted.kept hw hw' hk hf, fun e he => ?_⟩
  have there : pool.EnumOf c.file e := by
    have hd := h.drafted
    rw [spot_of_inEnum he] at hd
    exact hd.enumOf
  rw [hk.enum e there]
  exact h.parent e he

/-! ### Headers -/

section header

variable (h : c.Drafts es pool) (hs : Site v k c pool) (hks : pool.HasScope c.scope)
include h hs hks

theorem message {name : Located String} {id : BlockId}
    (added : pool.addMessage c.file c.scope name = .ok (other, id)) :
    (c.inside id).Drafts (es ++ [.openMessage name]) other := by
  obtain ⟨hfree, rfl, -⟩ := Pool.addMessage_eq_ok added
  have hadded := Pool.blockAdded_addMessage added hks
  have hw := hs.tree.addMessage added hks hs.file
  obtain ⟨-, hempty⟩ := hs.inside (H := .message (pool.scopeName c.scope ++ [name.value])) hadded hw
  refine of_scope hs.noEnum (.message (h.scope hs.noEnum)
    ⟨hs.tree, hks, hs.file, (Grows.of_blockAdded hadded).within _, ?_⟩ Pool.not_hasBlock_size
    ⟨(hadded.blocks _).mpr (.inr rfl), by rw [hadded.block_new]; rfl⟩ ?_ ?_)
  · exact contents_addMessage hadded hs.scope (Pool.placeOf?_eq_none_iff.mp hfree).1
  · rw [hadded.block_new]
    simp [Block.name, Block.fullName, Pool.newMessage]
  · rw [hempty]
    exact .nil

theorem extend (type : Located TypeName) (target : Option TypeId) :
    (c.inside ⟨pool.blocks.size⟩).Drafts (es ++ [.openExtend type])
      (pool.addExtend c.file c.scope type target).1 := by
  have hadded := Pool.blockAdded_addExtend c.file type target hks
  have hw := hs.tree.addExtend type target hks hs.file
  obtain ⟨-, hempty⟩ := hs.inside (H := .extend type.value target) hadded hw
  refine of_scope hs.noEnum (.extend (h.scope hs.noEnum)
    ⟨hs.tree, hks, hs.file, (Grows.of_blockAdded hadded).within _, ?_⟩ Pool.not_hasBlock_size
    ⟨(hadded.blocks _).mpr (.inr rfl), by rw [hadded.block_new]; rfl⟩ ?_ ?_ hempty .nil)
  · exact contents_addExtend hadded hs.scope
  · rw [hadded.block_new]
    rfl
  · rw [hadded.block_new]
    rfl

theorem enum {name : Located String} {id : EnumId}
    (added : pool.addEnum c.file c.scope name = .ok (other, id)) :
    Drafts { c with openEnum := some id, defined := true } (es ++ [.openEnum name]) other := by
  obtain ⟨hfree, rfl, -⟩ := Pool.addEnum_eq_ok added
  have hadded := Pool.enumAdded_addEnum added hks
  refine ⟨.enum (h.scope hs.noEnum) ⟨hs.tree, hks, hs.file, (Grows.of_enumAdded hadded).within _, ?_⟩
    Pool.not_hasEnum_size ⟨(hadded.enums _).mpr (.inr rfl), by rw [hadded.enum_new]; rfl⟩ ?_ ?_,
    fun e he => ?_⟩
  · exact contents_addEnum hadded (Pool.placeOf?_eq_none_iff.mp hfree).2.1
  · rw [hadded.enum_new]
    simp [EnumType.name, Pool.newEnum]
  · rw [hadded.enum_new]
    exact .nil
  · cases he
    rw [hadded.enum_new]
    rfl

end header

/-- Ranges and names that a message reserves, or leaves to extensions. -/
theorem ranges (h : c.Drafts es pool) (hf : c.Fits pool (.message :: ks)) (hw : pool.WellFormed)
    {rs : List NumberRange} {names : List String} {xs : List NumberRange} {g : Block → Block}
    (hg : ∀ x : Block, g x = { x with
      options := x.options ++ [], reservedRanges := x.reservedRanges ++ rs,
      reservedNames := x.reservedNames ++ names, extensionRanges := x.extensionRanges ++ xs })
    (entry : e.entry? =
      some { reservedRanges := rs, reservedNames := names, extensionRanges := xs }) :
    c.Drafts (es ++ [e]) (c.modifyOpen pool g) := by
  obtain ⟨b, hb, noEnum, -, hx⟩ := hf.block (k := .message) (by decide) rfl
  have hbuilt := built_attributes (hf.site hw noEnum) hb [] rs names xs hg
  unfold modifyOpen
  rw [hb]
  refine h.built noEnum hbuilt entry fun b' hb' hx' => ?_
  obtain rfl : b = b' := Scope.block.inj (hb.symm.trans hb')
  rw [hx] at hx'
  cases hx'

/-! ### All events -/

/-- An event of a file leads from a draft to a draft. -/
theorem event (h : c.Drafts es pool) (hn : e.Nests ks ks') (hf : c.Fits pool ks) (hw : pool.WellFormed)
    (heff : Effect c pool e c' other) : c'.Drafts (es ++ [e]) other := by
  have hw' := heff.wellFormed hn hf hw
  -- a statement that adds to a block which is not an extend block
  have hmessage : ∀ {D : ScopeOutline}, ks.head? ≠ some .extend → c.openEnum = none →
      ∀ b, c.scope = .block b → (pool.block b).isExtend = true → ∃ fields, D = { fields } :=
    fun hks noEnum b hb hx => absurd (hf.extend_head noEnum hb hx) hks
  cases heff with
  | edition | package =>
    have noEnum : c.openEnum = none := hf.noEnum (by cases hn; simp)
    refine h.record noEnum hw hw' (fun F => ?_) rfl
    exact ⟨rfl, rfl⟩
  | importFile => exact h.pass (hf.noEnum (by cases hn; simp)) hw hf.hasFile rfl
  | required =>
    cases hn with
    | required hk => exact h.pass (hf.noEnum (by simp [hk])) hw hf.hasFile rfl
  | fileOption noEnum scope =>
    cases hn with
    | option hks => exact h.built noEnum (built_fileOption (hf.site hw noEnum) scope _) rfl (hmessage hks noEnum)
  | blockOption noEnum scope =>
    cases hn with
    | option hks =>
      refine h.built noEnum (built_attributes (hf.site hw noEnum) scope [_] [] [] [] fun x => ?_) rfl
        (hmessage hks noEnum)
      simp
  | enumOption inEnum =>
    refine h.enumBuilt inEnum (enumBuilt_option (hf.enumOf inEnum).1 _) fun hU => ?_
    rw [List.append_nil]
    exact hU.option
  | message added =>
    cases hn with
    | openMessage hks =>
      exact h.message (hf.site hw (hf.scopeFits hks).1) (hf.hasScope hks).1 added
  | extend =>
    cases hn with
    | openExtend hks => exact h.extend (hf.site hw (hf.scopeFits hks).1) (hf.hasScope hks).1 _ _
  | enum added =>
    cases hn with
    | openEnum hks => exact h.enum (hf.site hw (hf.scopeFits hks).1) (hf.hasScope hks).1 added
  | field scope added =>
    have noEnum : c.openEnum = none := hf.noEnum (by cases hn; simp [*])
    exact h.built noEnum (built_newField (hf.site hw noEnum) scope added) rfl fun _ _ _ => ⟨_, rfl⟩
  | strayField scope =>
    cases hn with
    | field hk =>
      obtain ⟨b, hb, -⟩ := hf.block hk rfl
      rw [scope] at hb
      cases hb
  | value inEnum added =>
    refine h.enumBuilt inEnum (enumBuilt_value (hf.enumOf inEnum).1 added) fun hU => ?_
    rw [List.append_nil]
    exact hU.value
  | strayValue noEnum =>
    cases hn
    cases hf.place with
    | scope _ fits => exact absurd rfl fits.1
    | enum inEnum =>
      rw [noEnum] at inEnum
      cases inEnum
  | reservedRanges =>
    cases hn
    exact h.ranges hf hw (fun x => by simp) rfl
  | reservedNames =>
    cases hn
    exact h.ranges hf hw (fun x => by simp) rfl
  | extensionRanges =>
    cases hn
    exact h.ranges hf hw (fun x => by simp) rfl
  | closeEnum inEnum valid =>
    have hd := h.drafted
    rw [spot_of_inEnum inEnum] at hd
    have hclosed := hd.closeEnum hw
    rw [h.parent _ inEnum] at hclosed
    exact of_scope rfl hclosed
  | closeBlock noEnum =>
    cases hn with
    | close =>
      cases hf.place with
      | scope _ fits =>
        obtain ⟨-, b, hb, -⟩ := fits
        have hd := h.scope noEnum
        rw [hb] at hd
        rw [hb]
        exact of_scope noEnum (hd.closeBlock hw)
      | enum inEnum =>
        rw [noEnum] at inEnum
        cases inEnum

end Drafts

end ProtoSchema.Cursor
