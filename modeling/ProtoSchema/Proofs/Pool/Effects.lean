import ProtoSchema.Proofs.Event.Nesting
import ProtoSchema.Proofs.Pool.Frames

/-! # What an event does

`Effect` lists what applying an event can do to the cursor and the pool.  `Cursor.apply` succeeds
with just these effects (`effect_of_apply`); what an event keeps is read off the list.  A cursor that
`Fits` the open blocks of its file fits those that are open behind the next event, and the event
touches no other file and keeps the tree well-formed. -/

namespace ProtoSchema.Cursor

/-- The field that a declaration adds to a block. -/
def newField (c : Cursor) (pool : Pool) (f : FieldDecl) (block : BlockId) : Field :=
  { form := f.form, name := f.name, number := f.number, type := c.fieldType pool f.type.value,
    typeSpan := f.type.span, options := f.options, block }

/-- What an event can do. -/
inductive Effect (c : Cursor) (pool : Pool) : Event → Cursor → Pool → Prop
  | edition {e} (first : (pool.file c.file).edition = none) :
      Effect c pool (.edition e) c (pool.modifyFile c.file fun f => { f with edition := some e })
  | package {name} (first : (pool.file c.file).package = none) (early : c.defined = false) :
      Effect c pool (.package name) c
        (pool.modifyFile c.file fun f => { f with package := some name })
  | importFile {kind target} : Effect c pool (.importFile kind target) c pool
  | fileOption {o id} (noEnum : c.openEnum = none) (scope : c.scope = .file id) :
      Effect c pool (.option o) c
        (pool.modifyFile id fun f => { f with options := f.options ++ [o] })
  | blockOption {o id} (noEnum : c.openEnum = none) (scope : c.scope = .block id) :
      Effect c pool (.option o) c
        (pool.modifyBlock id fun b => { b with options := b.options ++ [o] })
  | enumOption {o id} (inEnum : c.openEnum = some id) :
      Effect c pool (.option o) c
        (pool.modifyEnum id fun e => { e with options := e.options ++ [o] })
  | message {name other id} (added : pool.addMessage c.file c.scope name = .ok (other, id)) :
      Effect c pool (.openMessage name) (c.inside id) other
  | extend {type} :
      Effect c pool (.openExtend type) (c.inside ⟨pool.blocks.size⟩)
        (pool.addExtend c.file c.scope type (pool.resolve? c.file c.scope type.value)).1
  | enum {name other id} (added : pool.addEnum c.file c.scope name = .ok (other, id)) :
      Effect c pool (.openEnum name) { c with openEnum := some id, defined := true } other
  | required {span} (newer : (pool.file c.file).editionOrOldest ≠ .proto3) :
      Effect c pool (.required span) c pool
  | field {f block other} (scope : c.scope = .block block)
      (added : pool.addField (c.newField pool f block) = .ok other) :
      Effect c pool (.field f) c other
  | strayField {f id} (scope : c.scope = .file id) : Effect c pool (.field f) c pool
  | value {v id other} (inEnum : c.openEnum = some id) (added : pool.addValue id v = .ok other) :
      Effect c pool (.value v) c other
  | strayValue {v} (noEnum : c.openEnum = none) : Effect c pool (.value v) c pool
  | reservedRanges {rs} : Effect c pool (.reservedRanges rs) c
      (c.modifyOpen pool fun b => { b with reservedRanges := b.reservedRanges ++ rs })
  | reservedNames {names} : Effect c pool (.reservedNames names) c
      (c.modifyOpen pool fun b => { b with reservedNames := b.reservedNames ++ names })
  | extensionRanges {rs} : Effect c pool (.extensionRanges rs) c
      (c.modifyOpen pool fun b => { b with extensionRanges := b.extensionRanges ++ rs })
  | closeEnum {id notice} (inEnum : c.openEnum = some id)
      (valid : closeEnum (pool.enum id) = .ok notice) :
      Effect c pool .close { c with openEnum := none } pool
  | closeBlock (noEnum : c.openEnum = none) :
      Effect c pool .close { c with scope := (pool.parent? c.scope).getD c.scope } pool

variable {c c' : Cursor} {pool other : Pool} {e : Event} {notice : Option Notice}

theorem map_eq_ok_iff {ε α β : Type} {x : Except ε α} {f : α → β} {b : β} :
    x.map f = .ok b ↔ ∃ a, x = .ok a ∧ f a = b := by
  cases x <;> simp [Except.map]

theorem effect_of_apply (h : c.apply pool e = .ok (c', other, notice)) :
    Effect c pool e c' other := by
  cases e with
  | edition e =>
    obtain ⟨p, hp, he⟩ := map_eq_ok_iff.mp h
    cases he
    unfold addEdition at hp
    split at hp
    · cases hp
    · next first =>
      cases hp
      exact .edition first
  | package name =>
    obtain ⟨p, hp, he⟩ := map_eq_ok_iff.mp h
    cases he
    unfold addPackage at hp
    split at hp
    · cases hp
    · next first =>
      split at hp
      · cases hp
      · next early =>
        cases hp
        exact .package first (Bool.eq_false_iff.mpr early)
  | importFile kind target =>
    cases h
    exact .importFile
  | option o =>
    cases h
    unfold addOption
    split
    · next id inEnum => exact .enumOption inEnum
    · next id noEnum scope => exact .fileOption noEnum scope
    · next id noEnum scope => exact .blockOption noEnum scope
  | openMessage name =>
    obtain ⟨⟨p, id⟩, added, he⟩ := map_eq_ok_iff.mp h
    cases he
    exact .message added
  | openExtend type =>
    cases h
    exact .extend
  | openEnum name =>
    obtain ⟨⟨p, id⟩, added, he⟩ := map_eq_ok_iff.mp h
    cases he
    exact .enum added
  | required span =>
    simp only [apply] at h
    split at h
    · cases h
    · next newer =>
      cases h
      exact .required newer
  | field f =>
    obtain ⟨p, hp, he⟩ := map_eq_ok_iff.mp h
    cases he
    unfold addField at hp
    split at hp
    · next block scope => exact .field scope hp
    · next id scope =>
      cases hp
      exact .strayField scope
  | value v =>
    simp only [apply] at h
    split at h
    · next id inEnum =>
      obtain ⟨p, added, he⟩ := map_eq_ok_iff.mp h
      cases he
      exact .value inEnum added
    · next noEnum =>
      cases h
      exact .strayValue noEnum
  | reservedRanges rs =>
    cases h
    exact .reservedRanges
  | reservedNames names =>
    cases h
    exact .reservedNames
  | extensionRanges rs =>
    cases h
    exact .extensionRanges
  | close =>
    simp only [apply] at h
    split at h
    · next id inEnum =>
      obtain ⟨n, valid, he⟩ := map_eq_ok_iff.mp h
      cases he
      exact .closeEnum inEnum valid
    · next noEnum =>
      cases h
      exact .closeBlock noEnum

/-- The cursor stays in its file. -/
theorem Effect.file_eq (h : Effect c pool e c' other) : c'.file = c.file := by
  cases h <;> rfl

/-! ### Cursors that fit -/

/-- A scope of the file `f`, with the blocks around it innermost first. -/
def ScopeFits (pool : Pool) (f : FileId) : OpenBlocks → Scope → Prop
  | [], s => s = .file f
  | k :: ks, s => k ≠ .enum ∧ ∃ b, s = .block b ∧ pool.BlockOf f b ∧
      (pool.block b).isExtend = decide (k = .extend) ∧ ScopeFits pool f ks (pool.block b).parent

/-- A cursor inside the open blocks, innermost first. -/
inductive Place (pool : Pool) (c : Cursor) : OpenBlocks → Prop
  | scope {ks} (noEnum : c.openEnum = none) (fits : ScopeFits pool c.file ks c.scope) :
      Place pool c ks
  | enum {ks e} (inEnum : c.openEnum = some e) (there : pool.EnumOf c.file e)
      (fits : ScopeFits pool c.file ks c.scope) : Place pool c (.enum :: ks)

/-- A cursor that knows where it is. -/
structure Fits (c : Cursor) (pool : Pool) (ks : OpenBlocks) : Prop where
  hasFile : pool.HasFile c.file
  early : c.defined = false → (∀ b, ¬pool.BlockOf c.file b) ∧ ∀ e, ¬pool.EnumOf c.file e
  place : Place pool c ks

variable {ks ks' : OpenBlocks} {f g : FileId}

theorem ScopeFits.of_touches (ht : Pool.Touches g pool other) {s : Scope}
    (h : ScopeFits pool f ks s) : ScopeFits other f ks s := by
  induction ks generalizing s with
  | nil => exact h
  | cons k ks ih =>
    obtain ⟨hk, b, rfl, hb, hx, hp⟩ := h
    have hr := (ht.block b hb.1).2.1
    refine ⟨hk, b, rfl, ht.blockOf hb, by rw [hr.isExtend, hx], ?_⟩
    rw [hr.parent]
    exact ih hp

theorem ScopeFits.hasScope {s : Scope} (h : ScopeFits pool f ks s) (hf : pool.HasFile f)
    (hks : ks.TakesTypes) : pool.HasScope s ∧ pool.scopeFile s = f := by
  cases ks with
  | nil =>
    cases h
    exact ⟨hf, rfl⟩
  | cons k ks =>
    obtain ⟨-, b, rfl, hb, hx, -⟩ := h
    rw [hks k rfl] at hx
    exact ⟨⟨hb.1, hx⟩, hb.2⟩

theorem Fits.hasScope (h : c.Fits pool ks) (hks : ks.TakesTypes) :
    pool.HasScope c.scope ∧ pool.scopeFile c.scope = c.file := by
  cases h.place with
  | scope noEnum fits => exact fits.hasScope h.hasFile hks
  | enum inEnum there fits => exact absurd (hks .enum rfl) (by simp)

/-- Inside a message or extend block the cursor is in that block. -/
theorem Fits.block (h : c.Fits pool ks) {k : BlockKind} (hk : k ≠ .enum)
    (hks : ks.head? = some k) : ∃ b, c.scope = .block b ∧ c.openEnum = none ∧
      pool.BlockOf c.file b ∧ (pool.block b).isExtend = decide (k = .extend) := by
  cases h.place with
  | scope noEnum fits =>
    cases ks with
    | nil => cases hks
    | cons k' ks =>
      cases hks
      obtain ⟨-, b, hb, hbo, hx, -⟩ := fits
      exact ⟨b, hb, noEnum, hbo, hx⟩
  | enum inEnum there fits =>
    cases hks
    exact absurd rfl hk

/-- The block that holds the cursor is a block of its file. -/
theorem Fits.scope_block (h : c.Fits pool ks) {b : BlockId} (hb : c.scope = .block b) :
    pool.BlockOf c.file b := by
  have hfits : ∀ {ks}, ScopeFits pool c.file ks c.scope → pool.BlockOf c.file b := by
    intro ks fits
    rw [hb] at fits
    cases ks with
    | nil => cases fits
    | cons k ks =>
      obtain ⟨-, b', e, hbo, -⟩ := fits
      cases e
      exact hbo
  cases h.place with
  | scope noEnum fits => exact hfits fits
  | enum inEnum there fits => exact hfits fits

theorem Fits.scope_file (h : c.Fits pool ks) {i : FileId} (hi : c.scope = .file i) :
    i = c.file := by
  have hfits : ∀ {ks}, ScopeFits pool c.file ks c.scope → i = c.file := by
    intro ks fits
    rw [hi] at fits
    cases ks with
    | nil =>
      cases fits
      rfl
    | cons k ks =>
      obtain ⟨-, b', e, -⟩ := fits
      cases e
  cases h.place with
  | scope noEnum fits => exact hfits fits
  | enum inEnum there fits => exact hfits fits

theorem Fits.enumOf (h : c.Fits pool ks) {e : EnumId} (he : c.openEnum = some e) :
    pool.EnumOf c.file e := by
  cases h.place with
  | scope noEnum fits =>
    rw [noEnum] at he
    cases he
  | enum inEnum there fits =>
    rw [inEnum] at he
    cases he
    exact there

/-- A cursor at the beginning of a file without declarations. -/
theorem fits_start (hf : pool.HasFile f) (hb : ∀ b, ¬pool.BlockOf f b)
    (he : ∀ e, ¬pool.EnumOf f e) : (Cursor.start f).Fits pool [] :=
  ⟨hf, fun _ => ⟨hb, he⟩, .scope rfl rfl⟩

/-! ### What an event keeps -/

/-- A change of ranges or names of the open block. -/
theorem modifyOpen_touches (h : c.Fits pool ks) {k : Block → Block}
    (hk : ∀ b, Block.Refines b (k b)) : Pool.Touches c.file pool (c.modifyOpen pool k) := by
  unfold modifyOpen
  split
  · next b hb => exact .modifyBlock (fun _ => (h.scope_block hb).2) k hk
  · exact .refl _ _

/-- An event touches its own file only. -/
theorem Effect.touches (h : Effect c pool e c' other) (hn : e.Nests ks ks') (hf : c.Fits pool ks) :
    Pool.Touches c.file pool other := by
  cases h with
  | edition | package => exact .modifyFile _ fun _ => rfl
  | importFile | required | strayField | strayValue | closeEnum | closeBlock => exact .refl _ _
  | fileOption noEnum scope =>
    cases hf.scope_file scope
    exact .modifyFile _ fun _ => rfl
  | blockOption noEnum scope =>
    exact .modifyBlock (fun _ => (hf.scope_block scope).2) _ fun _ =>
      ⟨rfl, rfl, rfl, .inl rfl, fun _ h => h⟩
  | enumOption inEnum =>
    exact .modifyEnum (fun _ => (hf.enumOf inEnum).2) _ fun _ => ⟨rfl, rfl, rfl, rfl⟩
  | message added =>
    cases hn with
    | openMessage hks =>
      obtain ⟨hs, hfile⟩ := hf.hasScope hks
      exact .of_blockAdded (Pool.blockAdded_addMessage added hs) rfl hfile
  | extend =>
    cases hn with
    | openExtend hks =>
      obtain ⟨hs, hfile⟩ := hf.hasScope hks
      exact .of_blockAdded (Pool.blockAdded_addExtend c.file _ _ hs) rfl hfile
  | enum added =>
    cases hn with
    | openEnum hks =>
      obtain ⟨hs, hfile⟩ := hf.hasScope hks
      exact .of_enumAdded (Pool.enumAdded_addEnum added hs) rfl hfile
  | field scope added =>
    have hb := hf.scope_block scope
    exact .of_fieldAdded (Pool.fieldAdded added hb.1) hb
  | value inEnum added =>
    obtain ⟨-, -, rfl⟩ := Pool.addValue_eq_ok added
    exact .modifyEnum (fun _ => (hf.enumOf inEnum).2) _ fun _ => ⟨rfl, rfl, rfl, rfl⟩
  | reservedRanges | reservedNames =>
    exact modifyOpen_touches hf fun _ => ⟨rfl, rfl, rfl, .inl rfl, fun _ h => h⟩
  | extensionRanges =>
    exact modifyOpen_touches hf fun _ =>
      ⟨rfl, rfl, rfl, .inl rfl, List.subset_append_left _ _⟩

/-- An event keeps the tree well-formed. -/
theorem Effect.wellFormed (h : Effect c pool e c' other) (hn : e.Nests ks ks')
    (hf : c.Fits pool ks) (hw : pool.WellFormed) : other.WellFormed := by
  cases h with
  | edition | fileOption =>
    refine Pool.SameTree.wellFormed (.modifyFile _ _ ?_) hw
    exact fun _ => ⟨rfl, rfl⟩
  | package first early => exact hw.setPackage (hf.early early).1 (hf.early early).2 _
  | importFile | required | strayField | strayValue | closeEnum | closeBlock => exact hw
  | blockOption =>
    refine Pool.SameTree.wellFormed (.modifyBlock _ _ ?_) hw
    exact fun _ => ⟨rfl, rfl, rfl, rfl, rfl, rfl⟩
  | enumOption =>
    refine Pool.SameTree.wellFormed (.modifyEnum _ _ ?_) hw
    exact fun _ => ⟨rfl, rfl, rfl⟩
  | message added =>
    cases hn with
    | openMessage hks =>
      obtain ⟨hs, hfile⟩ := hf.hasScope hks
      exact hw.addMessage added hs hfile
  | extend =>
    cases hn with
    | openExtend hks =>
      obtain ⟨hs, hfile⟩ := hf.hasScope hks
      exact hw.addExtend _ _ hs hfile
  | enum added =>
    cases hn with
    | openEnum hks =>
      obtain ⟨hs, hfile⟩ := hf.hasScope hks
      exact hw.addEnum added hs hfile
  | field scope added => exact hw.addField added (hf.scope_block scope).1
  | value inEnum added =>
    obtain ⟨-, -, rfl⟩ := Pool.addValue_eq_ok added
    refine Pool.SameTree.wellFormed (.modifyEnum _ _ ?_) hw
    exact fun _ => ⟨rfl, rfl, rfl⟩
  | reservedRanges | reservedNames | extensionRanges =>
    unfold modifyOpen
    split
    · refine Pool.SameTree.wellFormed (.modifyBlock _ _ ?_) hw
      exact fun _ => ⟨rfl, rfl, rfl, rfl, rfl, rfl⟩
    · exact hw

theorem Place.of_touches (ht : Pool.Touches g pool other) (h : Place pool c ks) :
    Place other c ks := by
  cases h with
  | scope noEnum fits => exact .scope noEnum (fits.of_touches ht)
  | enum inEnum there fits => exact .enum inEnum (ht.enumOf there) (fits.of_touches ht)

/-- A cursor still fits if nothing but fields and attributes of its file changed. -/
theorem Fits.of_touches (hf : c.Fits pool ks) (ht : Pool.Touches g pool other)
    (hb : other.HasBlock = pool.HasBlock) (he : other.HasEnum = pool.HasEnum) :
    c.Fits other ks where
  hasFile := (ht.file _ hf.hasFile).1
  early hd := by
    refine ⟨fun b hbo => ?_, fun e heo => ?_⟩
    · have hp : pool.HasBlock b := hb ▸ hbo.1
      exact (hf.early hd).1 b ⟨hp, (ht.block b hp).2.1.file.symm.trans hbo.2⟩
    · have hp : pool.HasEnum e := he ▸ heo.1
      exact (hf.early hd).2 e ⟨hp, (ht.enum e hp).2.1.file.symm.trans heo.2⟩
  place := hf.place.of_touches ht

/-- A cursor still fits while another file is changed. -/
theorem Fits.of_kept (hf : c.Fits pool ks) (ht : Pool.Touches g pool other)
    (hk : Pool.Kept c.file pool other) : c.Fits other ks where
  hasFile := (ht.file _ hf.hasFile).1
  early hd := ⟨fun b hb => (hf.early hd).1 b ((hk.blocks b).mp hb),
    fun e he => (hf.early hd).2 e ((hk.enums e).mp he)⟩
  place := hf.place.of_touches ht

/-- Where types may be declared, no enum is open and the scope fits. -/
theorem Fits.scopeFits (hf : c.Fits pool ks) (hks : ks.TakesTypes) :
    c.openEnum = none ∧ ScopeFits pool c.file ks c.scope := by
  cases hf.place with
  | scope noEnum fits => exact ⟨noEnum, fits⟩
  | enum inEnum there fits => exact absurd (hks .enum rfl) (by simp)

/-- Inside a new block the cursor fits. -/
theorem Fits.inside (hf : c.Fits pool ks) (hks : ks.TakesTypes) {B : Block}
    {m : Members → Members} (hadded : Pool.BlockAdded pool other B m)
    (ht : Pool.Touches c.file pool other) (hB : B.file = c.file) (hp : B.parent = c.scope)
    {k : BlockKind} (hk : k ≠ .enum) (hx : B.isExtend = decide (k = .extend)) :
    (c.inside ⟨pool.blocks.size⟩).Fits other (k :: ks) where
  hasFile := (ht.file _ hf.hasFile).1
  early hd := by cases hd
  place := by
    obtain ⟨noEnum, fits⟩ := hf.scopeFits hks
    refine .scope noEnum ⟨hk, _, rfl, ⟨(hadded.blocks _).mpr (.inr rfl), ?_⟩, ?_, ?_⟩
    · rw [hadded.block_new]
      exact hB
    · rw [hadded.block_new, hx]
    · rw [hadded.block_new, hp]
      exact fits.of_touches ht

/-- Behind an event the cursor fits the blocks that are open there. -/
theorem Effect.fits (h : Effect c pool e c' other) (hn : e.Nests ks ks') (hf : c.Fits pool ks) :
    c'.Fits other ks' := by
  have ht := h.touches hn hf
  cases h with
  | edition | package | importFile | fileOption | required | strayField | strayValue =>
    cases hn
    exact hf.of_touches ht (by simp) (by simp)
  | blockOption | enumOption =>
    cases hn
    exact hf.of_touches ht (by simp) (by simp)
  | value inEnum added =>
    cases hn
    obtain ⟨-, -, rfl⟩ := Pool.addValue_eq_ok added
    exact hf.of_touches ht (by simp) (by simp)
  | field scope added =>
    cases hn
    have hadded := Pool.fieldAdded added (hf.scope_block scope).1
    exact hf.of_touches ht hadded.blocks hadded.enums
  | reservedRanges | reservedNames | extensionRanges =>
    cases hn
    refine hf.of_touches ht ?_ ?_ <;> unfold modifyOpen <;> split <;> simp
  | message added =>
    cases hn with
    | openMessage hks =>
      obtain ⟨hs, -⟩ := hf.hasScope hks
      obtain ⟨-, rfl, -⟩ := Pool.addMessage_eq_ok added
      exact hf.inside hks (Pool.blockAdded_addMessage added hs) ht rfl rfl (by simp) rfl
  | extend =>
    cases hn with
    | openExtend hks =>
      obtain ⟨hs, -⟩ := hf.hasScope hks
      exact hf.inside hks (Pool.blockAdded_addExtend c.file _ _ hs) ht rfl rfl (by simp) rfl
  | enum added =>
    cases hn with
    | openEnum hks =>
      obtain ⟨hs, -⟩ := hf.hasScope hks
      obtain ⟨-, rfl, -⟩ := Pool.addEnum_eq_ok added
      have hadded := Pool.enumAdded_addEnum added hs
      refine ⟨(ht.file _ hf.hasFile).1, fun hd => (by cases hd), .enum rfl ⟨?_, ?_⟩ ?_⟩
      · exact (hadded.enums _).mpr (.inr rfl)
      · rw [hadded.enum_new]
        rfl
      · exact (hf.scopeFits hks).2.of_touches ht
  | closeEnum inEnum valid =>
    cases hn with
    | close =>
      refine ⟨hf.hasFile, hf.early, ?_⟩
      cases hf.place with
      | scope noEnum fits =>
        rw [inEnum] at noEnum
        cases noEnum
      | enum inEnum there fits => exact .scope rfl fits
  | closeBlock noEnum =>
    cases hn with
    | close =>
      refine ⟨hf.hasFile, hf.early, ?_⟩
      cases hf.place with
      | scope noEnum fits =>
        obtain ⟨-, b, hb, -, -, hp⟩ := fits
        rw [hb]
        exact .scope noEnum hp
      | enum inEnum there fits =>
        rw [noEnum] at inEnum
        cases inEnum

/-- What no event changes: the files that are there, what they import, the types that they pass on,
and the extension numbers in use. -/
theorem Effect.tables (h : Effect c pool e c' other) (hn : e.Nests ks ks') (hf : c.Fits pool ks) :
    other.HasFile = pool.HasFile ∧ other.extensions = pool.extensions ∧
      ∀ i, (other.file i).imports = (pool.file i).imports ∧
        (other.file i).types = (pool.file i).types := by
  cases h with
  | edition | package | fileOption =>
    refine ⟨by simp, rfl, fun i => ?_⟩
    rw [Pool.file_modifyFile]
    split
    · exact ⟨rfl, rfl⟩
    · exact ⟨rfl, rfl⟩
  | importFile | required | strayField | strayValue | closeEnum | closeBlock =>
    exact ⟨rfl, rfl, fun _ => ⟨rfl, rfl⟩⟩
  | blockOption | enumOption => exact ⟨by simp, rfl, fun _ => ⟨rfl, rfl⟩⟩
  | message added =>
    cases hn with
    | openMessage hks =>
      have hadded := Pool.blockAdded_addMessage added (hf.hasScope hks).1
      obtain ⟨-, -, rfl⟩ := Pool.addMessage_eq_ok added
      refine ⟨hadded.files, Pool.extensions_modifyMembers _ _, fun i => ?_⟩
      rw [hadded.file]
      exact ⟨rfl, rfl⟩
  | @extend type =>
    cases hn with
    | openExtend hks =>
      have hadded := Pool.blockAdded_addExtend c.file type
        (pool.resolve? c.file c.scope type.value) (hf.hasScope hks).1
      refine ⟨hadded.files, Pool.extensions_modifyMembers _ _, fun i => ?_⟩
      rw [hadded.file]
      exact ⟨rfl, rfl⟩
  | enum added =>
    cases hn with
    | openEnum hks =>
      have hadded := Pool.enumAdded_addEnum added (hf.hasScope hks).1
      obtain ⟨-, -, rfl⟩ := Pool.addEnum_eq_ok added
      refine ⟨hadded.files, Pool.extensions_modifyMembers _ _, fun i => ?_⟩
      rw [hadded.file]
      exact ⟨rfl, rfl⟩
  | field scope added =>
    have hadded := Pool.fieldAdded added (hf.scope_block scope).1
    obtain ⟨-, -, rfl⟩ := Pool.addField_eq_ok added
    exact ⟨hadded.files, rfl, fun i => by rw [hadded.file]; exact ⟨rfl, rfl⟩⟩
  | value inEnum added =>
    obtain ⟨-, -, rfl⟩ := Pool.addValue_eq_ok added
    exact ⟨by simp, rfl, fun _ => ⟨rfl, rfl⟩⟩
  | reservedRanges | reservedNames | extensionRanges =>
    unfold modifyOpen
    split
    · exact ⟨by simp, rfl, fun _ => ⟨rfl, rfl⟩⟩
    · exact ⟨rfl, rfl, fun _ => ⟨rfl, rfl⟩⟩

end ProtoSchema.Cursor
