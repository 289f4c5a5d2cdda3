import ProtoSchema.Proofs.Pool.Effects
import ProtoSchema.Proofs.Pool.Sweep

/-! # References to types

A reference is the type name of a field or of an extend block, with the scope from which it is looked
up and its place in the file.  An event adds at most one reference or one type, and either is written
behind all that was there (`Effect.adds`).  So a name that is looked up again later denotes what it
denoted, or a type that is declared behind the reference. -/

namespace ProtoSchema.Pool

variable {pool other : Pool} {f g : FileId} {s : Scope} {name : TypeName} {offset : Nat}

/-- A reference in the file `f` to `name`, looked up from the scope `s` and written at `offset`. -/
inductive Refers (pool : Pool) (f : FileId) : Scope → TypeName → Nat → Option TypeId → Prop
  | field {d name target} (there : pool.FieldOf f d) (type : (pool.field d).type = .named name target) :
      Refers pool f (.block (pool.field d).block) name (pool.field d).typeSpan.start target
  | extend {b name target} (there : pool.BlockOf f b)
      (heading : (pool.block b).heading = .extend name target) :
      Refers pool f (pool.block b).parent name (pool.block b).span.start target

/-- A reference of a file all names of which are bound. -/
theorem AllBound.exists_target (h : pool.AllBound f) {target : Option TypeId}
    (hr : Refers pool f s name offset target) : ∃ t, target = some t := by
  cases target with
  | some t => exact ⟨t, rfl⟩
  | none =>
    cases hr with
    | field there type => exact absurd ⟨_, type⟩ (h.field _ there)
    | extend there heading => exact absurd ⟨_, heading⟩ (h.block _ there)

/-- The type `t` is declared in the file `f` behind the place `offset`. -/
def Behind (pool : Pool) (f : FileId) (offset : Nat) (t : TypeId) : Prop :=
  pool.typeFile t = f ∧ offset < (pool.typeSpan t).start

/-- A reference is looked up from a scope of its file. -/
theorem WellFormed.scope_of_refers (hw : pool.WellFormed) {target : Option TypeId}
    (h : Refers pool f s name offset target) : pool.InRange s ∧ pool.scopeFile s = f := by
  cases h with
  | field there type => exact ⟨there.2.1, there.2.2⟩
  | extend there heading =>
    obtain ⟨hs, hfile⟩ := hw.block_scope _ there.1
    exact ⟨hs.inRange, hfile.trans there.2⟩

theorem Touches.type_eq (h : Touches g pool other) {t : TypeId} (ht : pool.HasType t) :
    other.typeFile t = pool.typeFile t ∧ other.typeSpan t = pool.typeSpan t := by
  cases t with
  | message b => exact ⟨(h.block b ht.1).2.1.file, (h.block b ht.1).2.1.span⟩
  | enum e => exact ⟨(h.enum e ht).2.1.file, (h.enum e ht).2.1.span⟩

theorem Touches.behind_iff (h : Touches g pool other) {t : TypeId} (ht : pool.HasType t) :
    other.Behind f offset t ↔ pool.Behind f offset t := by
  rw [Behind, Behind, (h.type_eq ht).1, (h.type_eq ht).2]

/-! ### Changes outside the tree -/

theorem SameTree.hasType (h : SameTree pool other) {t : TypeId} (ht : other.HasType t) :
    pool.HasType t := by
  cases t with
  | message b => exact ⟨h.blocks ▸ ht.1, (h.block b).2.2.2 ▸ ht.2⟩
  | enum e => exact (show pool.HasEnum e from h.enums ▸ ht)

theorem SameTree.refers (h : SameTree pool other)
    (hblock : ∀ b, (other.block b).heading = (pool.block b).heading ∧
      (other.block b).span = (pool.block b).span)
    (hfield : other.field = pool.field) {target : Option TypeId}
    (hr : Refers other f s name offset target) : Refers pool f s name offset target := by
  have hblockOf : ∀ b, other.BlockOf f b ↔ pool.BlockOf f b := by
    intro b
    rw [BlockOf, BlockOf, h.blocks, (h.block b).1]
  cases hr with
  | field there type =>
    rw [FieldOf, h.fields, hblockOf, hfield] at there
    rw [hfield] at type ⊢
    exact .field there type
  | @extend b _ _ there heading =>
    rw [(h.block b).2.1, (hblock b).2]
    rw [(hblock b).1] at heading
    exact .extend ((hblockOf b).mp there) heading

/-! ### Files that are left alone -/

theorem Kept.refers_iff (h : Kept f pool other) {target : Option TypeId} :
    Refers other f s name offset target ↔ Refers pool f s name offset target := by
  constructor
  · intro hr
    cases hr with
    | field there type =>
      have hd := (h.fields _).mp there
      rw [h.field _ hd] at type ⊢
      exact .field hd type
    | extend there heading =>
      have hb := (h.blocks _).mp there
      rw [h.block _ hb] at heading ⊢
      exact .extend hb heading
  · intro hr
    cases hr with
    | @field d _ _ there type =>
      have hr := Refers.field ((h.fields d).mpr there) ((h.field d there).symm ▸ type)
      rwa [h.field d there] at hr
    | @extend b _ _ there heading =>
      have hr := Refers.extend ((h.blocks b).mpr there) ((h.block b there).symm ▸ heading)
      rwa [h.block b there] at hr

/-- A file shows the same from inside if it and the files it imports are left alone. -/
theorem Kept.sameView {new : TypeId → Prop} (h : Kept f pool other)
    (hi : ∀ i ∈ (pool.file f).imports.values, Kept i.file pool other) :
    SameView f new pool other := by
  have hmembers : ∀ s, pool.InRange s → pool.scopeFile s = f →
      other.members s = pool.members s := by
    intro s hs hfile
    cases s with
    | file i =>
      have hfile : i = f := hfile
      rw [hfile]
      simp only [members, h.file]
    | block b => simp only [members, h.block b ⟨hs, hfile⟩]
  refine ⟨⟨fun b hb => ⟨((h.blocks b).mpr hb).1, by rw [h.block b hb]⟩, ?_, ?_, ?_⟩, ?_, ?_⟩
  · exact fun s n hs hfile => .inl (by rw [hmembers s hs hfile])
  · exact fun s n hs hfile => .inl (by rw [hmembers s hs hfile])
  · rw [h.file]
  · rw [h.file]
  · intro i hmem
    rw [(hi i hmem).file]
    exact ⟨rfl, rfl⟩

/-! ### What an event adds -/

/-- A change to the file `f` that adds at most one reference or one type, written at `anchor`. -/
structure Adds (f : FileId) (anchor : Option Nat) (pool other : Pool) : Prop where
  touches : Touches f pool other
  view : SameView f (fun t => other.HasType t ∧ ¬pool.HasType t ∧ other.typeFile t = f ∧
    anchor = some (other.typeSpan t).start) pool other
  refers : ∀ {s name offset target}, Refers other f s name offset target →
    Refers pool f s name offset target ∨
      anchor = some offset ∧ target = pool.resolve? f s name ∧ pool.InRange s ∧
        pool.scopeFile s = f ∧ ∀ t, other.HasType t → pool.HasType t
  types : ∀ t, other.HasType t → other.typeFile t = f →
    pool.HasType t ∨ anchor = some (other.typeSpan t).start

/-- Nothing is added by a change outside the tree that leaves all names and places as they are. -/
theorem Adds.of_sameTree {anchor : Option Nat} (h : SameTree pool other)
    (ht : Touches f pool other) (himports : (other.file f).imports = (pool.file f).imports)
    (htypes : ∀ i ∈ (pool.file f).imports.values,
      (other.file i.file).types = (pool.file i.file).types)
    (hblock : ∀ b, (other.block b).heading = (pool.block b).heading ∧
      (other.block b).span = (pool.block b).span)
    (hfield : other.field = pool.field) : Adds f anchor pool other where
  touches := ht
  view := h.sameView himports htypes
  refers hr := .inl (h.refers hblock hfield hr)
  types _ ht _ := .inl (h.hasType ht)

/-- The scopes of the file show a message that is new in one of them. -/
theorem BlockAdded.sameView {B : Block} {k : Members → Members} (h : BlockAdded pool other B k)
    (hB : B.file = f) (hempty : B.members = {})
    (hmessages : ∀ n, (k (pool.members B.parent)).messages.find? n =
        (pool.members B.parent).messages.find? n ∨
      (pool.members B.parent).messages.find? n = none ∧ B.isExtend = false ∧
        (k (pool.members B.parent)).messages.find? n = some ⟨pool.blocks.size⟩)
    (henums : (k (pool.members B.parent)).enums = (pool.members B.parent).enums) :
    SameView f (fun t => other.HasType t ∧ ¬pool.HasType t ∧ other.typeFile t = f ∧
      some B.span.start = some (other.typeSpan t).start) pool other where
  scopes :=
    { parent := fun b hb => ⟨(h.blocks b).mpr (.inl hb.1), h.block_parent hb.1⟩
      message := fun s n _ _ => by
        rw [h.members]
        split
        · next hs =>
          subst hs
          obtain hsame | ⟨hnone, hx, hsome⟩ := hmessages n
          · exact .inl hsame
          refine .inr ⟨hnone, _, hsome, ?_, ?_⟩
          · refine ⟨⟨(h.blocks _).mpr (.inr rfl), by rw [h.block_new, hx]⟩,
              fun ht => not_hasBlock_size ht.1, ?_, ?_⟩
            · simp only [typeFile, h.block_new, hB]
            · simp only [typeSpan, h.block_new]
          · rw [h.block_new, hempty]
        · exact .inl rfl
      enum := fun s n _ _ => by
        rw [h.members]
        split
        · next hs => exact .inl (by rw [hs, henums])
        · exact .inl rfl
      packageName := by
        rw [h.file]
        rfl }
  imports := by rw [h.file]
  imported i _ := by
    rw [h.file]
    exact ⟨rfl, rfl⟩

theorem Adds.of_blockAdded {B : Block} {k : Members → Members} (h : BlockAdded pool other B k)
    (hw : pool.WellFormed) (hB : B.file = f) (hs : pool.HasScope B.parent)
    (hp : pool.scopeFile B.parent = f) (hempty : B.members = {})
    (hmessages : ∀ n, (k (pool.members B.parent)).messages.find? n =
        (pool.members B.parent).messages.find? n ∨
      (pool.members B.parent).messages.find? n = none ∧ B.isExtend = false ∧
        (k (pool.members B.parent)).messages.find? n = some ⟨pool.blocks.size⟩)
    (henums : (k (pool.members B.parent)).enums = (pool.members B.parent).enums)
    (href : ∀ name target, B.heading = .extend name target →
      target = pool.resolve? f B.parent name) : Adds f (some B.span.start) pool other where
  touches := .of_blockAdded h hB hp
  view := h.sameView hB hempty hmessages henums
  refers := by
    intro s name offset target hr
    cases hr with
    | field there type =>
      rw [h.fieldOf_iff hw hB] at there
      rw [h.field] at type ⊢
      exact .inl (.field there type)
    | @extend b _ _ there heading =>
      rcases (h.blockOf_iff hB).mp there with hb | rfl
      · rw [h.block_heading hb.1] at heading
        rw [h.block_parent hb.1, h.block_span hb.1]
        exact .inl (.extend hb heading)
      · rw [h.block_new] at heading ⊢
        refine .inr ⟨rfl, href name target heading, hs.inRange, hp, fun t ht => ?_⟩
        cases t with
        | message b =>
          rcases (h.blocks b).mp ht.1 with hb | rfl
          · exact ⟨hb, (h.isExtend hb).symm.trans ht.2⟩
          · have hx := ht.2
            rw [h.block_new] at hx
            simp [Block.isExtend, heading] at hx
        | enum e => exact (show pool.HasEnum e from h.enums ▸ ht)
  types t ht _ := by
    cases t with
    | message b =>
      rcases (h.blocks b).mp ht.1 with hb | rfl
      · exact .inl ⟨hb, (h.isExtend hb).symm.trans ht.2⟩
      · exact .inr (by simp only [typeSpan, h.block_new])
    | enum e => exact .inl (show pool.HasEnum e from h.enums ▸ ht)

/-- The scopes of the file show an enum that is new in one of them. -/
theorem EnumAdded.sameView {E : EnumType} {k : Members → Members} (h : EnumAdded pool other E k)
    (hE : E.file = f)
    (hmessages : (k (pool.members E.parent)).messages = (pool.members E.parent).messages)
    (henums : ∀ n, (k (pool.members E.parent)).enums.find? n =
        (pool.members E.parent).enums.find? n ∨
      (k (pool.members E.parent)).enums.find? n = some ⟨pool.enums.size⟩) :
    SameView f (fun t => other.HasType t ∧ ¬pool.HasType t ∧ other.typeFile t = f ∧
      some E.span.start = some (other.typeSpan t).start) pool other where
  scopes :=
    { parent := fun b hb => ⟨(h.blockOf_iff.mpr hb).1, h.block_parent b⟩
      message := fun s n _ _ => by
        rw [h.members]
        split
        · next hs => exact .inl (by rw [hs, hmessages])
        · exact .inl rfl
      enum := fun s n _ _ => by
        rw [h.members]
        split
        · next hs =>
          subst hs
          refine (henums n).imp_right fun hsome => ⟨_, hsome, (h.enums _).mpr (.inr rfl),
            fun ht => not_hasEnum_size ht, ?_, ?_⟩
          · simp only [typeFile, h.enum_new, hE]
          · simp only [typeSpan, h.enum_new]
        · exact .inl rfl
      packageName := by
        rw [h.file]
        rfl }
  imports := by rw [h.file]
  imported i _ := by
    rw [h.file]
    exact ⟨rfl, rfl⟩

theorem Adds.of_enumAdded {E : EnumType} {k : Members → Members} (h : EnumAdded pool other E k)
    (hE : E.file = f) (hp : pool.scopeFile E.parent = f)
    (hmessages : (k (pool.members E.parent)).messages = (pool.members E.parent).messages)
    (henums : ∀ n, (k (pool.members E.parent)).enums.find? n =
        (pool.members E.parent).enums.find? n ∨
      (k (pool.members E.parent)).enums.find? n = some ⟨pool.enums.size⟩) :
    Adds f (some E.span.start) pool other where
  touches := .of_enumAdded h hE hp
  view := h.sameView hE hmessages henums
  refers := by
    intro s name offset target hr
    refine .inl ?_
    cases hr with
    | field there type =>
      rw [h.fieldOf_iff] at there
      rw [h.field] at type ⊢
      exact .field there type
    | @extend b _ _ there heading =>
      rw [h.block_heading] at heading
      rw [h.block_parent, h.block_span]
      exact .extend (h.blockOf_iff.mp there) heading
  types t ht _ := by
    cases t with
    | message b => exact .inl ⟨h.blocks ▸ ht.1, (h.isExtend b).symm.trans ht.2⟩
    | enum e =>
      rcases (h.enums e).mp ht with he | rfl
      · exact .inl he
      · exact .inr (by simp only [typeSpan, h.enum_new])

theorem FieldAdded.sameView {F : Field} (h : FieldAdded pool other F) {new : TypeId → Prop} :
    SameView f new pool other where
  scopes :=
    { parent := fun b hb => ⟨(h.blockOf_iff.mpr hb).1, h.block_parent b⟩
      message := fun s n _ _ => .inl (by rw [h.members_eq])
      enum := fun s n _ _ => .inl (by rw [h.members_eq])
      packageName := by rw [h.file] }
  imports := by rw [h.file]
  imported i _ := by
    rw [h.file]
    exact ⟨rfl, rfl⟩

theorem Adds.of_fieldAdded {F : Field} (h : FieldAdded pool other F) (hb : pool.BlockOf f F.block)
    (href : ∀ name target, F.type = .named name target →
      target = pool.resolve? f (.block F.block) name) :
    Adds f (some F.typeSpan.start) pool other := by
  have htype : ∀ t, other.HasType t → pool.HasType t := by
    intro t ht
    cases t with
    | message b => exact ⟨h.blocks ▸ ht.1, (h.isExtend b).symm.trans ht.2⟩
    | enum e => exact (show pool.HasEnum e from h.enums ▸ ht)
  refine ⟨.of_fieldAdded h hb, h.sameView, ?_, fun t ht _ => .inl (htype t ht)⟩
  intro s name offset target hr
  cases hr with
  | @field d _ _ there type =>
    rcases (h.fieldOf_iff hb).mp there with hd | rfl
    · rw [h.field d hd.1] at type ⊢
      exact .inl (.field hd type)
    · rw [h.field_new] at type ⊢
      exact .inr ⟨rfl, href name target type, hb.1, hb.2, htype⟩
  | @extend b _ _ there heading =>
    rw [h.block_heading] at heading
    rw [h.block_parent, h.block_span]
    exact .inl (.extend (h.blockOf_iff.mp there) heading)

end ProtoSchema.Pool

namespace ProtoSchema.Cursor

variable {c c' : Cursor} {pool other : Pool} {e : Event} {ks ks' : OpenBlocks}

/-- An event other than a package statement adds what its anchor says. -/
theorem Effect.adds (h : Effect c pool e c' other) (hn : e.Nests ks ks') (hf : c.Fits pool ks)
    (hw : pool.WellFormed) (hpackage : ∀ name, e ≠ .package name) :
    Pool.Adds c.file e.anchor? pool other := by
  have ht := h.touches hn hf
  obtain ⟨-, -, htables⟩ := h.tables hn hf
  have hsame : ∀ {anchor}, Pool.SameTree pool other →
      (∀ b, (other.block b).heading = (pool.block b).heading ∧
        (other.block b).span = (pool.block b).span) → other.field = pool.field →
      Pool.Adds c.file anchor pool other := fun hs =>
    .of_sameTree hs ht (htables _).1 fun i _ => (htables _).2
  cases h with
  | package => exact absurd rfl (hpackage _)
  | edition | fileOption =>
    refine hsame (.modifyFile _ _ ?_) (fun _ => ⟨rfl, rfl⟩) rfl
    exact fun _ => ⟨rfl, rfl⟩
  | importFile | required | strayField | strayValue | closeEnum | closeBlock =>
    exact hsame (.refl _) (fun _ => ⟨rfl, rfl⟩) rfl
  | blockOption =>
    refine hsame (.modifyBlock _ _ ?_) (fun b => ?_) rfl
    · exact fun _ => ⟨rfl, rfl, rfl, rfl, rfl, rfl⟩
    · rw [Pool.block_modifyBlock]
      split <;> exact ⟨rfl, rfl⟩
  | enumOption =>
    refine hsame (.modifyEnum _ _ ?_) (fun _ => ⟨rfl, rfl⟩) rfl
    exact fun _ => ⟨rfl, rfl, rfl⟩
  | value inEnum added =>
    obtain ⟨-, -, rfl⟩ := Pool.addValue_eq_ok added
    refine hsame (.modifyEnum _ _ ?_) (fun _ => ⟨rfl, rfl⟩) rfl
    exact fun _ => ⟨rfl, rfl, rfl⟩
  | reservedRanges | reservedNames | extensionRanges =>
    unfold modifyOpen at hsame ⊢
    split at hsame
    · refine hsame (.modifyBlock _ _ ?_) (fun b => ?_) rfl
      · exact fun _ => ⟨rfl, rfl, rfl, rfl, rfl, rfl⟩
      · rw [Pool.block_modifyBlock]
        split <;> exact ⟨rfl, rfl⟩
    · exact hsame (.refl _) (fun _ => ⟨rfl, rfl⟩) rfl
  | @message name other id added =>
    cases hn with
    | openMessage hks =>
      obtain ⟨hs, hfile⟩ := hf.hasScope hks
      refine .of_blockAdded (Pool.blockAdded_addMessage added hs) hw rfl hs hfile rfl ?_ rfl ?_
      · intro n
        simp only [Table.find?_insert]
        split
        · next he =>
          rw [he]
          have hfree := (Pool.placeOf?_eq_none_iff.mp (Pool.addMessage_eq_ok added).1).1
          refine .inr ⟨hfree, rfl, ?_⟩
          show ((pool.members c.scope).messages.find? name.value).or _ = _
          rw [hfree]
          rfl
        · exact .inl (Option.or_none ..)
      · intro name target h
        cases h
  | @extend type =>
    cases hn with
    | openExtend hks =>
      obtain ⟨hs, hfile⟩ := hf.hasScope hks
      refine .of_blockAdded (Pool.blockAdded_addExtend c.file type _ hs) hw rfl hs hfile rfl ?_ rfl ?_
      · exact fun n => .inl rfl
      · intro name target h
        cases h
        rfl
  | @enum name other id added =>
    cases hn with
    | openEnum hks =>
      obtain ⟨hs, hfile⟩ := hf.hasScope hks
      refine .of_enumAdded (Pool.enumAdded_addEnum added hs) rfl hfile rfl ?_
      intro n
      simp only [Table.find?_insert]
      split
      · next he =>
        rw [he]
        have hfree := (Pool.placeOf?_eq_none_iff.mp (Pool.addEnum_eq_ok added).1).2.1
        refine .inr ?_
        show ((pool.members c.scope).enums.find? name.value).or _ = _
        rw [hfree]
        rfl
      · exact .inl (Option.or_none ..)
  | @field f block other scope added =>
    have hb := hf.scope_block scope
    refine .of_fieldAdded (Pool.fieldAdded added hb.1) hb ?_
    intro name target h
    simp only [newField, fieldType] at h
    split at h
    · cases h
    · cases h
      rw [scope]
      rfl

end ProtoSchema.Cursor
