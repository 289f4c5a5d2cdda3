import ProtoSchema.Proofs.Renaming.Lookup

/-! # Changes of pools that match

If a declaration of a file is changed in the same way in two pools that match, or one is added to
both, the pools match again.  A new declaration stands behind all others in both pools, so the
renaming has only to send the one to the other. -/

namespace ProtoSchema

namespace Renaming

variable (ρ : Renaming)

/-- The renaming that sends the block `b` to `b'`. -/
def setBlock (b b' : BlockId) : Renaming := { ρ with block := fun i => if i = b then b' else ρ.block i }

def setEnum (e e' : EnumId) : Renaming := { ρ with enum := fun i => if i = e then e' else ρ.enum i }

def setField (d d' : FieldId) : Renaming :=
  { ρ with field := fun i => if i = d then d' else ρ.field i }

end Renaming

namespace Pool

variable {pool other pool' other' : Pool} {ρ σ : Renaming} {f : FileId}

/-! ### New places -/

theorem agreeOn_setBlock (b' : BlockId) :
    AgreeOn (fun _ => True) pool ρ (ρ.setBlock ⟨pool.blocks.size⟩ b') where
  file _ _ := rfl
  block b hb _ := if_neg fun (e : b = _) => not_hasBlock_size (e ▸ hb)
  enum _ _ _ := rfl
  field _ _ _ := rfl

theorem agreeOn_setEnum (e' : EnumId) :
    AgreeOn (fun _ => True) pool ρ (ρ.setEnum ⟨pool.enums.size⟩ e') where
  file _ _ := rfl
  block _ _ _ := rfl
  enum e he _ := if_neg fun (h : e = _) => not_hasEnum_size (h ▸ he)
  field _ _ _ := rfl

theorem agreeOn_setField (d' : FieldId) :
    AgreeOn (fun _ => True) pool ρ (ρ.setField ⟨pool.fields.size⟩ d') where
  file _ _ := rfl
  block _ _ _ := rfl
  enum _ _ _ := rfl
  field d hd _ := if_neg fun (h : d = _) => not_hasField_size (h ▸ hd)

/-! ### Changes in place -/

theorem blockOf_modifyBlock {k : Block → Block} {a b : BlockId}
    (hk : (k (pool.block a)).file = (pool.block a).file) :
    (pool.modifyBlock a k).BlockOf f b ↔ pool.BlockOf f b := by
  rw [BlockOf, BlockOf, hasBlock_modifyBlock, block_modifyBlock]
  split
  · next h => rw [← h.1, hk]
  · exact .rfl

theorem enumOf_modifyEnum {a e : EnumId} {k : EnumType → EnumType}
    (hk : (k (pool.enum a)).file = (pool.enum a).file) :
    (pool.modifyEnum a k).EnumOf f e ↔ pool.EnumOf f e := by
  rw [EnumOf, EnumOf, hasEnum_modifyEnum, enum_modifyEnum]
  split
  · next h => rw [← h.1, hk]
  · exact .rfl

theorem fieldOf_modifyField {a d : FieldId} {k : Field → Field}
    (hk : (k (pool.field a)).block = (pool.field a).block) :
    (pool.modifyField a k).FieldOf f d ↔ pool.FieldOf f d := by
  rw [FieldOf, FieldOf, hasField_modifyField, field_modifyField]
  split
  · next h =>
    rw [← h.1, hk]
    exact .rfl
  · exact .rfl

namespace Matches

theorem modifyFile (h : Matches ρ f pool other) (hf : pool.HasFile f)
    (hf' : other.HasFile (ρ.file f)) {k k' : File → File}
    (hk : k' (ρ.onFile (pool.file f)) = ρ.onFile (k (pool.file f))) :
    Matches ρ f (pool.modifyFile f k) (other.modifyFile (ρ.file f) k') where
  file := by rw [file_modifyFile, file_modifyFile, if_pos ⟨rfl, hf'⟩, if_pos ⟨rfl, hf⟩, h.file, hk]
  blocks := h.blocks
  enums := h.enums
  fields := h.fields
  block := h.block
  enum := h.enum
  field := h.field
  block_lt := h.block_lt
  enum_lt := h.enum_lt
  field_lt := h.field_lt

theorem modifyBlock (h : Matches ρ f pool other) {a : BlockId} (ha : pool.BlockOf f a)
    {k k' : Block → Block} (hk : k' (ρ.onBlock (pool.block a)) = ρ.onBlock (k (pool.block a)))
    (hfile : (k (pool.block a)).file = (pool.block a).file) :
    Matches ρ f (pool.modifyBlock a k) (other.modifyBlock (ρ.block a) k') := by
  have hfile' : (k' (other.block (ρ.block a))).file = (other.block (ρ.block a)).file := by
    rw [h.block a ha, hk]
    exact congrArg ρ.file hfile
  have hof : ∀ b, (pool.modifyBlock a k).BlockOf f b ↔ pool.BlockOf f b := fun b =>
    blockOf_modifyBlock hfile
  have hof' : ∀ b, (other.modifyBlock (ρ.block a) k').BlockOf (ρ.file f) b ↔
      other.BlockOf (ρ.file f) b := fun b => blockOf_modifyBlock hfile'
  exact
    { file := h.file
      blocks := fun b => by
        rw [hof', h.blocks]
        simp only [hof]
      enums := h.enums
      fields := fun d => by
        rw [FieldOf, hof', hasField_modifyBlock, field_modifyBlock]
        refine (h.fields d).trans (exists_congr fun e => and_congr_left fun _ => ?_)
        rw [FieldOf, FieldOf, hof, hasField_modifyBlock, field_modifyBlock]
      block := fun b hb => by
        have hb := (hof b).mp hb
        rw [block_modifyBlock, block_modifyBlock]
        by_cases he : a = b
        · subst he
          rw [if_pos ⟨rfl, (h.blockOf ha).1⟩, if_pos ⟨rfl, ha.1⟩, h.block a ha, hk]
        · rw [if_neg fun e => he ((h.block_inj ha hb).mp e.1), if_neg fun e => he e.1, h.block b hb]
      enum := h.enum
      field := fun d hd => h.field d ⟨hd.1, (hof _).mp hd.2⟩
      block_lt := fun b c hb hc => h.block_lt b c ((hof b).mp hb) ((hof c).mp hc)
      enum_lt := h.enum_lt
      field_lt := fun d e hd he => h.field_lt d e ⟨hd.1, (hof _).mp hd.2⟩ ⟨he.1, (hof _).mp he.2⟩ }

theorem modifyEnum (h : Matches ρ f pool other) {a : EnumId} (ha : pool.EnumOf f a)
    {k k' : EnumType → EnumType} (hk : k' (ρ.onEnum (pool.enum a)) = ρ.onEnum (k (pool.enum a)))
    (hfile : (k (pool.enum a)).file = (pool.enum a).file) :
    Matches ρ f (pool.modifyEnum a k) (other.modifyEnum (ρ.enum a) k') := by
  have hfile' : (k' (other.enum (ρ.enum a))).file = (other.enum (ρ.enum a)).file := by
    rw [h.enum a ha, hk]
    exact congrArg ρ.file hfile
  exact
    { file := h.file
      blocks := h.blocks
      enums := fun e => by
        rw [enumOf_modifyEnum hfile', h.enums]
        simp only [enumOf_modifyEnum hfile]
      fields := h.fields
      block := h.block
      enum := fun e he => by
        have he := (enumOf_modifyEnum hfile).mp he
        rw [enum_modifyEnum, enum_modifyEnum]
        by_cases hae : a = e
        · subst hae
          rw [if_pos ⟨rfl, (h.enumOf ha).1⟩, if_pos ⟨rfl, ha.1⟩, h.enum a ha, hk]
        · rw [if_neg fun e => hae ((h.enum_inj ha he).mp e.1), if_neg fun e => hae e.1, h.enum e he]
      field := h.field
      block_lt := h.block_lt
      enum_lt := fun b c hb hc =>
        h.enum_lt b c ((enumOf_modifyEnum hfile).mp hb) ((enumOf_modifyEnum hfile).mp hc)
      field_lt := h.field_lt }

theorem modifyField (h : Matches ρ f pool other) {a : FieldId} (ha : pool.FieldOf f a)
    {k k' : Field → Field} (hk : k' (ρ.onField (pool.field a)) = ρ.onField (k (pool.field a)))
    (hblock : (k (pool.field a)).block = (pool.field a).block) :
    Matches ρ f (pool.modifyField a k) (other.modifyField (ρ.field a) k') := by
  have hblock' : (k' (other.field (ρ.field a))).block = (other.field (ρ.field a)).block := by
    rw [h.field a ha, hk]
    exact congrArg ρ.block hblock
  exact
    { file := h.file
      blocks := h.blocks
      enums := h.enums
      fields := fun d => by
        rw [fieldOf_modifyField hblock', h.fields]
        simp only [fieldOf_modifyField hblock]
      block := h.block
      enum := h.enum
      field := fun d hd => by
        have hd := (fieldOf_modifyField hblock).mp hd
        rw [field_modifyField, field_modifyField]
        by_cases had : a = d
        · subst had
          rw [if_pos ⟨rfl, (h.fieldOf ha).1⟩, if_pos ⟨rfl, ha.1⟩, h.field a ha, hk]
        · rw [if_neg fun e => had ((h.field_inj ha hd).mp e.1), if_neg fun e => had e.1, h.field d hd]
      block_lt := h.block_lt
      enum_lt := h.enum_lt
      field_lt := fun b c hb hc =>
        h.field_lt b c ((fieldOf_modifyField hblock).mp hb) ((fieldOf_modifyField hblock).mp hc) }

end Matches

/-! ### New declarations -/

section added

variable {α : Type} {P Q : α → Prop} {new : α}

/-- If the new place is sent to the new place, the images of all places are the old images and it. -/
theorem exists_or_iff_of_added {β : Type} {g : α → β} {new' : β} (hQ : ∀ a, Q a ↔ P a ∨ a = new)
    (hnew : g new = new') {b : β} : ((∃ a, P a ∧ g a = b) ∨ b = new') ↔ ∃ a, Q a ∧ g a = b := by
  constructor
  · rintro (⟨a, ha, rfl⟩ | rfl)
    · exact ⟨a, (hQ a).mpr (.inl ha), rfl⟩
    · exact ⟨_, (hQ _).mpr (.inr rfl), hnew⟩
  · rintro ⟨a, ha, rfl⟩
    rcases (hQ a).mp ha with ha | rfl
    · exact .inl ⟨a, ha, rfl⟩
    · exact .inr hnew

/-- An order is kept if the new place is behind all others, and is sent behind all others. -/
theorem lt_of_added {index index' : α → Nat} (hQ : ∀ a, Q a ↔ P a ∨ a = new)
    (hlt : ∀ a b, P a → P b → index a < index b → index' a < index' b)
    (hbehind : ∀ a, P a → index a < index new) (hbehind' : ∀ a, P a → index' a < index' new) (a b : α)
    (ha : Q a) (hb : Q b) (hab : index a < index b) : index' a < index' b := by
  rcases (hQ a).mp ha with ha | rfl
  · rcases (hQ b).mp hb with hb | rfl
    · exact hlt a b ha hb hab
    · exact hbehind' a ha
  · rcases (hQ b).mp hb with hb | rfl
    · exact absurd hab (Nat.lt_asymm (hbehind b hb))
    · exact absurd hab (Nat.lt_irrefl _)

end added

namespace Matches

/-- If the members of one scope change in the same way, those of all scopes correspond as before. -/
theorem members_added (h : Matches σ f pool other) {s₀ : Scope} {k k' : Members → Members}
    (hs : pool.InRange s₀) (hsf : pool.scopeFile s₀ = f)
    (hk : k' (σ.members (pool.members s₀)) = σ.members (k (pool.members s₀)))
    (hmembers : ∀ s, pool'.members s = if s = s₀ then k (pool.members s) else pool.members s)
    (hmembers' : ∀ s, other'.members s =
      if s = σ.scope s₀ then k' (other.members s) else other.members s)
    {s : Scope} (hr : pool.InRange s) (hrf : pool.scopeFile s = f) :
    other'.members (σ.scope s) = σ.members (pool'.members s) := by
  rw [hmembers', hmembers, h.members hr hrf]
  by_cases he : s = s₀
  · rw [if_pos (congrArg σ.scope he), if_pos he, he, hk]
  · rw [if_neg fun e => he ((h.scope_inj hr hrf hs hsf).mp e), if_neg he]

/-- A block behind the others of the file. -/
theorem blockAdded (h : Matches σ f pool other) (hw : pool.WellFormed) (hw' : other.WellFormed)
    (hf : pool.HasFile f) {B B' : Block} {k k' : Members → Members}
    (hadded : BlockAdded pool pool' B k) (hadded' : BlockAdded other other' B' k')
    (hnew : σ.block ⟨pool.blocks.size⟩ = ⟨other.blocks.size⟩) (hB : B.file = f)
    (hB' : B' = σ.onBlock B) (hs : pool.HasScope B.parent) (hsf : pool.scopeFile B.parent = f)
    (hk : k' (σ.members (pool.members B.parent)) = σ.members (k (pool.members B.parent))) :
    Matches σ f pool' other' := by
  have hparent : B'.parent = σ.scope B.parent := hB' ▸ rfl
  have hfile' : B'.file = σ.file f := by
    rw [hB', ← hB]
    rfl
  have hmembers : ∀ {s}, pool.InRange s → pool.scopeFile s = f →
      other'.members (σ.scope s) = σ.members (pool'.members s) :=
    h.members_added hs.inRange hsf hk hadded.members (hparent ▸ hadded'.members)
  have hof := fun b => hadded.blockOf_iff hB (b := b)
  have hfield := fun d => hadded.fieldOf_iff hw hB (d := d)
  exact
    { file := by
        rw [hadded'.file, hadded.file, h.file, show Scope.file (σ.file f) = σ.scope (.file f) from rfl,
          hmembers (s := .file f) hf rfl]
        rfl
      blocks := fun b => by
        rw [hadded'.blockOf_iff hfile', h.blocks]
        exact exists_or_iff_of_added hof hnew
      enums := fun e => by simp only [hadded'.enumOf_iff, hadded.enumOf_iff, h.enums]
      fields := fun d => by simp only [hadded'.fieldOf_iff hw' hfile', hfield, h.fields]
      block := fun b hb => by
        rcases (hof b).mp hb with hb | rfl
        · rw [hadded'.block _ (h.blockOf hb).1, hadded.block b hb.1, h.block b hb,
            show Scope.block (σ.block b) = σ.scope (.block b) from rfl,
            hmembers (s := .block b) hb.1 hb.2]
          rfl
        · rw [hnew, hadded'.block_new, hadded.block_new, hB']
      enum := fun e he => by
        rw [hadded'.enum, hadded.enum]
        exact h.enum e (hadded.enumOf_iff.mp he)
      field := fun d hd => by
        rw [hadded'.field, hadded.field]
        exact h.field d ((hfield d).mp hd)
      block_lt := lt_of_added hof h.block_lt (fun b hb => hb.1) fun b hb => by
        rw [hnew]
        exact (h.blockOf hb).1
      enum_lt := fun a b ha hb => h.enum_lt a b (hadded.enumOf_iff.mp ha) (hadded.enumOf_iff.mp hb)
      field_lt := fun a b ha hb => h.field_lt a b ((hfield a).mp ha) ((hfield b).mp hb) }

/-- An enum behind the others of the file. -/
theorem enumAdded (h : Matches σ f pool other) (hf : pool.HasFile f) {E E' : EnumType}
    {k k' : Members → Members} (hadded : EnumAdded pool pool' E k)
    (hadded' : EnumAdded other other' E' k')
    (hnew : σ.enum ⟨pool.enums.size⟩ = ⟨other.enums.size⟩) (hE : E.file = f)
    (hE' : E' = σ.onEnum E) (hs : pool.HasScope E.parent) (hsf : pool.scopeFile E.parent = f)
    (hk : k' (σ.members (pool.members E.parent)) = σ.members (k (pool.members E.parent))) :
    Matches σ f pool' other' := by
  have hparent : E'.parent = σ.scope E.parent := hE' ▸ rfl
  have hfile' : E'.file = σ.file f := by
    rw [hE', ← hE]
    rfl
  have hmembers : ∀ {s}, pool.InRange s → pool.scopeFile s = f →
      other'.members (σ.scope s) = σ.members (pool'.members s) :=
    h.members_added hs.inRange hsf hk hadded.members (hparent ▸ hadded'.members)
  have hof := fun e => hadded.enumOf_iff hE (e := e)
  exact
    { file := by
        rw [hadded'.file, hadded.file, h.file, show Scope.file (σ.file f) = σ.scope (.file f) from rfl,
          hmembers (s := .file f) hf rfl]
        rfl
      blocks := fun b => by simp only [hadded'.blockOf_iff, hadded.blockOf_iff, h.blocks]
      enums := fun e => by
        rw [hadded'.enumOf_iff hfile', h.enums]
        exact exists_or_iff_of_added hof hnew
      fields := fun d => by simp only [hadded'.fieldOf_iff, hadded.fieldOf_iff, h.fields]
      block := fun b hb => by
        have hb := hadded.blockOf_iff.mp hb
        rw [hadded'.block, hadded.block b, h.block b hb,
          show Scope.block (σ.block b) = σ.scope (.block b) from rfl,
          hmembers (s := .block b) hb.1 hb.2]
        rfl
      enum := fun e he => by
        rcases (hof e).mp he with he | rfl
        · rw [hadded'.enum _ (h.enumOf he).1, hadded.enum e he.1, h.enum e he]
        · rw [hnew, hadded'.enum_new, hadded.enum_new, hE']
      field := fun d hd => by
        rw [hadded'.field, hadded.field]
        exact h.field d (hadded.fieldOf_iff.mp hd)
      block_lt := fun a b ha hb =>
        h.block_lt a b (hadded.blockOf_iff.mp ha) (hadded.blockOf_iff.mp hb)
      enum_lt := lt_of_added hof h.enum_lt (fun e he => he.1) fun e he => by
        rw [hnew]
        exact (h.enumOf he).1
      field_lt := fun a b ha hb =>
        h.field_lt a b (hadded.fieldOf_iff.mp ha) (hadded.fieldOf_iff.mp hb) }

/-- A field behind the others of the file. -/
theorem fieldAdded (h : Matches σ f pool other) {F F' : Field} (hadded : FieldAdded pool pool' F)
    (hadded' : FieldAdded other other' F')
    (hnew : σ.field ⟨pool.fields.size⟩ = ⟨other.fields.size⟩) (hF : pool.BlockOf f F.block)
    (hF' : F' = σ.onField F) : Matches σ f pool' other' := by
  have hblock : F'.block = σ.block F.block := hF' ▸ rfl
  have hof := fun d => hadded.fieldOf_iff hF (d := d)
  exact
    { file := by rw [hadded'.file, hadded.file, h.file]
      blocks := fun b => by simp only [hadded'.blockOf_iff, hadded.blockOf_iff, h.blocks]
      enums := fun e => by simp only [hadded'.enumOf_iff, hadded.enumOf_iff, h.enums]
      fields := fun d => by
        rw [hadded'.fieldOf_iff (hblock ▸ h.blockOf hF), h.fields]
        exact exists_or_iff_of_added hof hnew
      block := fun b hb => by
        have hb := hadded.blockOf_iff.mp hb
        have hfields : (other'.block (σ.block b)).fields = (pool'.block b).fields.map σ.field := by
          rw [hadded'.block_fields, hadded.block_fields, h.block b hb, hblock]
          by_cases he : b = F.block
          · rw [if_pos (congrArg σ.block he), if_pos he, Table.map_insert, hnew, hF']
            rfl
          · rw [if_neg fun e => he ((h.block_inj hb hF).mp e), if_neg he]
            rfl
        rw [hadded'.block, hfields, hadded.block b, h.block b hb]
        rfl
      enum := fun e he => by
        rw [hadded'.enum, hadded.enum]
        exact h.enum e (hadded.enumOf_iff.mp he)
      field := fun d hd => by
        rcases (hof d).mp hd with hd | rfl
        · rw [hadded'.field _ (h.fieldOf hd).1, hadded.field d hd.1, h.field d hd]
        · rw [hnew, hadded'.field_new, hadded.field_new, hF']
      block_lt := fun a b ha hb =>
        h.block_lt a b (hadded.blockOf_iff.mp ha) (hadded.blockOf_iff.mp hb)
      enum_lt := fun a b ha hb =>
        h.enum_lt a b (hadded.enumOf_iff.mp ha) (hadded.enumOf_iff.mp hb)
      field_lt := lt_of_added hof h.field_lt (fun d hd => hd.1) fun d hd => by
        rw [hnew]
        exact (h.fieldOf hd).1 }

end Matches

end Pool

end ProtoSchema
