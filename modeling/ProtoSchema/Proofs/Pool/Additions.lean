import ProtoSchema.Proofs.Pool.Outline

/-! # Declarations added to one scope

`Grows s` says of two pools that nothing but the contents of the scope `s` differs in what the first one
holds; new declarations may stand anywhere.  `GrowsIn f x` says the same of one file `f`, while other files
may change, and of any spot `x`, a scope or an enum.  Scopes lead to later blocks only, so all outlines that
do not lead through a scope `s` stay as they were (`GrowsIn.messageOutline_eq`), and what is added to the
contents of `s` is added to its outline (`GrowsIn.declared_eq`). -/

namespace ProtoSchema.Pool

variable {V : View} {pool other third : Pool} {s t : Scope} {b : BlockId}

/-- Nothing but the contents of the scope `s` differs in what the first pool holds. -/
structure Grows (s : Scope) (pool other : Pool) : Prop where
  file : ∀ i, pool.HasFile i → other.HasFile i ∧
    ∃ members options, other.file i = { pool.file i with members, options }
  block : ∀ b, pool.HasBlock b → other.HasBlock b ∧ (other.block b).heading = (pool.block b).heading ∧
    (other.block b).file = (pool.block b).file ∧ (other.block b).parent = (pool.block b).parent
  enum : ∀ e, pool.HasEnum e → other.HasEnum e ∧ other.enum e = pool.enum e
  field : ∀ d, pool.HasField d → other.HasField d ∧ other.field d = pool.field d
  contents : ∀ t, pool.InRange t → t ≠ s → other.contents t = pool.contents t

namespace Grows

protected theorem refl (s : Scope) (pool : Pool) : Grows s pool pool :=
  ⟨fun _ h => ⟨h, _, _, rfl⟩, fun _ h => ⟨h, rfl, rfl, rfl⟩, fun _ h => ⟨h, rfl⟩, fun _ h => ⟨h, rfl⟩,
    fun _ _ _ => rfl⟩

theorem inRange (h : Grows s pool other) (ht : pool.InRange t) : other.InRange t := by
  cases t with
  | file i => exact (h.file i ht).1
  | block b => exact (h.block b ht).1

theorem scopeFile (h : Grows s pool other) (ht : pool.InRange t) :
    other.scopeFile t = pool.scopeFile t := by
  cases t with
  | file i => rfl
  | block b => exact (h.block b ht).2.2.1

theorem isExtend (h : Grows s pool other) (hb : pool.HasBlock b) :
    (other.block b).isExtend = (pool.block b).isExtend := by
  unfold Block.isExtend
  rw [(h.block b hb).2.1]

/-- Additions to `s` and then to a scope that is `s` or was not there before. -/
theorem trans_of (h : Grows s pool other) (h' : Grows t other third) (ht : t = s ∨ ¬pool.InRange t) :
    Grows s pool third where
  file i hi := by
    obtain ⟨hother, m, o, he⟩ := h.file i hi
    obtain ⟨hthird, m', o', he'⟩ := h'.file i hother
    exact ⟨hthird, m', o', by rw [he', he]⟩
  block b hb := by
    obtain ⟨hother, h1, h2, h3⟩ := h.block b hb
    obtain ⟨hthird, k1, k2, k3⟩ := h'.block b hother
    exact ⟨hthird, k1.trans h1, k2.trans h2, k3.trans h3⟩
  enum e he := by
    obtain ⟨hother, h1⟩ := h.enum e he
    obtain ⟨hthird, k1⟩ := h'.enum e hother
    exact ⟨hthird, k1.trans h1⟩
  field d hd := by
    obtain ⟨hother, h1⟩ := h.field d hd
    obtain ⟨hthird, k1⟩ := h'.field d hother
    exact ⟨hthird, k1.trans h1⟩
  contents u hu hne := by
    refine (h'.contents u (h.inRange hu) ?_).trans (h.contents u hu hne)
    rintro rfl
    exact ht.elim hne fun hout => hout hu

protected theorem trans (h : Grows s pool other) (h' : Grows s other third) : Grows s pool third :=
  h.trans_of h' (.inl rfl)

end Grows

/-! ### Outlines -/

/-- A block that is read behind the beginning of a scope.  Blocks in the scope are. -/
def BehindScope (s : Scope) (b : BlockId) : Prop := ∀ a, s = .block a → a.index < b.index

/-- Declarations that are there, in or behind the scope `s`. -/
structure HoldsBehind (pool : Pool) (s : Scope) (D : Declarations EnumId BlockId FieldId BlockId) :
    Prop where
  enums : ∀ e ∈ D.enums, pool.HasEnum e
  messages : ∀ b ∈ D.messages, pool.HasBlock b ∧ BehindScope s b
  fields : ∀ d ∈ D.fields, pool.HasField d
  extendBlocks : ∀ b ∈ D.extendBlocks, pool.HasBlock b ∧ BehindScope s b

theorem WellFormed.hasField_of_mem (hw : pool.WellFormed) {d : FieldId}
    (hd : d ∈ (pool.block b).fields.values) : pool.HasField d := by
  obtain ⟨n, hn⟩ := Table.mem_values_iff.mp hd
  exact ((hw.field_iff b n d).mp hn).1

/-- The contents of a scope, and of a block behind it. -/
theorem WellFormed.holdsBehind_contents (hw : pool.WellFormed)
    (ht : t = s ∨ ∃ b, t = .block b ∧ BehindScope s b) : pool.HoldsBehind s (pool.contents t) := by
  have hbehind : ∀ b, pool.HasBlock b → (pool.block b).parent = t → BehindScope s b := by
    rintro b hb rfl a rfl
    rcases ht with hs | ⟨p, hp, hps⟩
    · exact hw.block_later b a hb hs
    · exact (hps a rfl).trans (hw.block_later b p hb hp)
  refine ⟨fun e he => (hw.mem_enums_iff.mp he).1, fun b hb => ?_, fun d hd => ?_, fun b hb => ?_⟩
  · obtain ⟨hthere, -, hparent⟩ := hw.mem_messages_iff.mp hb
    exact ⟨hthere, hbehind b hthere hparent⟩
  · cases t with
    | file i => cases hd
    | block b => exact hw.hasField_of_mem hd
  · obtain ⟨hthere, hparent, -⟩ := (hw.extend_iff t b).mp hb
    exact ⟨hthere, hbehind b hthere hparent⟩

theorem BehindScope.ne (hb : BehindScope s b) : Scope.block b ≠ s := by
  rintro rfl
  exact Nat.lt_irrefl _ (hb b rfl)

/-- Where something can be added: in a scope, or in an enum. -/
inductive Spot where
  | scope (s : Scope)
  | enum (e : EnumId)

/-- The spot is there. -/
def HasSpot (pool : Pool) : Spot → Prop
  | .scope s => pool.InRange s
  | .enum e => pool.HasEnum e

/-- Nothing but what stands at the spot `x` differs in what the first pool holds of the file `f`. -/
structure GrowsIn (f : FileId) (x : Spot) (pool other : Pool) : Prop where
  file : pool.HasFile f → other.HasFile f
  block : ∀ b, pool.BlockOf f b →
    other.BlockOf f b ∧ (other.block b).heading = (pool.block b).heading
  enum : ∀ e, pool.EnumOf f e → other.EnumOf f e ∧ (x ≠ .enum e → other.enum e = pool.enum e)
  field : ∀ d, pool.FieldOf f d → other.FieldOf f d ∧ other.field d = pool.field d
  contents : ∀ t, pool.InRange t → pool.scopeFile t = f → x ≠ .scope t →
    other.contents t = pool.contents t

theorem Grows.within (h : Grows s pool other) (f : FileId) : GrowsIn f (.scope s) pool other where
  file hf := (h.file f hf).1
  block b hb := by
    obtain ⟨hother, heading, file, -⟩ := h.block b hb.1
    exact ⟨⟨hother, file.trans hb.2⟩, heading⟩
  enum e he := by
    obtain ⟨hother, heq⟩ := h.enum e he.1
    exact ⟨⟨hother, by rw [heq]; exact he.2⟩, fun _ => heq⟩
  field d hd := by
    obtain ⟨hother, heq⟩ := h.field d hd.1
    obtain ⟨hblock, -, file, -⟩ := h.block _ hd.2.1
    exact ⟨⟨hother, by rw [heq]; exact ⟨hblock, file.trans hd.2.2⟩⟩, heq⟩
  contents t ht _ hne := h.contents t ht fun he => hne (congrArg Spot.scope he.symm)

variable {f : FileId} {x : Spot}

namespace GrowsIn

theorem inRange (h : GrowsIn f x pool other) (ht : pool.InRange t) (hf : pool.scopeFile t = f) :
    other.InRange t ∧ other.scopeFile t = f := by
  cases t with
  | file i =>
    cases hf
    exact ⟨h.file ht, rfl⟩
  | block b => exact (h.block b ⟨ht, hf⟩).1

theorem extendOutline_eq (h : GrowsIn f (.scope s) pool other) (hw : pool.WellFormed)
    (hb : pool.BlockOf f b) (hbehind : BehindScope s b) :
    other.extendOutline V b = pool.extendOutline V b := by
  have hcontents := h.contents (.block b) hb.1 hb.2 fun he => hbehind.ne (Spot.scope.inj he).symm
  have hfields : (other.block b).fields.values = (pool.block b).fields.values :=
    congrArg Declarations.fields hcontents
  rw [extendOutline, extendOutline, View.extendee, View.extendee, (h.block b hb).2, hfields]
  congr 1
  refine List.map_congr_left fun d hd => ?_
  rw [fieldOutline, (h.field d (hw.fieldOf_of_mem_fields hb hd)).2, fieldOutline]

/-- What stands in a scope of the file, at the spot or behind it, shows the same. -/
theorem outlineOf_eq (h : GrowsIn f (.scope s) pool other) (hw : pool.WellFormed)
    (ht : t = s ∨ ∃ b, t = .block b ∧ BehindScope s b) (htf : pool.scopeFile t = f)
    (hmessages : ∀ b ∈ (pool.contents t).messages,
      other.messageOutline V b = pool.messageOutline V b) :
    other.outlineOf V (pool.contents t) = pool.outlineOf V (pool.contents t) := by
  have hholds := hw.holdsBehind_contents ht
  unfold outlineOf outlineAround
  rw [List.map_congr_left hmessages]
  congr 1
  · refine List.map_congr_left fun e he => ?_
    rw [enumOutline, (h.enum e (hw.enumOf_of_mem_enums htf he)).2 (by simp), enumOutline]
  · refine List.map_congr_left fun d hd => ?_
    have hfield : pool.FieldOf f d := by
      cases t with
      | file i => cases hd
      | block b =>
        obtain ⟨n, hn⟩ := Table.mem_values_iff.mp hd
        obtain ⟨hthere, rfl, -⟩ := (hw.field_iff b n d).mp hn
        exact ⟨hthere, hw.field_block d hthere, htf⟩
    rw [fieldOutline, (h.field d hfield).2, fieldOutline]
  · refine List.map_congr_left fun b hb => ?_
    exact h.extendOutline_eq hw (hw.blockOf_of_mem_extendBlocks htf hb) (hholds.extendBlocks b hb).2

theorem messageOutline_eq (h : GrowsIn f (.scope s) pool other) (hw : pool.WellFormed)
    (hw' : other.WellFormed) (b : BlockId) : pool.BlockOf f b → BehindScope s b →
      other.messageOutline V b = pool.messageOutline V b := by
  induction b using hw.message_induction with
  | step b ih =>
    intro hb hbehind
    have hname : (other.block b).name = (pool.block b).name := by
      rw [Block.name, Block.name, Block.fullName, Block.fullName, (h.block b hb).2]
    have hholds := hw.holdsBehind_contents (.inr ⟨b, rfl, hbehind⟩)
    have hcontents := h.contents (.block b) hb.1 hb.2 fun he =>
      hbehind.ne (Spot.scope.inj he).symm
    rw [hw'.messageOutline_eq, hw.messageOutline_eq, hname, declared, declared, hcontents,
      h.outlineOf_eq hw (.inr ⟨b, rfl, hbehind⟩) hb.2]
    intro a ha
    exact ih a ha (hw.blockOf_of_mem_messages (s := .block b) hb.2 ha) (hholds.messages a ha).2

/-- What is added to the contents of a scope is added to its outline. -/
theorem declared_eq (h : GrowsIn f (.scope s) pool other) (hw : pool.WellFormed) (hw' : other.WellFormed)
    (hs : pool.scopeFile s = f) {D : Declarations EnumId BlockId FieldId BlockId}
    (hD : other.contents s = pool.contents s ++ D) :
    other.declared V s = pool.declared V s ++ other.outlineOf V D := by
  have hholds := hw.holdsBehind_contents (s := s) (.inl rfl)
  rw [declared, hD, outlineOf_append, h.outlineOf_eq hw (.inl rfl) hs, declared]
  exact fun b hb => h.messageOutline_eq hw hw' b (hw.blockOf_of_mem_messages hs hb)
    (hholds.messages b hb).2

end GrowsIn

theorem Grows.declared_eq (h : Grows s pool other) (hw : pool.WellFormed) (hw' : other.WellFormed)
    {D : Declarations EnumId BlockId FieldId BlockId} (hD : other.contents s = pool.contents s ++ D) :
    other.declared V s = pool.declared V s ++ other.outlineOf V D :=
  (h.within _).declared_eq hw hw' rfl hD

/-! ### New declarations -/

theorem BlockAdded.attributes {B : Block} {m : Members → Members} (h : BlockAdded pool other B m)
    (ht : pool.InRange t) : other.attributes t = pool.attributes t := by
  cases t with
  | file i => simp only [Pool.attributes, h.file i]
  | block b => simp only [Pool.attributes, h.block b ht]

theorem EnumAdded.attributes {E : EnumType} {m : Members → Members} (h : EnumAdded pool other E m)
    (t : Scope) : other.attributes t = pool.attributes t := by
  cases t with
  | file i => simp only [Pool.attributes, h.file i]
  | block b => simp only [Pool.attributes, h.block b]

namespace Grows

theorem of_blockAdded {B : Block} {m : Members → Members} (h : BlockAdded pool other B m) :
    Grows B.parent pool other where
  file i hi := ⟨by rwa [h.files], _, _, h.file i⟩
  block b hb := by
    refine ⟨(h.blocks b).mpr (.inl hb), ?_⟩
    rw [h.block b hb]
    exact ⟨rfl, rfl, rfl⟩
  enum e he := ⟨by rwa [h.enums], by rw [h.enum]⟩
  field d hd := ⟨by rwa [h.fields], by rw [h.field]⟩
  contents t ht hne := by
    simp only [Pool.contents, h.attributes ht, h.members, if_neg hne]

theorem of_enumAdded {E : EnumType} {m : Members → Members} (h : EnumAdded pool other E m) :
    Grows E.parent pool other where
  file i hi := ⟨by rwa [h.files], _, _, h.file i⟩
  block b hb := by
    refine ⟨by rwa [h.blocks], ?_⟩
    rw [h.block b]
    exact ⟨rfl, rfl, rfl⟩
  enum e he := ⟨(h.enums e).mpr (.inl he), h.enum e he⟩
  field d hd := ⟨by rwa [h.fields], by rw [h.field]⟩
  contents t ht hne := by
    simp only [Pool.contents, h.attributes t, h.members, if_neg hne]

theorem of_fieldAdded {F : Field} (h : FieldAdded pool other F) :
    Grows (.block F.block) pool other where
  file i hi := ⟨by rwa [h.files], _, _, by rw [h.file]⟩
  block b hb := by
    refine ⟨by rwa [h.blocks], ?_⟩
    rw [h.block b]
    exact ⟨rfl, rfl, rfl⟩
  enum e he := ⟨by rwa [h.enums], by rw [h.enum]⟩
  field d hd := ⟨(h.fields d).mpr (.inl hd), h.field d hd⟩
  contents t ht hne := by
    cases t with
    | file i => simp only [Pool.contents, attributes, members, h.file]
    | block b =>
      have hfields := h.block_fields b
      rw [if_neg fun he => hne (by rw [he])] at hfields
      simp only [Pool.contents, attributes, members]
      rw [h.block b, hfields]

theorem modifyFile {i : FileId} {k : File → File}
    (hk : ∀ x, ∃ members options, k x = { x with members, options }) :
    Grows (.file i) pool (pool.modifyFile i k) where
  file j hj := by
    refine ⟨by rwa [hasFile_modifyFile], ?_⟩
    rw [file_modifyFile]
    split
    · exact hk _
    · exact ⟨_, _, rfl⟩
  block _ hb := ⟨hb, rfl, rfl, rfl⟩
  enum _ he := ⟨he, rfl⟩
  field _ hd := ⟨hd, rfl⟩
  contents t ht hne := by
    cases t with
    | file j =>
      have hj : i ≠ j := fun he => hne (he ▸ rfl)
      simp only [Pool.contents, attributes, members, file_modifyFile, hj, false_and, if_false]
    | block b => rfl

theorem modifyBlock {b : BlockId} {k : Block → Block} (hk : ∀ x, (k x).heading = x.heading ∧
    (k x).file = x.file ∧ (k x).parent = x.parent) : Grows (.block b) pool (pool.modifyBlock b k) where
  file _ hi := ⟨hi, _, _, rfl⟩
  block a ha := by
    refine ⟨by rwa [hasBlock_modifyBlock], ?_⟩
    rw [block_modifyBlock]
    split
    · exact hk _
    · exact ⟨rfl, rfl, rfl⟩
  enum _ he := ⟨he, rfl⟩
  field _ hd := ⟨hd, rfl⟩
  contents t ht hne := by
    cases t with
    | file j => rfl
    | block a =>
      have ha : b ≠ a := fun he => hne (he ▸ rfl)
      simp only [Pool.contents, attributes, members, block_modifyBlock, ha, false_and, if_false]

end Grows

end ProtoSchema.Pool
