import ProtoSchema.Proofs.Pool.OutlineScopes
import ProtoSchema.Proofs.Pool.References

/-! # Blocks of files with one outline

Each block of a file has a block of the other file beside it (`exists_beside`), and no two blocks have the
same one beside them (`Beside.unique`).  So the fields and the references of the files stand side by side
as well (`exists_field`, `exists_refers`). -/

namespace ProtoSchema.Pool

variable {V V' : View} {pool other : Pool} {f g : FileId} {s s' : Scope} {b b' b₁ b₁' : BlockId}

/-- Different scopes of a file have different names. -/
theorem WellFormed.eq_of_scopeName (hw : pool.WellFormed) (hs : pool.HasScope s)
    (hs' : pool.HasScope s') (hfile : pool.scopeFile s = pool.scopeFile s')
    (hname : pool.scopeName s = pool.scopeName s') : s = s' := by
  have hlonger : ∀ {i b}, pool.HasScope (.block b) → pool.scopeFile (.block b) = i →
      pool.scopeName (.file i) ≠ pool.scopeName (.block b) := by
    intro i b hb hfile he
    obtain ⟨hparent, hsf⟩ := hw.block_scope b hb.1
    obtain ⟨path, hpath, -⟩ := hw.exists_path hparent
    have hfull := hw.fullName_concat hb.1 hb.2
    rw [hpath, hsf, show (pool.block b).file = i from hfile] at hfull
    have hlength := congrArg List.length ((show pool.scopeName (.file i) = _ from he).trans hfull)
    simp only [scopeName, List.length_append, List.length_singleton] at hlength
    omega
  cases s with
  | file i =>
    cases s' with
    | file j => exact congrArg Scope.file hfile
    | block b => exact absurd hname (hlonger hs' hfile.symm)
  | block a =>
    cases s' with
    | file j => exact absurd hname.symm (hlonger hs hfile)
    | block b =>
      have hsame : TypeId.message a = .message b := hw.eq_of_typeName hs hs' hfile hname
      exact congrArg Scope.block (TypeId.message.inj hsame)

/-- The blocks stand at the same place of the two files. -/
inductive Beside (V V' : View) (pool other : Pool) (f g : FileId) : BlockId → BlockId → Prop
  | message {b b' : BlockId} (there : b ∈ pool.messagesIn (.file f))
      (there' : b' ∈ other.messagesIn (.file g))
      (aligned : Aligned V V' pool other (.block b) (.block b')) : Beside V V' pool other f g b b'
  | extend {s s' : Scope} {b b' : BlockId} (there : s ∈ pool.scopesOf f) (there' : s' ∈ other.scopesOf g)
      (aligned : Aligned V V' pool other s s')
      (zipped : (b, b') ∈ (pool.members s).extendBlocks.zip (other.members s').extendBlocks) :
      Beside V V' pool other f g b b'

theorem exists_mem_zip_of_forall₂ {α β : Type} {R : α → β → Prop} {as : List α} {bs : List β}
    (h : List.Forall₂ R as bs) {b : β} (hb : b ∈ bs) : ∃ a, (a, b) ∈ as.zip bs := by
  induction h with
  | nil => cases hb
  | cons _ _ ih =>
    rcases List.mem_cons.mp hb with rfl | hb
    · exact ⟨_, List.mem_cons_self ..⟩
    · obtain ⟨a, ha⟩ := ih hb
      exact ⟨a, List.mem_cons_of_mem _ ha⟩

theorem eq_of_mem_zip {α β : Type} {as : List α} (hnodup : as.Nodup) : ∀ {bs : List β} {a : α} {b b' : β},
    (a, b) ∈ as.zip bs → (a, b') ∈ as.zip bs → b = b' := by
  induction as with
  | nil => exact fun h => by cases h
  | cons a as ih =>
    intro bs x b b' h h'
    rw [List.nodup_cons] at hnodup
    cases bs with
    | nil => cases h
    | cons c cs =>
      rw [List.zip_cons_cons, List.mem_cons] at h h'
      rcases h with h | h <;> rcases h' with h' | h'
      · cases h
        cases h'
        rfl
      · cases h
        exact absurd (List.of_mem_zip h').1 hnodup.1
      · cases h'
        exact absurd (List.of_mem_zip h).1 hnodup.1
      · exact ih hnodup.2 h h'

variable (hw : pool.WellFormed) (hw' : other.WellFormed)
include hw hw'

/-- Each block of a file has a block of the other file beside it. -/
theorem exists_beside (h : pool.outline V f = other.outline V' g) (hb' : other.BlockOf g b') :
    ∃ b, Beside V V' pool other f g b b' := by
  cases hx : (other.block b').isExtend with
  | false =>
    have hmem : b' ∈ other.messagesIn (.file g) := hw'.mem_messagesIn_iff.mpr ⟨hb', hx⟩
    obtain ⟨b, hb, hal⟩ := exists_of_forall₂_right (aligned_messages hw hw' h) hmem
    exact ⟨b, .message hb hmem hal⟩
  | true =>
    obtain ⟨hs', hsf'⟩ := hw'.block_scope b' hb'.1
    have hmem : (other.block b').parent ∈ other.scopesOf g :=
      (hw'.mem_scopes_iff (hw'.hasFile_of_blockOf hb')).mpr ⟨hs', hsf'.trans hb'.2⟩
    obtain ⟨s, hs, hal⟩ := exists_of_forall₂_right (aligned_scopes hw hw' h) hmem
    obtain ⟨b, hzip⟩ := exists_mem_zip_of_forall₂ hal.paired.extendBlocks
      ((hw'.extend_iff _ b').mpr ⟨hb'.1, rfl, hx⟩)
    exact ⟨b, .extend hs hmem hal hzip⟩

namespace Beside

theorem isExtend (h : Beside V V' pool other f g b b') :
    (pool.block b).isExtend = (other.block b').isExtend := by
  cases h with
  | message there there' =>
    rw [(hw.mem_messagesIn_iff.mp there).2, (hw'.mem_messagesIn_iff.mp there').2]
  | extend _ _ _ zipped =>
    obtain ⟨hb, hb'⟩ := List.of_mem_zip zipped
    rw [((hw.extend_iff _ b).mp hb).2.2, ((hw'.extend_iff _ b').mp hb').2.2]

/-- Blocks that stand beside each other have the same extended type and the same fields. -/
theorem extendOutline (h : Beside V V' pool other f g b b') :
    pool.extendOutline V b = other.extendOutline V' b' := by
  cases h with
  | message there there' aligned =>
    have hfields : (pool.block b).fields.values.map (pool.fieldOutline V) =
        (other.block b').fields.values.map (other.fieldOutline V') :=
      map_eq_map_iff.mpr aligned.paired.fields
    have hextendee : V.extendee (pool.block b) = V'.extendee (other.block b') := by
      have hmessage : ∀ {W : View} {c : Block}, c.isExtend = false → W.extendee c = ⟨false, []⟩ := by
        intro W c hc
        have hheading : c.heading = .message c.fullName := heading_eq_message_iff.mpr ⟨hc, rfl⟩
        rw [View.extendee, hheading]
      rw [hmessage (hw.mem_messagesIn_iff.mp there).2, hmessage (hw'.mem_messagesIn_iff.mp there').2]
    rw [Pool.extendOutline, Pool.extendOutline, hfields, hextendee]
  | extend _ _ aligned zipped => exact (List.forall₂_iff_zip.mp aligned.paired.extendBlocks).2 zipped

omit hw' in
theorem blockOf (h : Beside V V' pool other f g b b') : pool.BlockOf f b := by
  cases h with
  | message there => exact (hw.mem_messagesIn_iff.mp there).1
  | extend there _ _ zipped =>
    exact hw.blockOf_of_mem_extendBlocks (hw.scopeFile_of_mem_scopesOf there) (List.of_mem_zip zipped).1

/-- No two blocks have the same block beside them. -/
theorem unique (hg : other.HasFile g) (h : Beside V V' pool other f g b b')
    (h₁ : Beside V V' pool other f g b b₁') : b' = b₁' := by
  have hx := (h.isExtend hw hw').symm.trans (h₁.isExtend hw hw')
  cases h with
  | message there there' aligned =>
    obtain ⟨hb', hx'⟩ := hw'.mem_messagesIn_iff.mp there'
    cases h₁ with
    | message _ there₁' aligned₁ =>
      obtain ⟨hb₁', hx₁'⟩ := hw'.mem_messagesIn_iff.mp there₁'
      have hname : other.typeName (.message b') = other.typeName (.message b₁') :=
        aligned.name.symm.trans aligned₁.name
      exact TypeId.message.inj (hw'.eq_of_typeName ⟨hb'.1, hx'⟩ ⟨hb₁'.1, hx₁'⟩
        (hb'.2.trans hb₁'.2.symm) hname)
    | extend _ _ _ zipped₁ =>
      have := ((hw'.extend_iff _ b₁').mp (List.of_mem_zip zipped₁).2).2.2
      rw [← hx, hx'] at this
      cases this
  | @extend s s' _ _ there there' aligned zipped =>
    have hb := (hw.extend_iff _ b).mp (List.of_mem_zip zipped).1
    cases h₁ with
    | message there₁ =>
      have := (hw.mem_messagesIn_iff.mp there₁).2
      rw [hb.2.2] at this
      cases this
    | @extend s₁ s₁' _ _ there₁ there₁' aligned₁ zipped₁ =>
      -- both scopes stand beside the scope of the block
      obtain rfl : s = s₁ :=
        hb.2.1.symm.trans ((hw.extend_iff _ b).mp (List.of_mem_zip zipped₁).1).2.1
      obtain ⟨hs', hsf'⟩ := (hw'.mem_scopes_iff hg).mp there'
      obtain ⟨hs₁', hsf₁'⟩ := (hw'.mem_scopes_iff hg).mp there₁'
      obtain rfl : s' = s₁' := hw'.eq_of_scopeName hs' hs₁' (hsf'.trans hsf₁'.symm)
        (aligned.name.symm.trans aligned₁.name)
      exact eq_of_mem_zip (hw.extend_nodup s) zipped zipped₁

end Beside

/-- Each field of a file has one that is declared alike in a block beside its own. -/
theorem exists_field (h : pool.outline V f = other.outline V' g) {d' : FieldId}
    (hd' : other.FieldOf g d') : ∃ d, pool.FieldOf f d ∧
      Beside V V' pool other f g (pool.field d).block (other.field d').block ∧
      pool.fieldOutline V d = other.fieldOutline V' d' := by
  obtain ⟨b, hb⟩ := exists_beside hw hw' h hd'.2
  have hfields := (ExtendOutline.mk.inj (hb.extendOutline hw hw')).2
  obtain ⟨d, hd, he⟩ := exists_of_forall₂_right (map_eq_map_iff.mp hfields)
    (hw'.mem_fields_iff.mpr ⟨hd'.1, rfl⟩)
  obtain ⟨hthere, rfl⟩ := hw.mem_fields_iff.mp hd
  exact ⟨d, ⟨hthere, hb.blockOf hw⟩, hb, he⟩

/-- Each reference of a file has one in the other file that shows the same. -/
theorem exists_refers (h : pool.outline V f = other.outline V' g) {name' : TypeName} {offset' : Nat}
    {target' : Option TypeId} (hr : other.Refers g s' name' offset' target') :
    ∃ s name offset target, pool.Refers f s name offset target ∧
      V.type name target = V'.type name' target' := by
  cases hr with
  | @field d' _ _ there' type' =>
    obtain ⟨d, hd, -, he⟩ := exists_field hw hw' h there'
    have htype : V.fieldType (pool.field d).type = V'.fieldType (other.field d').type :=
      congrArg (fun D : FieldDecl => D.type.value) he
    rw [type'] at htype
    cases ht : (pool.field d).type with
    | scalar a =>
      rw [ht] at htype
      cases htype
    | named name target =>
      rw [ht] at htype
      exact ⟨_, name, _, target, .field hd ht, WrittenType.named.inj htype⟩
  | @extend b' _ _ there' heading' =>
    obtain ⟨b, hb⟩ := exists_beside hw hw' h there'
    have hx : (pool.block b).isExtend = true := by
      rw [hb.isExtend hw hw', Block.isExtend, heading']
    have htype := (ExtendOutline.mk.inj (hb.extendOutline hw hw')).1
    obtain ⟨name, target, hh⟩ := Block.exists_extend hx
    simp only [View.extendee, hh, heading'] at htype
    exact ⟨_, name, _, target, .extend (hb.blockOf hw) hh, htype⟩

end ProtoSchema.Pool
