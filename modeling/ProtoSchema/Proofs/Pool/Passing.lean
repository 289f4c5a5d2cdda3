import ProtoSchema.Proofs.Pool.Checking
import ProtoSchema.Proofs.Pool.References

/-! # Files that pass

A file passes its checks if all its names denote something (`Resolves`), and if nothing speaks against it
behind the sweep (`Admissible`): no message forbids one of its fields, each extension has room, and no
other field has its number.  The sweep then binds every name, since what is bound on the way changes no
lookup, and each number that is claimed is free or the field's own (`checkFile_of_admissible`). -/

namespace ProtoSchema.Pool

variable {pool other : Pool} {f : FileId} {b m : BlockId} {d : FieldId} {claims : Claims}
  {before : List FieldId}

/-! ### The sweep -/

/-- Every name of the file that is not bound denotes something. -/
structure Resolves (pool : Pool) (f : FileId) : Prop where
  found : ∀ {s name offset}, pool.Refers f s name offset none → ∃ t, pool.resolve? f s name = some t

/-- No name gets unbound. -/
theorem Binds.refers_none (h : Binds f pool other) {s : Scope} {name : TypeName} {offset : Nat}
    (hr : Refers other f s name offset none) : Refers pool f s name offset none := by
  have hfieldOf := fun d => Swept.fieldOf_iff (.single h) (g := f) (d := d)
  have hblockOf := fun b => Swept.blockOf_iff (.single h) (g := f) (b := b)
  cases h with
  | @block b type t there heading found =>
    cases hr with
    | @field d _ _ there' type' => exact .field ((hfieldOf d).mp there') type'
    | @extend b' _ _ there' heading' =>
      have there' := (hblockOf b').mp there'
      by_cases he : b = b'
      · subst he
        rw [block_modifyBlock, if_pos ⟨rfl, there.1⟩, Block.bind_of_unbound heading] at heading'
        cases heading'
      · rw [block_modifyBlock, if_neg fun hb => he hb.1] at heading' ⊢
        exact .extend there' heading'
  | @field d name' t there type found =>
    cases hr with
    | @field d' _ _ there' type' =>
      have there' := (hfieldOf d').mp there'
      by_cases he : d = d'
      · subst he
        rw [field_modifyField, if_pos ⟨rfl, there.1⟩, Field.bind_of_unbound type] at type'
        cases type'
      · rw [field_modifyField, if_neg fun hd => he hd.1] at type' ⊢
        exact .field there' type'
    | @extend b' _ _ there' heading' => exact .extend ((hblockOf b').mp there') heading'

theorem Resolves.swept (h : pool.Resolves f) (hs : Swept f pool other) (hw : pool.WellFormed)
    (hf : pool.HasFile f) : other.Resolves f := by
  refine ⟨fun {s name offset} hr => ?_⟩
  have hold : pool.Refers f s name offset none := by
    induction hs with
    | refl => exact hr
    | tail _ hlast ih => exact ih (hlast.refers_none hr)
  obtain ⟨hin, hfile⟩ := hw.scope_of_refers hold
  obtain ⟨t, ht⟩ := h.found hold
  exact ⟨t, (hs.resolve?_eq hw hin hfile hf name).trans ht⟩

theorem Resolves.sweepBlock (h : pool.Resolves f) (hb : pool.BlockOf f b) :
    Ends (sweepBlock f b pool) (fun _ other => Swept f pool other) fun _ => False := by
  have hends := sweepBlock_ends hb
  revert hends
  simp only [Pool.sweepBlock, bind, EStateM.bind, get_apply]
  cases hh : (pool.block b).heading with
  | message name => exact And.left
  | extend type target =>
    cases target with
    | some t => exact And.left
    | none =>
      obtain ⟨t, ht⟩ := h.found (.extend hb hh)
      simp only [ht]
      exact And.left

theorem Resolves.sweepField (h : pool.Resolves f) (hd : pool.FieldOf f d) :
    Ends (sweepField f d pool) (fun _ other => Swept f pool other) fun _ => False := by
  have hends := sweepField_ends hd
  revert hends
  simp only [Pool.sweepField, bind, EStateM.bind, get_apply]
  cases ht : (pool.field d).type with
  | scalar s => exact And.left
  | named name target =>
    cases target with
    | some t => exact And.left
    | none =>
      obtain ⟨t, ht⟩ := h.found (.field hd ht)
      simp only [ht]
      exact And.left

/-- The sweep over a file binds all its names if each denotes something. -/
theorem Resolves.sweep (h : pool.Resolves f) (hw : pool.WellFormed) (hf : pool.HasFile f) :
    ∃ other, sweep f pool = .ok () other ∧ Swept f pool other ∧ other.AllBound f := by
  have hrun : Ends (Pool.sweep f pool) (fun _ _ => True) fun _ => False := by
    rw [sweep_eq]
    refine Ends.bind ((Ends.forM (p := fun _ other => Swept f pool other) _ (fun b hb _ swept hs => ?_)
      [] pool .refl).mono (fun _ swept hs => ?_) fun _ hfalse => hfalse)
    · have hb := hs.blockOf_iff.mpr ((hw.mem_blocksOf_iff hf).mp hb)
      exact ((h.swept hs hw hf).sweepBlock hb).mono (fun _ _ => hs.trans) fun _ hfalse => hfalse
    · refine (Ends.forM (p := fun _ other => Swept f pool other) _ (fun d hd _ swept hs => ?_) [] swept
        hs).mono (fun _ _ _ => trivial) fun _ hfalse => hfalse
      have hd := hs.fieldOf_iff.mpr ((hw.mem_fieldsOf_iff hf).mp hd)
      exact ((h.swept hs hw hf).sweepField hd).mono (fun _ _ => hs.trans) fun _ hfalse => hfalse
  have hends := sweep_ends hw hf
  revert hrun hends
  cases Pool.sweep f pool with
  | error fault swept => exact fun hfalse => hfalse.elim
  | ok u swept => exact fun _ hswept => ⟨swept, rfl, hswept⟩

/-! ### Numbers -/

/-- Nothing speaks against the file, all names of which are bound. -/
structure Admissible (pool : Pool) (f : FileId) : Prop where
  fits : ∀ b, pool.BlockOf f b → pool.BlockFits b
  extensible : ∀ b, pool.BlockOf f b → pool.Extensible b
  room : ∀ d m n, pool.FieldOf f d → pool.Extends m n d → pool.LeavesRoom m n
  free : ∀ d m n, pool.FieldOf f d → pool.Extends m n d →
    ∀ e, pool.extensions.find? (m, n) = some e → e = d
  unique : ∀ d e m n, pool.FieldOf f d → pool.Extends m n d → pool.FieldOf f e → pool.Extends m n e →
    e = d

namespace Admissible

variable (h : pool.Admissible f)
include h

/-- The number of a field can be claimed when it is claimed for fields of the file only. -/
theorem claimNumber (hc : Claimed pool before claims) (hbefore : ∀ d ∈ before, pool.FieldOf f d)
    (hd : pool.FieldOf f d) (hext : pool.Extends m (pool.field d).number.value d) :
    ∃ claims', pool.claimNumber m claims d = .ok claims' := by
  have hroom : (pool.block m).extensionRanges.any (·.contains (pool.field d).number.value) = true :=
    List.any_eq_true.mpr (h.room d m _ hd hext)
  have hown : ∀ e, pool.holder? claims m (pool.field d).number.value = some e → e = d := by
    intro e he
    rcases Option.or_eq_some_iff.mp he with he | ⟨-, he⟩
    · exact h.free d m _ hd hext e he
    · obtain ⟨hmem, hext'⟩ := hc.sound _ _ _ he
      exact h.unique d e m _ hd hext (hbefore e hmem) hext'
  unfold holder? at hown
  simp only [Pool.claimNumber, hroom, if_true]
  cases hheld : (pool.extensions.find? (m, (pool.field d).number.value)).or
      (claims.find? (m, (pool.field d).number.value)) with
  | none => exact ⟨_, rfl⟩
  | some e => exact ⟨claims, if_pos (hown e hheld)⟩

theorem claimNumbers (ds : List FieldId) : ∀ {claims : Claims} {before : List FieldId},
    Claimed pool before claims → (∀ d ∈ before, pool.FieldOf f d) →
    (∀ d ∈ ds, pool.FieldOf f d ∧
      ∃ type, (pool.block (pool.field d).block).heading = .extend type (some (.message m))) →
    ∃ claims', ds.foldlM (pool.claimNumber m) claims = .ok claims' := by
  induction ds with
  | nil => exact fun _ _ _ => ⟨_, rfl⟩
  | cons d ds ih =>
    intro claims before hc hbefore hds
    rw [List.forall_mem_cons] at hds
    obtain ⟨⟨hd, hext⟩, hds⟩ := hds
    obtain ⟨claims₁, hclaims⟩ := h.claimNumber hc hbefore hd ⟨hext, rfl⟩
    obtain ⟨claims', hrest⟩ := ih (hc.claimNumber hext hclaims)
      (List.forall_mem_append.mpr ⟨hbefore, (List.forall_mem_singleton ..).mpr hd⟩) hds
    refine ⟨claims', ?_⟩
    rw [List.foldlM_cons, hclaims]
    exact hrest

variable (hw : pool.WellFormed)
include hw

theorem checkBlock (hc : Claimed pool before claims) (hbefore : ∀ d ∈ before, pool.FieldOf f d)
    (hb : pool.BlockOf f b) : ∃ claims', pool.checkBlock claims b = .ok claims' := by
  simp only [Pool.checkBlock]
  cases hh : (pool.block b).heading with
  | message name =>
    have hx : (pool.block b).isExtend = false := by simp [Block.isExtend, hh]
    simp only [checkMessage_eq_ok_iff.mpr ((h.fits b hb).message hx)]
    exact ⟨claims, rfl⟩
  | extend type target =>
    cases target with
    | none => exact ⟨claims, rfl⟩
    | some t =>
      obtain ⟨m, rfl⟩ := (h.fits b hb).extend type t hh
      simp only [checkExtend, if_neg (h.extensible b hb type m hh)]
      refine h.claimNumbers _ hc hbefore fun d hd => ?_
      obtain ⟨hthere, hblock⟩ := hw.mem_fields_iff.mp hd
      exact ⟨⟨hthere, hblock ▸ hb⟩, type, hblock ▸ hh⟩

theorem checkBlocks (hbound : pool.AllBound f) (bs : List BlockId) : ∀ {claims : Claims}
    {before : List FieldId}, Claimed pool before claims → (∀ d ∈ before, pool.FieldOf f d) →
    (∀ b ∈ bs, pool.BlockOf f b) → ∃ claims', bs.foldlM pool.checkBlock claims = .ok claims' := by
  induction bs with
  | nil => exact fun _ _ _ => ⟨_, rfl⟩
  | cons b bs ih =>
    intro claims before hc hbefore hbs
    rw [List.forall_mem_cons] at hbs
    obtain ⟨hb, hbs⟩ := hbs
    obtain ⟨claims₁, hclaims⟩ := h.checkBlock hw hc hbefore hb
    have hfields : ∀ d ∈ (pool.block b).fields.values, pool.FieldOf f d := fun d hd => by
      obtain ⟨hthere, hblock⟩ := hw.mem_fields_iff.mp hd
      exact ⟨hthere, hblock ▸ hb⟩
    obtain ⟨claims', hrest⟩ := ih (hc.checkBlock hw (hbound.block b hb) hclaims).1
      (List.forall_mem_append.mpr ⟨hbefore, hfields⟩) hbs
    refine ⟨claims', ?_⟩
    rw [List.foldlM_cons, hclaims]
    exact hrest

end Admissible

/-- A file passes its checks if its names denote something and nothing speaks against it behind the
sweep. -/
theorem checkFile_of_admissible (hw : pool.WellFormed) (hf : pool.HasFile f) (h : pool.Resolves f)
    (hadmissible : ∀ swept, Swept f pool swept → swept.AllBound f → swept.Admissible f) :
    ∃ other, checkFile f pool = .ok () other := by
  obtain ⟨swept, hrun, hswept, hbound⟩ := h.sweep hw hf
  have hw' := hswept.sameTree.wellFormed hw
  have hf' : swept.HasFile f := hswept.sameTree.files ▸ hf
  obtain ⟨claims, hclaims⟩ := (hadmissible swept hswept hbound).checkBlocks hw' hbound
    (swept.blocksOf f) Claimed.nil (List.forall_mem_nil _) fun b hb => (hw'.mem_blocksOf_iff hf').mp hb
  simp only [checkFile, bind, EStateM.bind, get_apply, hrun, hclaims]
  exact ⟨_, rfl⟩

end ProtoSchema.Pool
