import ProtoSchema.Pool.Check
import ProtoSchema.Proofs.Ends
import ProtoSchema.Proofs.Pool.Resolving

/-! # The sweep

The sweep over a file binds names one by one (`Binds`); every name that it binds denotes what a
lookup finds.  Binding changes neither the tree nor what a lookup finds, so the order in which names
are bound does not matter.  A sweep that ends without a fault leaves no name of the file unbound. -/

namespace ProtoSchema

/-! ### Binding -/

theorem Block.bind_of_unbound {b : Block} {type : TypeName} (h : b.heading = .extend type none)
    (t : TypeId) : b.bind t = { b with heading := .extend type (some t) } := by
  unfold Block.bind
  rw [h]

theorem Block.bind_eq (b : Block) (t : TypeId) :
    ∃ h, b.bind t = { b with heading := h } ∧ b.heading.Refines h := by
  unfold Block.bind
  split
  · next type h => exact ⟨_, rfl, .inr ⟨type, t, h, rfl⟩⟩
  · exact ⟨b.heading, rfl, .inl rfl⟩

theorem Block.bind_refines (b : Block) (t : TypeId) : b.Refines (b.bind t) := by
  obtain ⟨h, e, hr⟩ := b.bind_eq t
  rw [e]
  exact ⟨rfl, rfl, rfl, hr, fun _ h => h⟩

theorem Field.bind_of_unbound {d : Field} {name : TypeName} (h : d.type = .named name none)
    (t : TypeId) : d.bind t = { d with type := .named name (some t) } := by
  unfold Field.bind
  rw [h]

theorem Field.bind_eq (d : Field) (t : TypeId) :
    ∃ type, d.bind t = { d with type } ∧ d.type.Refines type := by
  unfold Field.bind
  split
  · next name h => exact ⟨_, rfl, .inr ⟨name, t, h, rfl⟩⟩
  · exact ⟨d.type, rfl, .inl rfl⟩

theorem Field.bind_refines (d : Field) (t : TypeId) : d.Refines (d.bind t) := by
  obtain ⟨type, e, hr⟩ := d.bind_eq t
  rw [e]
  exact ⟨rfl, hr⟩

/-- Is the type of an extend block not bound? -/
def Heading.Unbound (h : Heading) : Prop := ∃ type, h = .extend type none

/-- Is the type of a field not bound? -/
def FieldType.Unbound (t : FieldType) : Prop := ∃ name, t = .named name none

theorem Heading.Refines.bound {h h' : Heading} (hr : h.Refines h') (hb : ¬h.Unbound) :
    ¬h'.Unbound := by
  rcases hr with rfl | ⟨type, t, rfl, rfl⟩
  · exact hb
  · exact absurd ⟨type, rfl⟩ hb

theorem FieldType.Refines.bound {t t' : FieldType} (hr : t.Refines t') (hb : ¬t.Unbound) :
    ¬t'.Unbound := by
  rcases hr with rfl | ⟨name, t, rfl, rfl⟩
  · exact hb
  · exact absurd ⟨name, rfl⟩ hb

namespace Pool

variable {f : FileId} {pool other : Pool}

/-- One name of the file `f` is bound to what it denotes. -/
inductive Binds (f : FileId) (pool : Pool) : Pool → Prop
  | block {b type t} (there : pool.BlockOf f b) (heading : (pool.block b).heading = .extend type none)
      (found : pool.resolve? f (pool.block b).parent type = some t) :
      Binds f pool (pool.modifyBlock b (·.bind t))
  | field {d name t} (there : pool.FieldOf f d) (type : (pool.field d).type = .named name none)
      (found : pool.resolve? f (.block (pool.field d).block) name = some t) :
      Binds f pool (pool.modifyField d (·.bind t))

/-- Some names of the file `f` are bound. -/
abbrev Swept (f : FileId) : Pool → Pool → Prop := Relation.ReflTransGen (Binds f)

theorem SameTree.bindBlock (b : BlockId) (t : TypeId) :
    SameTree pool (pool.modifyBlock b (·.bind t)) := by
  refine .modifyBlock _ _ fun x => ?_
  obtain ⟨h, e, -⟩ := x.bind_eq t
  have hr := x.bind_refines t
  exact ⟨hr.file, hr.parent, by rw [e], by rw [e], hr.isExtend, hr.fullName⟩

theorem SameTree.bindField (d : FieldId) (t : TypeId) :
    SameTree pool (pool.modifyField d (·.bind t)) := by
  refine .modifyField _ _ fun x => ?_
  obtain ⟨type, e, -⟩ := x.bind_eq t
  rw [e]
  exact ⟨rfl, rfl, rfl⟩

theorem Binds.sameTree (h : Binds f pool other) : SameTree pool other := by
  cases h with
  | block => exact .bindBlock ..
  | field => exact .bindField ..

theorem Binds.touches (h : Binds f pool other) : Touches f pool other := by
  cases h with
  | block there => exact .modifyBlock (fun _ => there.2) _ fun x => x.bind_refines _
  | field there => exact .modifyField (fun _ => there.2.2) _ fun x => x.bind_refines _

theorem Binds.file_eq (h : Binds f pool other) : other.file = pool.file := by
  cases h <;> rfl

theorem Binds.extensions_eq (h : Binds f pool other) : other.extensions = pool.extensions := by
  cases h <;> rfl

namespace Swept

theorem sameTree (h : Swept f pool other) : SameTree pool other := by
  induction h with
  | refl => exact .refl _
  | tail _ hb ih => exact ih.trans hb.sameTree

theorem touches (h : Swept f pool other) (hw : pool.WellFormed) : Touches f pool other := by
  induction h with
  | refl => exact .refl _ _
  | tail _ hb ih => exact ih.trans hw hb.touches

theorem file_eq (h : Swept f pool other) : other.file = pool.file := by
  induction h with
  | refl => rfl
  | tail _ hb ih => exact hb.file_eq.trans ih

theorem extensions_eq (h : Swept f pool other) : other.extensions = pool.extensions := by
  induction h with
  | refl => rfl
  | tail _ hb ih => exact hb.extensions_eq.trans ih

/-- A lookup finds the same behind the sweep. -/
theorem resolve?_eq (h : Swept f pool other) (hw : pool.WellFormed) {g : FileId} {s : Scope}
    (hs : pool.InRange s) (hg : pool.scopeFile s = g) (hfile : pool.HasFile g) (name : TypeName) :
    other.resolve? g s name = pool.resolve? g s name := by
  have hv : SameView g (fun _ => False) pool other :=
    h.sameTree.sameView (by rw [h.file_eq]) fun i _ => by rw [h.file_eq]
  exact hv.resolve?_eq hw (h.sameTree.wellFormed hw) hs hg hfile name

/-- What is bound stays bound. -/
theorem block_bound (h : Swept f pool other) (hw : pool.WellFormed) {b : BlockId}
    (hb : pool.HasBlock b) (hu : ¬(pool.block b).heading.Unbound) :
    ¬(other.block b).heading.Unbound :=
  ((h.touches hw).block b hb).2.1.heading.bound hu

theorem field_bound (h : Swept f pool other) (hw : pool.WellFormed) {d : FieldId}
    (hd : pool.HasField d) (hu : ¬(pool.field d).type.Unbound) : ¬(other.field d).type.Unbound :=
  ((h.touches hw).field d hd).2.1.type.bound hu

theorem blockOf_iff (h : Swept f pool other) {g : FileId} {b : BlockId} :
    other.BlockOf g b ↔ pool.BlockOf g b := by
  rw [BlockOf, BlockOf, h.sameTree.blocks, (h.sameTree.block b).1]

theorem fieldOf_iff (h : Swept f pool other) {g : FileId} {d : FieldId} :
    other.FieldOf g d ↔ pool.FieldOf g d := by
  rw [FieldOf, FieldOf, h.sameTree.fields, (h.sameTree.field d).1, h.blockOf_iff]

end Swept

/-! ### The loops -/

theorem sweepBlock_ends {b : BlockId} (hb : pool.BlockOf f b) :
    Ends (sweepBlock f b pool)
      (fun _ other => Swept f pool other ∧ ¬(other.block b).heading.Unbound)
      (fun other => other = pool) := by
  simp only [sweepBlock, bind, EStateM.bind, get_apply]
  cases h : (pool.block b).heading with
  | message name =>
    refine ⟨.refl, ?_⟩
    rw [h]
    rintro ⟨type, h'⟩
    cases h'
  | extend type target =>
    cases target with
    | some t =>
      refine ⟨.refl, ?_⟩
      rw [h]
      rintro ⟨type', h'⟩
      cases h'
    | none =>
      cases ht : pool.resolve? f (pool.block b).parent type with
      | none =>
        simp only [ht]
        exact rfl
      | some t =>
        simp only [ht]
        refine ⟨.single (.block hb h ht), ?_⟩
        rw [block_modifyBlock, if_pos ⟨rfl, hb.1⟩, Block.bind_of_unbound h]
        rintro ⟨type', h'⟩
        cases h'

theorem sweepField_ends {d : FieldId} (hd : pool.FieldOf f d) :
    Ends (sweepField f d pool)
      (fun _ other => Swept f pool other ∧ ¬(other.field d).type.Unbound)
      (fun other => other = pool) := by
  simp only [sweepField, bind, EStateM.bind, get_apply]
  cases h : (pool.field d).type with
  | scalar s =>
    refine ⟨.refl, ?_⟩
    rw [h]
    rintro ⟨name, h'⟩
    cases h'
  | named name target =>
    cases target with
    | some t =>
      refine ⟨.refl, ?_⟩
      rw [h]
      rintro ⟨name', h'⟩
      cases h'
    | none =>
      cases ht : pool.resolve? f (.block (pool.field d).block) name with
      | none =>
        simp only [ht]
        exact rfl
      | some t =>
        simp only [ht]
        refine ⟨.single (.field hd h ht), ?_⟩
        rw [field_modifyField, if_pos ⟨rfl, hd.1⟩, Field.bind_of_unbound h]
        rintro ⟨name', h'⟩
        cases h'

/-- No name of a file is unbound. -/
structure AllBound (pool : Pool) (f : FileId) : Prop where
  block : ∀ b, pool.BlockOf f b → ¬(pool.block b).heading.Unbound
  field : ∀ d, pool.FieldOf f d → ¬(pool.field d).type.Unbound

/-- A loop that binds one name after the other: what is bound stays bound. -/
theorem forM_ends {α : Type} {step : α → PoolM Unit} {P : Pool → α → Prop} {swept : Pool}
    (xs : List α)
    (hstep : ∀ x ∈ xs, ∀ other, Swept f swept other → Ends (step x other)
      (fun _ next => Swept f other next ∧ P next x) (· = other))
    (hkept : ∀ x ∈ xs, ∀ {other next}, Swept f swept other → Swept f other next →
      P other x → P next x) :
    Ends (xs.forM step swept) (fun _ other => Swept f swept other ∧ ∀ x ∈ xs, P other x)
      (Swept f swept) := by
  refine (Ends.forM (p := fun before other => Swept f swept other ∧
    ∀ x ∈ before, x ∈ xs ∧ P other x) xs ?_ [] swept ⟨.refl, List.forall_mem_nil _⟩).mono ?_
      fun _ h => h
  · rintro x hx before other ⟨hswept, hbound⟩
    refine (hstep x hx other hswept).mono ?_ fun _ he => he ▸ hswept
    rintro _ next ⟨hnext, hlast⟩
    refine ⟨hswept.trans hnext, List.forall_mem_append.mpr
      ⟨fun y hy => ?_, (List.forall_mem_singleton ..).mpr ⟨hx, hlast⟩⟩⟩
    obtain ⟨hmem, hb⟩ := hbound y hy
    exact ⟨hmem, hkept y hmem hswept hnext hb⟩
  · rintro _ other ⟨hswept, hbound⟩
    exact ⟨hswept, fun x hx => (hbound x hx).2⟩

theorem sweepBlocks_ends (hw : pool.WellFormed) (hf : pool.HasFile f) :
    Ends ((pool.blocksOf f).forM (sweepBlock f) pool)
      (fun _ other => Swept f pool other ∧ ∀ b, pool.BlockOf f b → ¬(other.block b).heading.Unbound)
      (Swept f pool) := by
  refine (forM_ends (P := fun p b => ¬(p.block b).heading.Unbound) _ (fun b hb other hother => ?_)
    fun b hb other next hother hnext => ?_).mono ?_ fun _ h => h
  · exact sweepBlock_ends (hother.blockOf_iff.mpr ((hw.mem_blocksOf_iff hf).mp hb))
  · have hbo := (hw.mem_blocksOf_iff hf).mp hb
    exact hnext.block_bound (hother.sameTree.wellFormed hw) (hother.blockOf_iff.mpr hbo).1
  · rintro _ other ⟨hswept, hbound⟩
    exact ⟨hswept, fun b hb => hbound b ((hw.mem_blocksOf_iff hf).mpr hb)⟩

theorem sweepFields_ends (hw : pool.WellFormed) (hf : pool.HasFile f) {swept : Pool}
    (hs : Swept f pool swept) :
    Ends ((pool.fieldsOf f).forM (sweepField f) swept)
      (fun _ other => Swept f swept other ∧ ∀ d, pool.FieldOf f d → ¬(other.field d).type.Unbound)
      (Swept f swept) := by
  refine (forM_ends (P := fun p d => ¬(p.field d).type.Unbound) _ (fun d hd other hother => ?_)
    fun d hd other next hother hnext => ?_).mono ?_ fun _ h => h
  · have hall : Swept f pool other := hs.trans hother
    exact sweepField_ends (hall.fieldOf_iff.mpr ((hw.mem_fieldsOf_iff hf).mp hd))
  · have hall : Swept f pool other := hs.trans hother
    have hdo := (hw.mem_fieldsOf_iff hf).mp hd
    exact hnext.field_bound (hall.sameTree.wellFormed hw) (hall.fieldOf_iff.mpr hdo).1
  · rintro _ other ⟨hswept, hbound⟩
    exact ⟨hswept, fun d hd => hbound d ((hw.mem_fieldsOf_iff hf).mpr hd)⟩

theorem sweep_eq (f : FileId) (pool : Pool) : sweep f pool =
    ((pool.blocksOf f).forM (sweepBlock f) >>= fun _ => (pool.fieldsOf f).forM (sweepField f)) pool := rfl

/-- A sweep binds names of the file only, and all of them if it ends without a fault. -/
theorem sweep_ends (hw : pool.WellFormed) (hf : pool.HasFile f) :
    Ends (sweep f pool) (fun _ other => Swept f pool other ∧ other.AllBound f) (Swept f pool) := by
  rw [sweep_eq]
  refine Ends.bind ((sweepBlocks_ends hw hf).mono ?_ fun _ h => h)
  rintro _ swept ⟨hswept, hblocks⟩
  refine (sweepFields_ends hw hf hswept).mono ?_ fun _ h => hswept.trans h
  rintro _ other ⟨hother, hfields⟩
  have hall : Swept f pool other := hswept.trans hother
  refine ⟨hall, fun b hb => ?_, fun d hd => hfields d (hall.fieldOf_iff.mp hd)⟩
  have hb := hall.blockOf_iff.mp hb
  refine hother.block_bound (hswept.sameTree.wellFormed hw) ?_ (hblocks b hb)
  exact (hswept.blockOf_iff.mpr hb).1

end Pool

end ProtoSchema
