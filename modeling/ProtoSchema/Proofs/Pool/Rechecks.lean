import ProtoSchema.Proofs.Pool.Checking

/-! # Checks that pass again

A block whose fields fit and whose numbers are in use by its own fields passes its checks without a new
claim (`Agreed.checkBlock`).  A file is `Settled` if all its blocks are such and its names are bound: then
the sweep and the checks find nothing to do and no fault, and leave the pool as it is (`Settled.sweep`,
`Settled.checkFile`). -/

namespace ProtoSchema.Pool

variable {pool : Pool} {f : FileId} {b m : BlockId} {d : FieldId}

theorem forM_of_ok {α : Type} {k : α → PoolM Unit} (xs : List α)
    (h : ∀ x ∈ xs, k x pool = .ok () pool) : xs.forM k pool = .ok () pool := by
  induction xs with
  | nil => rfl
  | cons x xs ih =>
    rw [List.forall_mem_cons] at h
    show EStateM.bind (k x) (fun _ => xs.forM k) pool = _
    rw [EStateM.bind, h.1]
    exact ih h.2

theorem foldlM_of_keeps {α β : Type} {k : β → α → Except Fault β} {b : β} (xs : List α)
    (h : ∀ x ∈ xs, k b x = .ok b) : xs.foldlM k b = .ok b := by
  induction xs with
  | nil => rfl
  | cons x xs ih =>
    rw [List.forall_mem_cons] at h
    rw [List.foldlM_cons, h.1]
    exact ih h.2

theorem sweepBlock_of_bound (h : ¬(pool.block b).heading.Unbound) :
    sweepBlock f b pool = .ok () pool := by
  simp only [sweepBlock, bind, EStateM.bind, get_apply]
  cases hh : (pool.block b).heading with
  | message name => rfl
  | extend type target =>
    cases target with
    | none => exact absurd ⟨type, hh⟩ h
    | some t => rfl

theorem sweepField_of_bound (h : ¬(pool.field d).type.Unbound) :
    sweepField f d pool = .ok () pool := by
  simp only [sweepField, bind, EStateM.bind, get_apply]
  cases hh : (pool.field d).type with
  | scalar s => rfl
  | named name target =>
    cases target with
    | none => exact absurd ⟨name, hh⟩ h
    | some t => rfl

/-! ### Blocks -/

/-- The field `d` may extend the message `m`, and its number is in use by itself. -/
def Owns (pool : Pool) (m : BlockId) (d : FieldId) : Prop :=
  pool.LeavesRoom m (pool.field d).number.value ∧
    pool.extensions.find? (m, (pool.field d).number.value) = some d

theorem Owns.claimNumber (h : pool.Owns m d) (claims : Claims) :
    pool.claimNumber m claims d = .ok claims := by
  have hroom : (pool.block m).extensionRanges.any (·.contains (pool.field d).number.value) = true :=
    List.any_eq_true.mpr h.1
  simp only [Pool.claimNumber, hroom, h.2, if_true, Option.some_or]

/-- The fields of a message fit, and those of an extend block have their numbers. -/
structure Agreed (pool : Pool) (b : BlockId) : Prop where
  message : (pool.block b).isExtend = false → pool.FieldsFit b
  extend : ∀ type t, (pool.block b).heading = .extend type (some t) → ∃ m, t = .message m ∧
    (pool.block m).extensionRanges ≠ [] ∧ ∀ d ∈ (pool.block b).fields.values, pool.Owns m d

theorem Agreed.checkBlock (h : pool.Agreed b) (claims : Claims) :
    pool.checkBlock claims b = .ok claims := by
  simp only [Pool.checkBlock]
  cases hh : (pool.block b).heading with
  | message name =>
    have hx : (pool.block b).isExtend = false := by simp [Block.isExtend, hh]
    simp only [checkMessage_eq_ok_iff.mpr (h.message hx)]
    rfl
  | extend type target =>
    cases target with
    | none => rfl
    | some t =>
      obtain ⟨m, rfl, hranges, hown⟩ := h.extend type t hh
      simp only [checkExtend, if_neg hranges]
      exact foldlM_of_keeps _ fun d hd => (hown d hd).claimNumber claims

/-! ### Files -/

/-- The file `f` has nothing to bind, and its blocks pass their checks without a new claim. -/
structure Settled (pool : Pool) (f : FileId) : Prop where
  block : ∀ b ∈ pool.blocksOf f, ¬(pool.block b).heading.Unbound
  field : ∀ d ∈ pool.fieldsOf f, ¬(pool.field d).type.Unbound
  agreed : ∀ b ∈ pool.blocksOf f, pool.Agreed b

theorem Settled.sweep (h : pool.Settled f) : Pool.sweep f pool = .ok () pool := by
  show EStateM.bind _ _ pool = _
  rw [EStateM.bind, show (pool.blocksOf f).forM (sweepBlock f) pool = .ok () pool from
    forM_of_ok _ fun b hb => sweepBlock_of_bound (h.block b hb)]
  exact forM_of_ok _ fun d hd => sweepField_of_bound (h.field d hd)

theorem Settled.checkFile (h : pool.Settled f) : Pool.checkFile f pool = .ok () pool := by
  have hblocks : (pool.blocksOf f).foldlM pool.checkBlock Table.empty = .ok Table.empty :=
    foldlM_of_keeps _ fun b hb => (h.agreed b hb).checkBlock _
  simp only [Pool.checkFile, bind, EStateM.bind, get_apply, h.sweep, hblocks]
  rfl

/-- The file `f` has nothing to bind and no fault, and its extensions hold their numbers. -/
structure Passes (pool : Pool) (f : FileId) : Prop where
  bound : pool.AllBound f
  fits : ∀ b, pool.BlockOf f b → pool.BlockFits b
  extensible : ∀ b, pool.BlockOf f b → pool.Extensible b
  room : ∀ d m n, pool.FieldOf f d → pool.Extends m n d → pool.LeavesRoom m n
  inUse : ∀ d m n, pool.FieldOf f d → pool.Extends m n d →
    pool.extensions.find? (m, n) = some d

namespace Passes

variable (h : pool.Passes f) (hw : pool.WellFormed)
include h hw

theorem agreed (hb : pool.BlockOf f b) : pool.Agreed b where
  message := (h.fits b hb).message
  extend type t hh := by
    obtain ⟨m, rfl⟩ := (h.fits b hb).extend type t hh
    refine ⟨m, rfl, h.extensible b hb type m hh, fun d hd => ?_⟩
    obtain ⟨hfield, rfl⟩ := hw.mem_fields_iff.mp hd
    have hext : pool.Extends m (pool.field d).number.value d := ⟨⟨type, hh⟩, rfl⟩
    exact ⟨h.room d m _ ⟨hfield, hb⟩ hext, h.inUse d m _ ⟨hfield, hb⟩ hext⟩

theorem settled (hf : pool.HasFile f) : pool.Settled f where
  block b hb := h.bound.block b ((hw.mem_blocksOf_iff hf).mp hb)
  field d hd := h.bound.field d ((hw.mem_fieldsOf_iff hf).mp hd)
  agreed _ hb := h.agreed hw ((hw.mem_blocksOf_iff hf).mp hb)

/-- The checks pass again and leave the pool as it is. -/
theorem checkFile (hf : pool.HasFile f) : Pool.checkFile f pool = .ok () pool :=
  (h.settled hw hf).checkFile

end Passes

end ProtoSchema.Pool
