import ProtoSchema.Proofs.Compiler.Runs
import ProtoSchema.Proofs.Pool.Rechecks

/-! # Files that stay as they are

Once a file has passed its sweep and its checks, sweeping or checking it again, any number of times,
succeeds and leaves the pool as it is, with all that is bound and all extension numbers in use
(`passes_again`).  That is so in every pool.  Binding a name changes nothing of what the walks of a sweep
go through, and what is bound stays bound (`Binding`).  A number that a field holds stays its own while
others are claimed, so the second time every field finds its number in its own hands. -/

namespace ProtoSchema.Pool

open Compiler (stateOf eq_ok_of_errorOf?)

variable {pool other : Pool} {f : FileId} {b : BlockId} {d : FieldId} {m : BlockId}
  {claims claims' : Claims}

/-! ### Walks -/

theorem SameTree.size_blocks (h : SameTree pool other) : other.blocks.size = pool.blocks.size := by
  have hless : ∀ n, n < other.blocks.size ↔ n < pool.blocks.size := fun n =>
    iff_of_eq (congrFun h.blocks ⟨n⟩)
  exact Nat.le_antisymm (Nat.le_of_not_lt fun hn => Nat.lt_irrefl _ ((hless _).mp hn))
    (Nat.le_of_not_lt fun hn => Nat.lt_irrefl _ ((hless _).mpr hn))

theorem SameTree.foldMessageUpTo_eq {β : Type} (h : SameTree pool other) (k : BlockId → List β → β)
    (depth : Nat) : other.foldMessageUpTo k depth = pool.foldMessageUpTo k depth := by
  induction depth with
  | zero => rfl
  | succ depth ih =>
    funext id
    have hmembers : (other.block id).members = (pool.block id).members :=
      congrFun h.members (.block id)
    simp only [foldMessageUpTo, hmembers, ih]

/-- Pools with the same tree list the same blocks of a file. -/
theorem SameTree.blocksOf_eq (h : SameTree pool other) (f : FileId) :
    other.blocksOf f = pool.blocksOf f := by
  have hnested : other.withNested = pool.withNested := by
    funext id
    simp only [withNested, foldMessage, h.size_blocks, h.foldMessageUpTo_eq]
  simp only [blocksOf, messagesIn, h.members, hnested]

theorem SameTree.fieldsOf_eq (h : SameTree pool other) (f : FileId) :
    other.fieldsOf f = pool.fieldsOf f := by
  have hfields : ∀ b, (other.block b).fields = (pool.block b).fields := fun b => (h.block b).2.2.1
  simp only [fieldsOf, h.blocksOf_eq, hfields]

/-! ### The sweep -/

/-- A later pool of a sweep: it has the same tree, and what was bound is bound. -/
structure Binding (pool other : Pool) : Prop where
  tree : SameTree pool other
  block : ∀ b, ¬(pool.block b).heading.Unbound → ¬(other.block b).heading.Unbound
  field : ∀ d, ¬(pool.field d).type.Unbound → ¬(other.field d).type.Unbound

namespace Binding

protected theorem refl (pool : Pool) : Binding pool pool := ⟨.refl pool, fun _ h => h, fun _ h => h⟩

protected theorem trans {third : Pool} (h : Binding pool other) (h' : Binding other third) :
    Binding pool third :=
  ⟨h.tree.trans h'.tree, fun b hb => h'.block b (h.block b hb), fun d hd => h'.field d (h.field d hd)⟩

theorem modifyBlock (b : BlockId) (t : TypeId) : Binding pool (pool.modifyBlock b (·.bind t)) where
  tree := .bindBlock b t
  block b' hb' := by
    rw [block_modifyBlock]
    split
    · exact (Block.bind_refines _ t).heading.bound hb'
    · exact hb'
  field _ h := h

theorem modifyField (d : FieldId) (t : TypeId) : Binding pool (pool.modifyField d (·.bind t)) where
  tree := .bindField d t
  block _ h := h
  field d' hd' := by
    rw [field_modifyField]
    split
    · exact (Field.bind_refines _ t).type.bound hd'
    · exact hd'

end Binding

theorem hasBlock_of_unbound (h : (pool.block b).heading.Unbound) : pool.HasBlock b := by
  by_contra hb
  rw [block_of_not_hasBlock hb] at h
  obtain ⟨type, h⟩ := h
  cases h

theorem hasField_of_unbound (h : (pool.field d).type.Unbound) : pool.HasField d := by
  by_contra hd
  rw [field_of_not_hasField hd] at h
  obtain ⟨name, h⟩ := h
  cases h

theorem binding_sweepBlock (f : FileId) (b : BlockId) (pool : Pool) :
    Ends (sweepBlock f b pool)
      (fun _ other => Binding pool other ∧ ¬(other.block b).heading.Unbound) fun _ => True := by
  by_cases hu : (pool.block b).heading.Unbound
  · have hb := hasBlock_of_unbound hu
    obtain ⟨type, hh⟩ := hu
    simp only [sweepBlock, bind, EStateM.bind, get_apply, hh]
    cases pool.resolve? f (pool.block b).parent type with
    | none => trivial
    | some t =>
      refine ⟨.modifyBlock b t, ?_⟩
      rw [block_modifyBlock, if_pos ⟨rfl, hb⟩, Block.bind_of_unbound hh]
      rintro ⟨type', h'⟩
      cases h'
  · rw [sweepBlock_of_bound hu]
    exact ⟨.refl pool, hu⟩

theorem binding_sweepField (f : FileId) (d : FieldId) (pool : Pool) :
    Ends (sweepField f d pool)
      (fun _ other => Binding pool other ∧ ¬(other.field d).type.Unbound) fun _ => True := by
  by_cases hu : (pool.field d).type.Unbound
  · have hd := hasField_of_unbound hu
    obtain ⟨name, hh⟩ := hu
    simp only [sweepField, bind, EStateM.bind, get_apply, hh]
    cases pool.resolve? f (.block (pool.field d).block) name with
    | none => trivial
    | some t =>
      refine ⟨.modifyField d t, ?_⟩
      rw [field_modifyField, if_pos ⟨rfl, hd⟩, Field.bind_of_unbound hh]
      rintro ⟨name', h'⟩
      cases h'
  · rw [sweepField_of_bound hu]
    exact ⟨.refl pool, hu⟩

/-- A loop that binds one name after the other: in the end all are bound. -/
theorem binding_forM {α : Type} {step : α → PoolM Unit} {Bound : Pool → α → Prop}
    (hstep : ∀ x pool, Ends (step x pool) (fun _ other => Binding pool other ∧ Bound other x)
      fun _ => True)
    (hkept : ∀ {pool other x}, Binding pool other → Bound pool x → Bound other x)
    (xs : List α) (pool : Pool) :
    Ends (xs.forM step pool) (fun _ other => Binding pool other ∧ ∀ x ∈ xs, Bound other x)
      fun _ => True := by
  refine Ends.forM (p := fun before other => Binding pool other ∧ ∀ x ∈ before, Bound other x) xs ?_
    [] pool ⟨.refl pool, List.forall_mem_nil _⟩
  rintro x - before other ⟨hother, hbound⟩
  refine (hstep x other).mono ?_ fun _ h => h
  rintro _ next ⟨hnext, hlast⟩
  exact ⟨hother.trans hnext, List.forall_mem_append.mpr
    ⟨fun y hy => hkept hnext (hbound y hy), (List.forall_mem_singleton ..).mpr hlast⟩⟩

/-- A sweep that ends without a fault leaves no name that it goes through unbound. -/
theorem binding_sweep (f : FileId) (pool : Pool) :
    Ends (sweep f pool)
      (fun _ other => (∀ b ∈ other.blocksOf f, ¬(other.block b).heading.Unbound) ∧
        ∀ d ∈ other.fieldsOf f, ¬(other.field d).type.Unbound) fun _ => True := by
  rw [sweep_eq]
  refine Ends.bind ((binding_forM (binding_sweepBlock f) (fun h => h.block _) _ pool).mono ?_
    fun _ h => h)
  rintro _ swept ⟨hswept, hblocks⟩
  refine (binding_forM (binding_sweepField f) (fun h => h.field _) _ swept).mono ?_ fun _ h => h
  rintro _ other ⟨hother, hfields⟩
  have hall := hswept.trans hother
  rw [hall.tree.blocksOf_eq, hall.tree.fieldsOf_eq]
  exact ⟨fun b hb => hother.block b (hblocks b hb), hfields⟩

/-! ### Claims -/

/-- What is held with some claims is held with later ones. -/
def Holding (pool : Pool) (claims claims' : Claims) : Prop :=
  ∀ m n d, pool.holder? claims m n = some d → pool.holder? claims' m n = some d

theorem Holding.refl (pool : Pool) (claims : Claims) : Holding pool claims claims := fun _ _ _ h => h

theorem Holding.trans {claims'' : Claims} (h : Holding pool claims claims')
    (h' : Holding pool claims' claims'') : Holding pool claims claims'' :=
  fun m n d hd => h' m n d (h m n d hd)

/-- A loop that claims numbers: each of its steps was made, and what it held is held in the end. -/
theorem holding_foldlM {α : Type} {step : Claims → α → Except Fault Claims}
    (hstep : ∀ {claims claims' x}, step claims x = .ok claims' → Holding pool claims claims')
    (xs : List α) : ∀ {claims}, xs.foldlM step claims = .ok claims' → Holding pool claims claims' ∧
      ∀ x ∈ xs, ∃ before after, step before x = .ok after ∧ Holding pool after claims' := by
  induction xs with
  | nil =>
    intro claims h
    cases h
    exact ⟨.refl _ _, List.forall_mem_nil _⟩
  | cons x xs ih =>
    intro claims h
    rw [List.foldlM_cons] at h
    cases hx : step claims x with
    | error fault =>
      rw [hx] at h
      cases h
    | ok after =>
      rw [hx] at h
      obtain ⟨hrest, hxs⟩ := ih h
      exact ⟨(hstep hx).trans hrest, List.forall_mem_cons.mpr ⟨⟨claims, after, hx, hrest⟩, hxs⟩⟩

/-- The number of a field that was gone through is in its hands. -/
theorem holder?_of_claimNumber (h : pool.claimNumber m claims d = .ok claims') :
    pool.LeavesRoom m (pool.field d).number.value ∧
      pool.holder? claims' m (pool.field d).number.value = some d ∧ Holding pool claims claims' := by
  obtain ⟨hroom, ⟨hheld, rfl⟩ | ⟨hfree, rfl⟩⟩ := claimNumber_eq_ok h
  · exact ⟨hroom, hheld, .refl _ _⟩
  · refine ⟨hroom, ?_, fun _ _ _ => holder?_insert⟩
    unfold holder? at hfree ⊢
    rw [Table.find?_insert, ← Option.or_assoc, hfree, if_pos rfl]
    rfl

theorem holding_checkBlock (h : pool.checkBlock claims b = .ok claims') :
    Holding pool claims claims' := by
  simp only [checkBlock] at h
  split at h
  · cases hm : pool.checkMessage b with
    | error fault =>
      rw [hm] at h
      cases h
    | ok u =>
      rw [hm] at h
      cases h
      exact .refl _ _
  · unfold checkExtend at h
    split at h
    · split at h
      · cases h
      · exact (holding_foldlM (fun hd => (holder?_of_claimNumber hd).2.2) _ h).1
    · cases h
    · cases h
      exact .refl _ _

/-- A block that has passed its checks is agreed once all that is held is in use. -/
theorem agreed_of_checkBlock {extensions : Table (BlockId × Nat) FieldId}
    (h : pool.checkBlock claims b = .ok claims')
    (huse : ∀ m n d, pool.holder? claims' m n = some d → extensions.find? (m, n) = some d) :
    Agreed { pool with extensions } b := by
  simp only [checkBlock] at h
  split at h
  · next name hh =>
    refine ⟨fun _ => ?_, fun type t ht => absurd (hh.symm.trans ht) (by simp)⟩
    cases hm : pool.checkMessage b with
    | error fault =>
      rw [hm] at h
      cases h
    | ok u => exact checkMessage_eq_ok_iff.mp hm
  · next type target hh =>
    have hx : (pool.block b).isExtend = true := by simp [Block.isExtend, hh]
    refine ⟨fun hmessage => absurd (hx.symm.trans hmessage) (by simp), fun type' t ht => ?_⟩
    obtain ⟨rfl, rfl⟩ : type = type' ∧ target = some t := by simpa using hh.symm.trans ht
    unfold checkExtend at h
    split at h
    · next m heq =>
      cases heq
      split at h
      · cases h
      · next hranges =>
        obtain ⟨-, hfields⟩ := holding_foldlM (fun hd => (holder?_of_claimNumber hd).2.2) _ h
        refine ⟨m, rfl, hranges, fun d hd => ?_⟩
        obtain ⟨before, after, hclaimed, hafter⟩ := hfields d hd
        obtain ⟨hroom, hheld, -⟩ := holder?_of_claimNumber hclaimed
        exact ⟨hroom, huse m _ d (hafter m _ d hheld)⟩
    · cases h
    · next heq => cases heq

/-- A file that has passed its sweep and its checks is settled. -/
theorem settled_of_checkFile (h : checkFile f pool = .ok () other) : other.Settled f := by
  have hsweep := binding_sweep f pool
  simp only [checkFile, bind, EStateM.bind, get_apply] at h
  cases hs : sweep f pool with
  | error fault swept =>
    rw [hs] at h
    cases h
  | ok u swept =>
    rw [hs] at h hsweep
    dsimp only at h
    cases hblocks : (swept.blocksOf f).foldlM swept.checkBlock Table.empty with
    | error fault =>
      rw [hblocks] at h
      cases h
    | ok claims =>
      rw [hblocks] at h
      cases h
      obtain ⟨-, hchecked⟩ := holding_foldlM holding_checkBlock _ hblocks
      have htree : SameTree swept
          { swept with extensions := swept.extensions.insertAll claims.entries } := .setExtensions _
      refine ⟨?_, ?_, fun b hb => ?_⟩
      · rw [htree.blocksOf_eq]
        exact hsweep.1
      · rw [htree.fieldsOf_eq]
        exact hsweep.2
      · rw [htree.blocksOf_eq] at hb
        obtain ⟨before, after, hblock, hafter⟩ := hchecked b hb
        refine agreed_of_checkBlock hblock fun m n d hd => ?_
        rw [Table.find?_insertAll]
        exact hafter m n d hd

/-! ### Again and again -/

/-- What can be done with a complete file. -/
inductive Pass where
  | sweep
  | check
deriving DecidableEq, Repr

def Pass.run (f : FileId) : Pass → PoolM Unit
  | sweep => Pool.sweep f
  | check => checkFile f

/-- A file that has passed its sweep and its checks passes any number of further sweeps and checks, and
none of them changes anything in the pool. -/
theorem passes_again {f : FileId} {pool other : Pool} (passed : checkFile f pool = .ok () other)
    (passes : List Pass) : passes.forM (Pass.run f) other = .ok () other := by
  have hsettled := settled_of_checkFile passed
  refine forM_of_ok passes fun pass _ => ?_
  cases pass with
  | sweep => exact hsettled.sweep
  | check => exact hsettled.checkFile

/-- A file whose names denote what is declared behind them, as its text leaves it. -/
def forward : Pool :=
  (stateOf (Session.parseOnly (.memory []) "a.proto" ("message A { optional B b = 1; } " ++
    "extend D { optional C c = 5; } message B { optional C c = 1; } enum C { X = 0; } " ++
    "message D { extensions 5; }") {})).pool

/-- The file behind its first checks. -/
def forwardChecked : Pool := stateOf (checkFile ⟨0⟩ forward)

/-- The first checks bind names, claim a number and find no fault. -/
theorem forward_bindings :
    errorOf? (checkFile ⟨0⟩ forward) = none ∧
      (forward.field ⟨0⟩).type = .named ⟨false, ["B"]⟩ none ∧
      (forwardChecked.field ⟨0⟩).type = .named ⟨false, ["B"]⟩ (some (.message ⟨2⟩)) ∧
      forwardChecked.extensions.find? (⟨3⟩, 5) = some ⟨1⟩ := by
  decide +kernel

theorem checkFile_forward : checkFile ⟨0⟩ forward = .ok () forwardChecked :=
  eq_ok_of_errorOf? forward_bindings.1

/-- Here names are bound and a number is claimed the first time, and then nothing is left to do. -/
theorem passes_again_forward :
    checkFile ⟨0⟩ forward = .ok () forwardChecked ∧
      ((forward.field ⟨0⟩).type = .named ⟨false, ["B"]⟩ none ∧
        (forwardChecked.field ⟨0⟩).type = .named ⟨false, ["B"]⟩ (some (.message ⟨2⟩)) ∧
        forwardChecked.extensions.find? (⟨3⟩, 5) = some ⟨1⟩) ∧
      [Pass.sweep, .check, .check, .sweep].forM (Pass.run ⟨0⟩) forwardChecked =
        .ok () forwardChecked :=
  ⟨checkFile_forward, forward_bindings.2, passes_again checkFile_forward _⟩

end ProtoSchema.Pool
