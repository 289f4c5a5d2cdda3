import ProtoSchema.Proofs.Pool.Sweep

/-! # The checks

A file that passes `checkFile` has no field that its message forbids, and no extension that the
extended message does not leave room for.  Numbers of extensions are claimed block by block; the
claims of a block are in use by no other field, so that in the end each number of a message belongs
to one extension. -/

namespace ProtoSchema.Pool

variable {pool other : Pool} {f : FileId}

/-- The field `d` extends the message `m` with the number `n`. -/
def Extends (pool : Pool) (m : BlockId) (n : Nat) (d : FieldId) : Prop :=
  (∃ type, (pool.block (pool.field d).block).heading = .extend type (some (.message m))) ∧
    (pool.field d).number.value = n

/-- The number `n` is in one of the extension ranges of the message `m`. -/
def LeavesRoom (pool : Pool) (m : BlockId) (n : Nat) : Prop :=
  ∃ r ∈ (pool.block m).extensionRanges, r.contains n = true

/-- Nothing is wrong with the fields of a message. -/
def FieldsFit (pool : Pool) (b : BlockId) : Prop :=
  ∀ d ∈ (pool.block b).fields.values, fieldFault (pool.block b) (pool.field d) = none

theorem checkMessage_eq_ok_iff {b : BlockId} : pool.checkMessage b = .ok () ↔ pool.FieldsFit b := by
  unfold checkMessage FieldsFit
  simp only
  cases h : ((pool.block b).fields.values.map pool.field).findSome? (fieldFault (pool.block b)) with
  | none =>
    rw [List.findSome?_eq_none_iff] at h
    simp only [List.mem_map, forall_exists_index, and_imp, forall_apply_eq_imp_iff₂] at h
    exact iff_of_true rfl h
  | some fault =>
    obtain ⟨x, hx, hf⟩ := List.exists_of_findSome?_eq_some h
    obtain ⟨d, hd, rfl⟩ := List.mem_map.mp hx
    refine iff_of_false (by simp) fun hall => ?_
    rw [hall d hd] at hf
    cases hf

/-! ### Claims -/

/-- The field that has an extension number, in use or claimed. -/
def holder? (pool : Pool) (claims : Claims) (m : BlockId) (n : Nat) : Option FieldId :=
  (pool.extensions.find? (m, n)).or (claims.find? (m, n))

theorem claimNumber_eq_ok {m : BlockId} {claims claims' : Claims} {d : FieldId}
    (h : pool.claimNumber m claims d = .ok claims') :
    pool.LeavesRoom m (pool.field d).number.value ∧
      (pool.holder? claims m (pool.field d).number.value = some d ∧ claims' = claims ∨
        pool.holder? claims m (pool.field d).number.value = none ∧
          claims' = claims.insert (m, (pool.field d).number.value) d) := by
  simp only [claimNumber] at h
  split at h
  · next hr =>
    refine ⟨List.any_eq_true.mp hr, ?_⟩
    unfold holder?
    split at h
    · next first hf =>
      split at h
      · next he =>
        cases h
        exact .inl ⟨he ▸ hf, rfl⟩
      · cases h
    · next hf =>
      cases h
      exact .inr ⟨hf, rfl⟩
  · cases h

/-- What is so of the claims after the fields `before` were gone through. -/
structure Claimed (pool : Pool) (before : List FieldId) (claims : Claims) : Prop where
  sound : ∀ m n d, claims.find? (m, n) = some d → d ∈ before ∧ pool.Extends m n d
  complete : ∀ d ∈ before, ∀ m n, pool.Extends m n d →
    pool.LeavesRoom m n ∧ pool.holder? claims m n = some d

theorem Claimed.nil : Claimed pool [] Table.empty :=
  ⟨fun m n d h => (by cases h), fun d hd => (by cases hd)⟩

/-- A number that is held stays held. -/
theorem holder?_insert {claims : Claims} {m m' : BlockId} {n n' : Nat} {d d' : FieldId}
    (h : pool.holder? claims m n = some d) :
    pool.holder? (claims.insert (m', n') d') m n = some d := by
  unfold holder? at h ⊢
  rw [Table.find?_insert, ← Option.or_assoc, h]
  rfl

theorem Claimed.claimNumber {m : BlockId} {claims claims' : Claims} {before : List FieldId}
    {d : FieldId} (hc : Claimed pool before claims)
    (hd : ∃ type, (pool.block (pool.field d).block).heading = .extend type (some (.message m)))
    (h : pool.claimNumber m claims d = .ok claims') : Claimed pool (before ++ [d]) claims' := by
  obtain ⟨hroom, h⟩ := claimNumber_eq_ok h
  have hext : ∀ m' n', pool.Extends m' n' d → m' = m ∧ n' = (pool.field d).number.value := by
    rintro m' n' ⟨⟨type', ht'⟩, rfl⟩
    obtain ⟨type, ht⟩ := hd
    rw [ht] at ht'
    cases ht'
    exact ⟨rfl, rfl⟩
  rcases h with ⟨hheld, rfl⟩ | ⟨hfree, rfl⟩
  · refine ⟨fun m' n' d' hf => ?_, fun d' hd' m' n' he => ?_⟩
    · obtain ⟨h₁, h₂⟩ := hc.sound m' n' d' hf
      exact ⟨List.mem_append_left _ h₁, h₂⟩
    · rcases List.mem_append.mp hd' with hd' | hd'
      · exact hc.complete d' hd' m' n' he
      · rw [List.mem_singleton] at hd'
        subst hd'
        obtain ⟨rfl, rfl⟩ := hext m' n' he
        exact ⟨hroom, hheld⟩
  · refine ⟨fun m' n' d' hf => ?_, fun d' hd' m' n' he => ?_⟩
    · rw [Table.find?_insert, Option.or_eq_some_iff] at hf
      rcases hf with hf | ⟨-, hf⟩
      · obtain ⟨h₁, h₂⟩ := hc.sound m' n' d' hf
        exact ⟨List.mem_append_left _ h₁, h₂⟩
      · split at hf
        · next hk =>
          cases hf
          cases hk
          exact ⟨by simp, hd, rfl⟩
        · cases hf
    · rcases List.mem_append.mp hd' with hd' | hd'
      · obtain ⟨h₁, h₂⟩ := hc.complete d' hd' m' n' he
        exact ⟨h₁, holder?_insert h₂⟩
      · rw [List.mem_singleton] at hd'
        subst hd'
        obtain ⟨rfl, rfl⟩ := hext m' n' he
        refine ⟨hroom, ?_⟩
        unfold holder? at hfree ⊢
        rw [Table.find?_insert, ← Option.or_assoc, hfree, if_pos rfl]
        rfl

theorem Claimed.foldlM {m : BlockId} (ds : List FieldId) : ∀ {claims claims' : Claims}
    {before : List FieldId}, Claimed pool before claims →
    (∀ d ∈ ds, ∃ type, (pool.block (pool.field d).block).heading =
      .extend type (some (.message m))) →
    ds.foldlM (pool.claimNumber m) claims = .ok claims' → Claimed pool (before ++ ds) claims' := by
  induction ds with
  | nil =>
    intro claims claims' before hc _ h
    cases h
    rwa [List.append_nil]
  | cons d ds ih =>
    intro claims claims' before hc hd h
    rw [List.forall_mem_cons] at hd
    rw [List.foldlM_cons] at h
    cases h₁ : pool.claimNumber m claims d with
    | error fault =>
      rw [h₁] at h
      cases h
    | ok claims₁ =>
      rw [h₁] at h
      have := ih (hc.claimNumber hd.1 h₁) hd.2 h
      rwa [List.append_assoc, List.singleton_append] at this

/-- What the checks of a block say. -/
structure BlockFits (pool : Pool) (b : BlockId) : Prop where
  message : (pool.block b).isExtend = false → pool.FieldsFit b
  extend : ∀ type t, (pool.block b).heading = .extend type (some t) → ∃ m, t = .message m

theorem Claimed.checkBlock (hw : pool.WellFormed) {claims claims' : Claims}
    {before : List FieldId} {b : BlockId} (hc : Claimed pool before claims)
    (hu : ¬(pool.block b).heading.Unbound) (h : pool.checkBlock claims b = .ok claims') :
    Claimed pool (before ++ (pool.block b).fields.values) claims' ∧ pool.BlockFits b := by
  have hblock : ∀ d ∈ (pool.block b).fields.values, (pool.field d).block = b := fun d hd =>
    (hw.mem_fields_iff.mp hd).2
  simp only [Pool.checkBlock] at h
  split at h
  · next name hh =>
    cases hm : pool.checkMessage b with
    | error fault =>
      rw [hm] at h
      cases h
    | ok u =>
      rw [hm] at h
      cases h
      refine ⟨⟨fun m n d hf => ?_, fun d hd m n he => ?_⟩, fun _ => checkMessage_eq_ok_iff.mp hm, ?_⟩
      · obtain ⟨h₁, h₂⟩ := hc.sound m n d hf
        exact ⟨List.mem_append_left _ h₁, h₂⟩
      · rcases List.mem_append.mp hd with hd | hd
        · exact hc.complete d hd m n he
        · -- a field of a message extends nothing
          obtain ⟨⟨type, ht⟩, -⟩ := he
          rw [hblock d hd, hh] at ht
          cases ht
      · intro type t ht
        rw [hh] at ht
        cases ht
  · next type target hh =>
    have hx : (pool.block b).isExtend ≠ false := by simp [Block.isExtend, hh]
    unfold checkExtend at h
    split at h
    · next m =>
      split at h
      · cases h
      · refine ⟨hc.foldlM _ (fun d hd => ⟨type, ?_⟩) h, fun hf => absurd hf hx, ?_⟩
        · rw [hblock d hd, hh]
        · intro type' t ht
          rw [hh] at ht
          cases ht
          exact ⟨m, rfl⟩
    · cases h
    · exact absurd ⟨type, hh⟩ hu

theorem Claimed.checkBlocks (hw : pool.WellFormed) (bs : List BlockId) :
    ∀ {claims claims' : Claims} {before : List FieldId}, Claimed pool before claims →
    (∀ b ∈ bs, ¬(pool.block b).heading.Unbound) →
    bs.foldlM pool.checkBlock claims = .ok claims' →
    Claimed pool (before ++ bs.flatMap fun b => (pool.block b).fields.values) claims' ∧
      ∀ b ∈ bs, pool.BlockFits b := by
  induction bs with
  | nil =>
    intro claims claims' before hc _ h
    cases h
    exact ⟨by simpa using hc, by simp⟩
  | cons b bs ih =>
    intro claims claims' before hc hu h
    rw [List.forall_mem_cons] at hu
    rw [List.foldlM_cons] at h
    cases h₁ : pool.checkBlock claims b with
    | error fault =>
      rw [h₁] at h
      cases h
    | ok claims₁ =>
      rw [h₁] at h
      obtain ⟨hc₁, hb⟩ := hc.checkBlock hw hu.1 h₁
      obtain ⟨hc₂, hbs⟩ := ih hc₁ hu.2 h
      rw [List.append_assoc] at hc₂
      exact ⟨hc₂, List.forall_mem_cons.mpr ⟨hb, hbs⟩⟩

/-- The message that an extend block is bound to has extension ranges. -/
def Extensible (pool : Pool) (b : BlockId) : Prop :=
  ∀ type m, (pool.block b).heading = .extend type (some (.message m)) →
    (pool.block m).extensionRanges ≠ []

theorem extensible_of_checkBlock {claims claims' : Claims} {b : BlockId}
    (h : pool.checkBlock claims b = .ok claims') : pool.Extensible b := by
  intro type m hh hnone
  simp only [checkBlock, hh, checkExtend, hnone, if_pos] at h
  cases h

theorem extensible_of_checkBlocks (bs : List BlockId) : ∀ {claims claims' : Claims},
    bs.foldlM pool.checkBlock claims = .ok claims' → ∀ b ∈ bs, pool.Extensible b := by
  induction bs with
  | nil => exact fun _ b hb => absurd hb List.not_mem_nil
  | cons b bs ih =>
    intro claims claims' h
    rw [List.foldlM_cons] at h
    cases h₁ : pool.checkBlock claims b with
    | error fault =>
      rw [h₁] at h
      cases h
    | ok claims₁ =>
      rw [h₁] at h
      exact List.forall_mem_cons.mpr ⟨extensible_of_checkBlock h₁, ih h⟩

/-! ### Complete files -/

/-- What is so of a pool after a file passed its checks. -/
structure Checked (f : FileId) (pool other : Pool) : Prop where
  swept : ∃ swept, Swept f pool swept ∧ other = { swept with extensions := other.extensions }
  bound : other.AllBound f
  fits : ∀ b, other.BlockOf f b → other.BlockFits b
  extensible : ∀ b, other.BlockOf f b → other.Extensible b
  room : ∀ d m n, other.FieldOf f d → other.Extends m n d → other.LeavesRoom m n
  /-- The numbers in use are those that were in use and those of the extensions of the file. -/
  old : ∀ m n d, pool.extensions.find? (m, n) = some d → other.extensions.find? (m, n) = some d
  new : ∀ d m n, other.FieldOf f d → other.Extends m n d → other.extensions.find? (m, n) = some d
  only : ∀ m n d, other.extensions.find? (m, n) = some d →
    pool.extensions.find? (m, n) = some d ∨ other.FieldOf f d ∧ other.Extends m n d

/-- A file passes its checks, or it leaves nothing but names that are bound. -/
theorem checkFile_ends (hw : pool.WellFormed) (hf : pool.HasFile f) :
    Ends (checkFile f pool) (fun _ other => Checked f pool other) (Swept f pool) := by
  refine Ends.bind ((sweep_ends hw hf).mono ?_ fun _ h => h)
  rintro _ swept ⟨hswept, hbound⟩
  have hw' := hswept.sameTree.wellFormed hw
  have hf' : swept.HasFile f := hswept.sameTree.files ▸ hf
  simp only [bind, EStateM.bind, get_apply]
  cases h : (swept.blocksOf f).foldlM swept.checkBlock Table.empty with
  | error fault => exact hswept
  | ok claims =>
    have hmem := fun b => hw'.mem_blocksOf_iff (b := b) hf'
    obtain ⟨hc, hfits⟩ := Claimed.nil.checkBlocks hw' (swept.blocksOf f)
      (fun b hb => hbound.block b ((hmem b).mp hb)) h
    have hseen : ∀ d, d ∈ [] ++ (swept.blocksOf f).flatMap (fun b => (swept.block b).fields.values) ↔
        swept.FieldOf f d := by
      intro d
      simp only [List.nil_append, List.mem_flatMap, hmem, hw'.mem_fields_iff]
      constructor
      · rintro ⟨b, hb, hd, rfl⟩
        exact ⟨hd, hb⟩
      · rintro ⟨hd, hb⟩
        exact ⟨_, hb, hd, rfl⟩
    have hfind : ∀ k, (swept.extensions.insertAll claims.entries).find? k =
        (pool.extensions.find? k).or (claims.find? k) := by
      intro k
      rw [Table.find?_insertAll, hswept.extensions_eq]
      rfl
    refine ⟨⟨swept, hswept, rfl⟩, ⟨hbound.block, hbound.field⟩, ?_, ?_, ?_, ?_, ?_, ?_⟩
    · exact fun b hb => ⟨(hfits b ((hmem b).mpr hb)).message, (hfits b ((hmem b).mpr hb)).extend⟩
    · exact fun b hb => extensible_of_checkBlocks _ h b ((hmem b).mpr hb)
    · exact fun d m n hd he => (hc.complete d ((hseen d).mpr hd) m n he).1
    · intro m n d hold
      rw [hfind, hold]
      rfl
    · intro d m n hd he
      rw [hfind, ← hswept.extensions_eq]
      exact (hc.complete d ((hseen d).mpr hd) m n he).2
    · intro m n d hd
      rw [hfind, Option.or_eq_some_iff] at hd
      rcases hd with hd | ⟨-, hd⟩
      · exact .inl hd
      · obtain ⟨h₁, h₂⟩ := hc.sound m n d hd
        exact .inr ⟨(hseen d).mp h₁, h₂⟩

theorem Checked.sameTree (h : Checked f pool other) : SameTree pool other := by
  obtain ⟨swept, hs, he⟩ := h.swept
  rw [he]
  exact hs.sameTree.trans (.setExtensions _)

theorem Checked.touches (h : Checked f pool other) (hw : pool.WellFormed) :
    Touches f pool other := by
  obtain ⟨swept, hs, he⟩ := h.swept
  rw [he]
  exact (hs.touches hw).trans hw (.setExtensions _)

theorem Checked.file_eq (h : Checked f pool other) : other.file = pool.file := by
  obtain ⟨swept, hs, he⟩ := h.swept
  rw [he]
  exact hs.file_eq

/-! ### Files that are left alone -/

theorem Kept.extends_iff (h : Kept f pool other) {d : FieldId} (hd : pool.FieldOf f d)
    {m : BlockId} {n : Nat} : other.Extends m n d ↔ pool.Extends m n d := by
  rw [Extends, Extends, h.field d hd, h.block _ hd.2]

theorem Kept.blockFits (h : Kept f pool other) (hw : pool.WellFormed) {b : BlockId}
    (hb : pool.BlockOf f b) (hfits : pool.BlockFits b) : other.BlockFits b := by
  refine ⟨fun hx d hd => ?_, ?_⟩
  · rw [h.block b hb] at hx hd ⊢
    obtain ⟨hd', he⟩ := hw.mem_fields_iff.mp hd
    rw [h.field d ⟨hd', he ▸ hb⟩]
    exact hfits.message hx d hd
  · rw [h.block b hb]
    exact hfits.extend

theorem Kept.allBound (h : Kept f pool other) (hbound : pool.AllBound f) : other.AllBound f := by
  refine ⟨fun b hb => ?_, fun d hd => ?_⟩
  · have hb := (h.blocks b).mp hb
    rw [h.block b hb]
    exact hbound.block b hb
  · have hd := (h.fields d).mp hd
    rw [h.field d hd]
    exact hbound.field d hd

/-- Room for an extension is not taken back. -/
theorem LeavesRoom.of_touches {g : FileId} (ht : Touches g pool other) {m : BlockId} {n : Nat}
    (h : pool.LeavesRoom m n) : other.LeavesRoom m n := by
  obtain ⟨r, hr, hn⟩ := h
  have hm : pool.HasBlock m := by
    by_contra hm
    rw [block_of_not_hasBlock hm] at hr
    cases hr
  exact ⟨r, (ht.block m hm).2.1.ranges hr, hn⟩

end ProtoSchema.Pool
