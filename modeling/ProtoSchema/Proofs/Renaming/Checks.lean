import ProtoSchema.Proofs.Renaming.Walks
import ProtoSchema.Proofs.Session.Grounding

/-! # Sweep and checks in pools that match

The sweep over a file and its checks have the same outcome in pools that are alike: the same fault, or
none and then the file matches again (`Alike.checkFile`).  For the numbers of extensions both pools
must agree on those that are in use by other files. -/

namespace ProtoSchema.Pool

variable {pool other p p' : Pool} {ρ : Renaming} {f : FileId}

/-- Two runs over a pool that end in the same fault, or without one in pools that are related. -/
inductive SameEnd (R : Pool → Pool → Prop) :
    EStateM.Result Fault Pool Unit → EStateM.Result Fault Pool Unit → Prop
  | ok {q q'} (related : R q q') : SameEnd R (.ok () q) (.ok () q')
  | error {fault q q'} : SameEnd R (.error fault q) (.error fault q')

/-- Two results that are the same fault, or values that are related. -/
inductive SameResult {α β : Type} (R : α → β → Prop) : Except Fault α → Except Fault β → Prop
  | ok {a b} (related : R a b) : SameResult R (.ok a) (.ok b)
  | error {fault} : SameResult R (.error fault) (.error fault)

section runs

variable {α β γ δ : Type} {R S : Pool → Pool → Prop}

theorem SameEnd.bind {m m' : PoolM Unit} {k k' : Unit → PoolM Unit} (h : SameEnd R (m p) (m' p'))
    (hk : ∀ q q', R q q' → SameEnd S (k () q) (k' () q')) :
    SameEnd S ((m >>= k) p) ((m' >>= k') p') := by
  show SameEnd S (EStateM.bind m k p) (EStateM.bind m' k' p')
  unfold EStateM.bind
  revert h
  cases m p <;> cases m' p' <;> intro h <;> cases h
  · next related => exact hk _ _ related
  · exact .error

theorem SameEnd.forM {k : α → PoolM Unit} {k' : β → PoolM Unit} {r : α → β} (xs : List α)
    (h : ∀ x ∈ xs, ∀ p p', R p p' → SameEnd R (k x p) (k' (r x) p')) :
    ∀ p p', R p p' → SameEnd R (xs.forM k p) ((xs.map r).forM k' p') := by
  induction xs with
  | nil => exact fun p p' hr => .ok hr
  | cons x xs ih =>
    intro p p' hr
    rw [List.forall_mem_cons] at h
    exact SameEnd.bind (h.1 p p' hr) (ih h.2)

theorem SameResult.foldlM {k : γ → α → Except Fault γ} {k' : δ → β → Except Fault δ} {r : α → β}
    {T : γ → δ → Prop} (xs : List α)
    (h : ∀ x ∈ xs, ∀ a b, T a b → SameResult T (k a x) (k' b (r x))) :
    ∀ a b, T a b → SameResult T (xs.foldlM k a) ((xs.map r).foldlM k' b) := by
  induction xs with
  | nil => exact fun a b ht => .ok ht
  | cons x xs ih =>
    intro a b ht
    rw [List.forall_mem_cons] at h
    rw [List.map_cons, List.foldlM_cons, List.foldlM_cons]
    have hx := h.1 a b ht
    revert hx
    cases k a x <;> cases k' b (r x) <;> intro hx <;> cases hx
    · exact .error
    · next related => exact ih h.2 _ _ related

end runs

/-! ### The sweep -/

theorem Renaming.onBlock_bind (b : Block) (t : TypeId) :
    (ρ.onBlock b).bind (ρ.type t) = ρ.onBlock (b.bind t) := by
  obtain ⟨heading⟩ := b
  cases heading with
  | message name => rfl
  | extend type target => cases target <;> rfl

theorem Renaming.onField_bind (d : Field) (t : TypeId) :
    (ρ.onField d).bind (ρ.type t) = ρ.onField (d.bind t) := by
  obtain ⟨form, name, number, type⟩ := d
  cases type with
  | scalar s => rfl
  | named name target => cases target <;> rfl

/-- Two pools in which names of a file are bound, so that it still matches. -/
structure SweptAlike (ρ : Renaming) (f : FileId) (pool other p p' : Pool) : Prop where
  left : Swept f pool p
  right : Swept (ρ.file f) other p'
  matched : Matches ρ f p p'

namespace SweptAlike

variable (h : SweptAlike ρ f pool other p p') (ha : Alike ρ f pool other)
include h ha

/-- A name denotes the same in both sweeps. -/
theorem resolve? {s : Scope} (hs : pool.InRange s) (hsf : pool.scopeFile s = f) (name : TypeName) :
    p'.resolve? (ρ.file f) (ρ.scope s) name = (p.resolve? f s name).map ρ.type := by
  obtain ⟨hs', hsf'⟩ := ha.own.inRange ha.there' hs hsf
  rw [h.left.resolve?_eq ha.left hs hsf ha.there, h.right.resolve?_eq ha.right hs' hsf' ha.there',
    ha.resolve? hs hsf]

theorem sweepBlock {b : BlockId} (hb : pool.BlockOf f b) :
    SameEnd (SweptAlike ρ f pool other) (sweepBlock f b p)
      (sweepBlock (ρ.file f) (ρ.block b) p') := by
  have hb' : p.BlockOf f b := h.left.blockOf_iff.mpr hb
  have hblock := h.matched.block b hb'
  have hname : (p'.file (ρ.file f)).name = (p.file f).name := by
    rw [h.matched.file]
    rfl
  have hparent := (h.left.sameTree.block b).2.1
  simp only [Pool.sweepBlock, bind, EStateM.bind, get_apply, hblock]
  cases hh : (p.block b).heading with
  | message name =>
    simp only [Renaming.onBlock, Renaming.heading, hh]
    exact .ok h
  | extend type target =>
    cases target with
    | some t =>
      simp only [Renaming.onBlock, Renaming.heading, hh, Option.map_some]
      exact .ok h
    | none =>
      obtain ⟨hs, hsf⟩ := ha.left.block_scope b hb.1
      have hr := h.resolve? ha hs.inRange (hsf.trans hb.2) type
      rw [← hparent] at hr
      simp only [Renaming.onBlock, Renaming.heading, hh, Option.map_none, hr, hname]
      cases ht : p.resolve? f (p.block b).parent type with
      | none => exact .error
      | some t =>
        have hheading : (p'.block (ρ.block b)).heading = .extend type none := by
          rw [hblock]
          simp only [Renaming.onBlock, Renaming.heading, hh, Option.map_none]
        refine .ok ⟨h.left.tail (.block hb' hh ht), ?_, ?_⟩
        · refine h.right.tail (.block (h.matched.blockOf hb') hheading ?_)
          rw [hblock]
          exact hr.trans (congrArg (Option.map ρ.type) ht)
        · exact h.matched.modifyBlock hb' (Renaming.onBlock_bind ..) ((p.block b).bind_refines t).file

theorem sweepField {d : FieldId} (hd : pool.FieldOf f d) :
    SameEnd (SweptAlike ρ f pool other) (sweepField f d p)
      (sweepField (ρ.file f) (ρ.field d) p') := by
  have hd' : p.FieldOf f d := h.left.fieldOf_iff.mpr hd
  have hfield := h.matched.field d hd'
  have hname : (p'.file (ρ.file f)).name = (p.file f).name := by
    rw [h.matched.file]
    rfl
  have hblock := (h.left.sameTree.field d).1
  simp only [Pool.sweepField, bind, EStateM.bind, get_apply, hfield]
  cases hh : (p.field d).type with
  | scalar s =>
    simp only [Renaming.onField, Renaming.fieldType, hh]
    exact .ok h
  | named name target =>
    cases target with
    | some t =>
      simp only [Renaming.onField, Renaming.fieldType, hh, Option.map_some]
      exact .ok h
    | none =>
      have hr := h.resolve? ha (s := .block (pool.field d).block) hd.2.1 hd.2.2 name
      rw [← hblock] at hr
      simp only [Renaming.onField, Renaming.fieldType, hh, Option.map_none, hname]
      rw [show p'.resolve? (ρ.file f) (.block (ρ.block (p.field d).block)) name = _ from hr]
      cases ht : p.resolve? f (.block (p.field d).block) name with
      | none => exact .error
      | some t =>
        have htype : (p'.field (ρ.field d)).type = .named name none := by
          rw [hfield]
          simp only [Renaming.onField, Renaming.fieldType, hh, Option.map_none]
        refine .ok ⟨h.left.tail (.field hd' hh ht), ?_, ?_⟩
        · refine h.right.tail (.field (h.matched.fieldOf hd') htype ?_)
          rw [hfield]
          exact hr.trans (congrArg (Option.map ρ.type) ht)
        · refine h.matched.modifyField hd' (Renaming.onField_bind ..) ?_
          rw [((p.field d).bind_refines t).same]

/-- Behind the sweep the pools are alike. -/
theorem alike (ht : pool.TypesSound) : Alike ρ f p p' := by
  have hreaches : ∀ {g}, p.Reaches f g → pool.Reaches f g := fun hg =>
    hg.mono fun i j hij => by rwa [ImportsFile, h.left.file_eq] at hij
  have himports : KeepsImports pool p := fun i k hk => by rwa [h.left.file_eq]
  have htouches := h.left.touches ha.left
  have hkept : ∀ g, p.Reaches f g → g ≠ f → Kept g pool p := fun g hg hne =>
    htouches.kept ha.left (ha.hasFile g (hreaches hg)).1 hne
  refine ⟨h.left.sameTree.wellFormed ha.left, h.right.sameTree.wellFormed ha.right, fun g hg => ?_,
    fun g hg => ?_, fun g hg => ?_, fun g g' hg hg' =>
      ha.injective g g' (hreaches hg) (hreaches hg')⟩
  · rw [h.left.sameTree.files, h.right.sameTree.files]
    exact ha.hasFile g (hreaches hg)
  · have hgrounded := ha.grounded g (hreaches hg)
    by_cases hne : g = f
    · subst hne
      exact hgrounded.swept h.left ha.left ht ha.there fun i hi =>
        ha.grounded i.file (.single ⟨i, hi, rfl⟩)
    · exact hgrounded.of_kept (hkept g hg hne) htouches himports
  · by_cases hne : g = f
    · subst hne
      exact h.matched
    · refine (ha.matched g (hreaches hg)).of_kept (hkept g hg hne) ?_
      refine (h.right.touches ha.right).kept ha.right (ha.hasFile g (hreaches hg)).2 fun e => hne ?_
      exact ha.injective g f (hreaches hg) (.refl f) e

end SweptAlike

/-- The sweep over a file has the same outcome in pools that are alike. -/
theorem Alike.sweep (h : Alike ρ f pool other) :
    SameEnd (SweptAlike ρ f pool other) (sweep f pool) (sweep (ρ.file f) other) := by
  show SameEnd _ (((pool.blocksOf f).forM (Pool.sweepBlock f) >>= fun _ =>
      (pool.fieldsOf f).forM (Pool.sweepField f)) pool)
    (((other.blocksOf (ρ.file f)).forM (Pool.sweepBlock (ρ.file f)) >>= fun _ =>
      (other.fieldsOf (ρ.file f)).forM (Pool.sweepField (ρ.file f))) other)
  rw [h.own.blocksOf h.left h.right h.there, h.own.fieldsOf h.left h.right h.there]
  refine SameEnd.bind (SameEnd.forM _ (fun b hb p p' hr => ?_) _ _ ⟨.refl, .refl, h.own⟩)
    (SameEnd.forM _ fun d hd p p' hr => ?_)
  · exact hr.sweepBlock h ((h.left.mem_blocksOf_iff h.there).mp hb)
  · exact hr.sweepField h ((h.left.mem_fieldsOf_iff h.there).mp hd)

/-! ### Numbers -/

theorem fieldFault_onBlock (b : Block) (d : Field) :
    fieldFault (ρ.onBlock b) (ρ.onField d) = fieldFault b d := by
  unfold fieldFault
  rw [Renaming.title_onBlock]
  rfl

/-- The fields of a block. -/
theorem Matches.fieldsOfBlock (h : Matches ρ f pool other) (hw : pool.WellFormed) {b : BlockId}
    (hb : pool.BlockOf f b) : (other.block (ρ.block b)).fields.values =
        (pool.block b).fields.values.map ρ.field ∧
      ∀ d ∈ (pool.block b).fields.values, pool.FieldOf f d ∧ (pool.field d).block = b := by
  refine ⟨?_, fun d hd => ?_⟩
  · rw [h.block b hb]
    exact Table.values_map ..
  · obtain ⟨hd, hdb⟩ := hw.mem_fields_iff.mp hd
    exact ⟨⟨hd, hdb ▸ hb⟩, hdb⟩

theorem Matches.checkMessage (h : Matches ρ f pool other) (hw : pool.WellFormed) {b : BlockId}
    (hb : pool.BlockOf f b) : other.checkMessage (ρ.block b) = pool.checkMessage b := by
  obtain ⟨hvalues, hof⟩ := h.fieldsOfBlock hw hb
  have hfaults : ((other.block (ρ.block b)).fields.values.map other.field).findSome?
      (fieldFault (other.block (ρ.block b))) =
        ((pool.block b).fields.values.map pool.field).findSome? (fieldFault (pool.block b)) := by
    have hfields : (other.block (ρ.block b)).fields.values.map other.field =
        ((pool.block b).fields.values.map pool.field).map ρ.onField := by
      rw [hvalues, List.map_map, List.map_map]
      exact List.map_congr_left fun d hd => h.field d (hof d hd).1
    rw [hfields, h.block b hb, List.findSome?_map]
    exact congrArg (List.findSome? · _) (funext fun d => fieldFault_onBlock _ d)
  simp only [Pool.checkMessage, hfaults]

/-- The numbers in use by other files are the same in two pools, as far as the file extends messages
with them. -/
structure SameNumbers (ρ : Renaming) (f : FileId) (pool other : Pool) : Prop where
  same : ∀ d m n, pool.FieldOf f d → pool.Extends m n d →
    (other.extensions.find? (ρ.block m, n) = none ↔ pool.extensions.find? (m, n) = none)
  left : ∀ k d, pool.extensions.find? k = some d → ¬pool.FieldOf f d
  right : ∀ k d, other.extensions.find? k = some d → ¬other.FieldOf (ρ.file f) d

/-- The same numbers are claimed in two pools. -/
structure SameClaims (ρ : Renaming) (f : FileId) (pool : Pool) (claims claims' : Claims) : Prop where
  find : ∀ m n, pool.HasBlock m → pool.Reaches f (pool.block m).file →
    claims'.find? (ρ.block m, n) = (claims.find? (m, n)).map ρ.field
  own : ∀ k d, claims.find? k = some d → pool.FieldOf f d

namespace Alike

/-- Blocks of different places stay at different places. -/
theorem block_inj (h : Alike ρ f pool other) {a b : BlockId} (ha : pool.HasBlock a)
    (haf : pool.Reaches f (pool.block a).file) (hb : pool.HasBlock b)
    (hbf : pool.Reaches f (pool.block b).file) (he : ρ.block a = ρ.block b) : a = b := by
  have ha' := (h.matched _ haf).blockOf ⟨ha, rfl⟩
  have hb' := (h.matched _ hbf).blockOf ⟨hb, rfl⟩
  rw [he] at ha'
  have hfile := h.injective _ _ haf hbf (ha'.2.symm.trans hb'.2)
  exact ((h.matched _ hbf).block_inj ⟨ha, hfile⟩ ⟨hb, rfl⟩).mp he

theorem claimNumber (h : Alike ρ f pool other) (hn : SameNumbers ρ f pool other) {m : BlockId}
    (hm : pool.HasBlock m) (hmf : pool.Reaches f (pool.block m).file) {d : FieldId}
    (hd : pool.FieldOf f d) (hext : pool.Extends m (pool.field d).number.value d)
    {claims claims' : Claims} (hc : SameClaims ρ f pool claims claims') :
    SameResult (SameClaims ρ f pool) (pool.claimNumber m claims d)
      (other.claimNumber (ρ.block m) claims' (ρ.field d)) := by
  have hblock := (h.matched _ hmf).block m ⟨hm, rfl⟩
  have hfield := h.own.field d hd
  have hranges : (other.block (ρ.block m)).extensionRanges = (pool.block m).extensionRanges := by
    rw [hblock]
    rfl
  have htitle : (other.block (ρ.block m)).title = (pool.block m).title := by
    rw [hblock, Renaming.title_onBlock]
  have hnumber : (other.field (ρ.field d)).number = (pool.field d).number := by
    rw [hfield]
    rfl
  have hsame := hn.same d m _ hd hext
  have hfind := hc.find m (pool.field d).number.value hm hmf
  simp only [Pool.claimNumber, hranges, htitle, hnumber]
  split
  · cases hold : pool.extensions.find? (m, (pool.field d).number.value) with
    | some e =>
      -- the number is in use by a field of another file, both times
      rw [hold] at hsame
      obtain ⟨e', hold'⟩ := Option.ne_none_iff_exists'.mp fun hnone =>
        Option.some_ne_none _ (hsame.mp hnone)
      have hne : e ≠ d := fun he => hn.left _ e hold (he ▸ hd)
      have hne' : e' ≠ ρ.field d := fun he => hn.right _ e' hold' (he ▸ h.own.fieldOf hd)
      simp only [hold', Option.some_or, if_neg hne, if_neg hne']
      exact .error
    | none =>
      rw [hsame.mpr hold]
      simp only [Option.none_or, hfind]
      cases hclaim : claims.find? (m, (pool.field d).number.value) with
      | some e =>
        have hinj := h.own.field_inj (hc.own _ e hclaim) hd
        simp only [Option.map_some, hinj]
        split
        · exact .ok hc
        · exact .error
      | none =>
        refine .ok ⟨fun m' n' hm' hmf' => ?_, fun k e he => ?_⟩
        · rw [Table.find?_insert, Table.find?_insert, map_or, hc.find m' n' hm' hmf']
          congr 1
          by_cases hk : (m', n') = (m, (pool.field d).number.value)
          · cases hk
            rw [if_pos rfl, if_pos rfl]
            rfl
          · rw [if_neg hk, if_neg fun hk' => hk ?_]
            · rfl
            · rw [Prod.mk.injEq] at hk' ⊢
              exact ⟨h.block_inj hm' hmf' hm hmf hk'.1, hk'.2⟩
        · rw [Table.find?_insert, Option.or_eq_some_iff] at he
          rcases he with he | ⟨-, he⟩
          · exact hc.own k e he
          · split at he
            · cases he
              exact hd
            · cases he
  · exact .error

theorem checkBlock (h : Alike ρ f pool other) (hn : SameNumbers ρ f pool other) {b : BlockId}
    (hb : pool.BlockOf f b) {claims claims' : Claims} (hc : SameClaims ρ f pool claims claims') :
    SameResult (SameClaims ρ f pool) (pool.checkBlock claims b)
      (other.checkBlock claims' (ρ.block b)) := by
  have hblock := h.own.block b hb
  obtain ⟨hvalues, hof⟩ := h.own.fieldsOfBlock h.left hb
  have hspan : (other.block (ρ.block b)).span = (pool.block b).span := by
    rw [hblock]
    rfl
  have hheading : (other.block (ρ.block b)).heading = ρ.heading (pool.block b).heading := by
    rw [hblock]
    rfl
  simp only [Pool.checkBlock, hheading, h.own.checkMessage h.left hb]
  cases hh : (pool.block b).heading with
  | message name =>
    simp only [Renaming.heading]
    cases pool.checkMessage b with
    | error fault => exact .error
    | ok u => exact .ok hc
  | extend type target =>
    cases target with
    | none => exact .ok hc
    | some t =>
      obtain ⟨ht, htf⟩ := (h.grounded f (.refl f)).refers (.extend hb hh)
      cases t with
      | enum e =>
        have he : (other.enum (ρ.enum e)).fullName = (pool.enum e).fullName := by
          rw [(h.matched _ htf).enum e ⟨ht, rfl⟩]
          rfl
        simp only [Renaming.heading, Option.map_some, Renaming.type, Pool.checkExtend, he, hspan]
        exact .error
      | message m =>
        have hm := (h.matched _ htf).block m ⟨ht.1, rfl⟩
        have hranges : (other.block (ρ.block m)).extensionRanges =
            (pool.block m).extensionRanges := by
          rw [hm]
          rfl
        have htitle : (other.block (ρ.block m)).title = (pool.block m).title := by
          rw [hm, Renaming.title_onBlock]
        simp only [Renaming.heading, Option.map_some, Renaming.type, Pool.checkExtend, hranges,
          htitle, hspan, hvalues]
        split
        · exact .error
        · refine SameResult.foldlM _ (fun d hd claims claims' hc => ?_) _ _ hc
          obtain ⟨hd, hdb⟩ := hof d hd
          refine h.claimNumber hn ht.1 htf hd ⟨⟨type, ?_⟩, rfl⟩ hc
          rw [hdb, hh]

/-- The checks of the blocks of a file have the same outcome in pools that are alike. -/
theorem checkBlocks (h : Alike ρ f pool other) (hn : SameNumbers ρ f pool other) :
    SameResult (SameClaims ρ f pool) ((pool.blocksOf f).foldlM pool.checkBlock Table.empty)
      ((other.blocksOf (ρ.file f)).foldlM other.checkBlock Table.empty) := by
  rw [h.own.blocksOf h.left h.right h.there]
  refine SameResult.foldlM _ (fun b hb claims claims' hc => ?_) _ _ ⟨fun m n _ _ => rfl, ?_⟩
  · exact h.checkBlock hn ((h.left.mem_blocksOf_iff h.there).mp hb) hc
  · intro k d hd
    cases hd

end Alike

theorem Matches.setExtensions (h : Matches ρ f pool other)
    (extensions extensions' : Table (BlockId × Nat) FieldId) :
    Matches ρ f { pool with extensions } { other with extensions := extensions' } :=
  ⟨h.file, h.blocks, h.enums, h.fields, h.block, h.enum, h.field, h.block_lt, h.enum_lt, h.field_lt⟩

theorem checkFile_eq (f : FileId) (pool : Pool) :
    checkFile f pool =
      match Pool.sweep f pool with
      | .error fault swept => .error fault swept
      | .ok _ swept =>
        match (swept.blocksOf f).foldlM swept.checkBlock Table.empty with
        | .error fault => .error fault swept
        | .ok claims =>
          .ok () { swept with extensions := swept.extensions.insertAll claims.entries } := by
  simp only [checkFile, bind, EStateM.bind, get_apply]
  cases Pool.sweep f pool with
  | error fault swept => rfl
  | ok u swept =>
    dsimp only
    cases (swept.blocksOf f).foldlM swept.checkBlock Table.empty <;> rfl

/-- The end of a file has the same outcome in pools that are alike, if the numbers in use are the same
as far as the file extends messages with them. -/
theorem Alike.checkFile (h : Alike ρ f pool other) (ht : pool.TypesSound)
    (hn : ∀ swept swept', SweptAlike ρ f pool other swept swept' →
      Pool.sweep f pool = .ok () swept → SameNumbers ρ f swept swept') :
    SameEnd (Matches ρ f) (checkFile f pool) (checkFile (ρ.file f) other) := by
  rw [checkFile_eq, checkFile_eq]
  have hsweep := h.sweep
  revert hsweep hn
  cases Pool.sweep f pool <;> cases Pool.sweep (ρ.file f) other <;> intro hn hsweep <;> cases hsweep
  · next swept swept' hswept =>
    have hcheck := (hswept.alike h ht).checkBlocks (hn _ _ hswept rfl)
    dsimp only
    revert hcheck
    cases (swept.blocksOf f).foldlM swept.checkBlock Table.empty <;>
      cases (swept'.blocksOf (ρ.file f)).foldlM swept'.checkBlock Table.empty <;>
      intro hcheck <;> cases hcheck
    · exact .error
    · exact .ok (hswept.matched.setExtensions _ _)
  · exact .error

end ProtoSchema.Pool
