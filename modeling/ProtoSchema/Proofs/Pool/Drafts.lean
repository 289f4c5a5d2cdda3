import ProtoSchema.Proofs.Event.Declaring
import ProtoSchema.Proofs.Pool.Reconstruction
import ProtoSchema.Proofs.Renaming.Output

/-! # Files that are being read

While a file is read, its blocks are open one inside the other, and what is added stands in the innermost
one, so the file grows at one spot only (`GrowsIn`).  A file is `Drafted` if the statements that were read
declare what is there: each open block is the last of its kind in the scope around it, and holds what the
statements behind its header declare.  One event leads from a draft to a draft (`Drafted.event`). -/

namespace ProtoSchema

namespace Pool

variable {V : View} {pool other third : Pool} {f : FileId} {s t : Scope} {x y : Spot} {b : BlockId}
  {e : EnumId}

theorem contents_of_file (h : other.file f = pool.file f) :
    other.contents (.file f) = pool.contents (.file f) := by
  simp only [Pool.contents, attributes, members, h]

theorem contents_of_block (h : other.block b = pool.block b) :
    other.contents (.block b) = pool.contents (.block b) := by
  simp only [Pool.contents, attributes, members, h]

/-- What is recorded of a file besides its members and its options. -/
theorem contents_modifyFile {i : FileId} {k : File → File}
    (hk : ∀ F, (k F).members = F.members ∧ (k F).options = F.options) (t : Scope) :
    (pool.modifyFile i k).contents t = pool.contents t := by
  cases t with
  | file j =>
    simp only [Pool.contents, attributes, members, file_modifyFile]
    split
    · rw [(hk _).1, (hk _).2]
    · rfl
  | block b => rfl

namespace GrowsIn

/-- Additions at `x` and then at a spot that is `x` or was not there before. -/
theorem trans_of (h : GrowsIn f x pool other) (h' : GrowsIn f y other third)
    (hy : y = x ∨ ¬pool.HasSpot y) : GrowsIn f x pool third where
  file hf := h'.file (h.file hf)
  block b hb := by
    obtain ⟨hother, he⟩ := h.block b hb
    obtain ⟨hthird, he'⟩ := h'.block b hother
    exact ⟨hthird, he'.trans he⟩
  enum e he := by
    obtain ⟨hother, heq⟩ := h.enum e he
    obtain ⟨hthird, heq'⟩ := h'.enum e hother
    refine ⟨hthird, fun hne => (heq' ?_).trans (heq hne)⟩
    rintro rfl
    exact hy.elim (fun h => hne h.symm) fun hout => hout he.1
  field d hd := by
    obtain ⟨hother, he⟩ := h.field d hd
    obtain ⟨hthird, he'⟩ := h'.field d hother
    exact ⟨hthird, he'.trans he⟩
  contents t ht hf hne := by
    obtain ⟨hother, hfile⟩ := h.inRange ht hf
    refine (h'.contents t hother hfile ?_).trans (h.contents t ht hf hne)
    rintro rfl
    exact hy.elim (fun h => hne h.symm) fun hout => hout ht

/-- A file that is kept. -/
theorem of_kept (h : Kept f pool other) (hf : other.HasFile f) (x : Spot) : GrowsIn f x pool other where
  file _ := hf
  block b hb := ⟨(h.blocks b).mpr hb, by rw [h.block b hb]⟩
  enum e he := ⟨(h.enums e).mpr he, fun _ => h.enum e he⟩
  field d hd := ⟨(h.fields d).mpr hd, h.field d hd⟩
  contents t ht hf _ := by
    cases t with
    | file i =>
      cases hf
      exact contents_of_file h.file
    | block b => exact contents_of_block (h.block b ⟨ht, hf⟩)

theorem modifyFile {i : FileId} {k : File → File}
    (hk : ∀ F, (k F).members = F.members ∧ (k F).options = F.options) (f : FileId) (x : Spot) :
    GrowsIn f x pool (pool.modifyFile i k) where
  file hf := by rwa [hasFile_modifyFile]
  block _ hb := ⟨hb, rfl⟩
  enum _ he := ⟨he, fun _ => rfl⟩
  field _ hd := ⟨hd, rfl⟩
  contents t _ _ _ := contents_modifyFile hk t

end GrowsIn

/-- An enum that changes. -/
theorem growsIn_of_enumGrows (h : Cursor.EnumGrows e pool other) (f : FileId) :
    GrowsIn f (.enum e) pool other where
  file hf := by simpa only [HasFile, h.files] using hf
  block b hb := by
    have hblock : other.block b = pool.block b := by simp only [Pool.block, h.blocks]
    refine ⟨⟨by simpa only [HasBlock, h.blocks] using hb.1, by rw [hblock]; exact hb.2⟩, by rw [hblock]⟩
  enum a ha := by
    refine ⟨⟨h.enums ▸ ha.1, ?_⟩, fun hne => h.others a fun he => hne (he ▸ rfl)⟩
    rw [(h.sameTree.enum a).1]
    exact ha.2
  field d hd := by
    have hfield : other.field d = pool.field d := by simp only [Pool.field, h.fields]
    refine ⟨⟨by simpa only [HasField, h.fields] using hd.1, ?_⟩, hfield⟩
    rw [hfield]
    simpa only [BlockOf, HasBlock, Pool.block, h.blocks] using hd.2
  contents t _ _ _ := by rw [h.contents]

/-! ### Open blocks -/

/-- Since the pool was as the first one, nothing was added to the scope `s` of the file `f` but `L`. -/
structure Opened (f : FileId) (s : Scope) (pool other : Pool)
    (L : Declarations EnumId BlockId FieldId BlockId) : Prop where
  tree : pool.WellFormed
  scope : pool.HasScope s
  file : pool.scopeFile s = f
  grows : GrowsIn f (.scope s) pool other
  contents : other.contents s = pool.contents s ++ L

variable {L : Declarations EnumId BlockId FieldId BlockId}

/-- What is new may change. -/
theorem Opened.grow (h : Opened f s pool other L) (hg : GrowsIn f x other third)
    (hx : ¬pool.HasSpot x) : Opened f s pool third L where
  tree := h.tree
  scope := h.scope
  file := h.file
  grows := h.grows.trans_of hg (.inr hx)
  contents := by
    obtain ⟨hthere, hfile⟩ := h.grows.inRange h.scope.inRange h.file
    rw [hg.contents s hthere hfile fun he => hx (he ▸ h.scope.inRange), h.contents]

theorem Opened.declared (h : Opened f s pool other L) (hw : other.WellFormed) :
    other.declared V s = pool.declared V s ++ other.outlineOf V L :=
  h.grows.declared_eq h.tree hw h.file h.contents

open Event (Declare DeclareEnum) in
/-- The statements that were read declare what is there, and the last spot is open. -/
inductive Drafted (f : FileId) : List Event → Spot → Pool → Prop
  | file {es pool} (declare : Declare es (pool.declared .asWritten (.file f))) :
      Drafted f es (.scope (.file f)) pool
  | message {es s pool other name b body} (outer : Drafted f es (.scope s) pool)
      (opened : Opened f s pool other { messages := [b] }) (new : ¬pool.HasBlock b)
      (there : other.BlockOf f b) (named : (other.block b).name = name.value)
      (declare : Declare body (other.declared .asWritten (.block b))) :
      Drafted f (es ++ .openMessage name :: body) (.scope (.block b)) other
  | extend {es s pool other type b body fields} (outer : Drafted f es (.scope s) pool)
      (opened : Opened f s pool other { extendBlocks := [b] }) (new : ¬pool.HasBlock b)
      (there : other.BlockOf f b) (extend : (other.block b).isExtend = true)
      (named : View.asWritten.extendee (other.block b) = type.value)
      (shown : other.declared .asWritten (.block b) = { fields }) (declare : Declare body { fields }) :
      Drafted f (es ++ .openExtend type :: body) (.scope (.block b)) other
  | enum {es s pool other name e body} (outer : Drafted f es (.scope s) pool)
      (opened : Opened f s pool other { enums := [e] }) (new : ¬pool.HasEnum e)
      (there : other.EnumOf f e) (named : (other.enum e).name = name.value)
      (declare : DeclareEnum body (View.asWritten.enum (other.enum e)).options
        (View.asWritten.enum (other.enum e)).values) :
      Drafted f (es ++ .openEnum name :: body) (.enum e) other

namespace Drafted

open Event (Declare DeclareEnum)

variable {es ts : List Event} {D : ScopeOutline}

/-- Statements that add to the open scope what they declare. -/
theorem grow (h : Drafted f es (.scope s) pool) (hg : GrowsIn f (.scope s) pool other)
    (hD : other.declared .asWritten s = pool.declared .asWritten s ++ D)
    (hts : ∀ {us U}, Declare us U → Declare (us ++ ts) (U ++ D))
    (hextend : ∀ b, s = .block b → (pool.block b).isExtend = true → ∃ fields, D = { fields }) :
    Drafted f (es ++ ts) (.scope s) other := by
  cases h with
  | file declare =>
    refine .file ?_
    rw [hD]
    exact hts declare
  | @message es s₀ pool₀ _ name b body outer opened new there named declare =>
    obtain ⟨there', hheading⟩ := hg.block b there
    rw [List.append_assoc, List.cons_append]
    refine .message outer (opened.grow hg new) new there' ?_ ?_
    · rw [Block.name, Block.fullName, hheading, ← Block.fullName, ← Block.name, named]
    · rw [hD]
      exact hts declare
  | @extend es s₀ pool₀ _ type b body fields outer opened new there extend named shown declare =>
    obtain ⟨there', hheading⟩ := hg.block b there
    obtain ⟨added, rfl⟩ := hextend b rfl extend
    have hshown : other.declared .asWritten (.block b) = { fields := fields ++ added } := by
      rw [hD, shown]
      rfl
    rw [List.append_assoc, List.cons_append]
    refine .extend outer (opened.grow hg new) new there' ?_ ?_ hshown (hts declare)
    · rw [Block.isExtend, hheading, ← Block.isExtend, extend]
    · rw [View.extendee, hheading, ← View.extendee, named]

theorem scopeFile (h : Drafted f es (.scope s) pool) : pool.scopeFile s = f := by
  cases h with
  | file => rfl
  | message _ _ _ there => exact there.2
  | extend _ _ _ there => exact there.2

/-- Nothing is added to the open scope. -/
theorem still (h : Drafted f es (.scope s) pool) (hw : pool.WellFormed) (hw' : other.WellFormed)
    (hg : GrowsIn f (.scope s) pool other) (hsame : other.contents s = pool.contents s)
    (hts : ∀ {us U}, Declare us U → Declare (us ++ ts) (U ++ {})) :
    Drafted f (es ++ ts) (.scope s) other := by
  refine h.grow hg (hg.declared_eq hw hw' h.scopeFile (D := {}) ?_) hts fun _ _ _ => ⟨[], rfl⟩
  rw [hsame]
  simp only [Declarations.append_def, List.append_nil]

/-- The options and values of the open enum grow. -/
theorem growEnum (h : Drafted f es (.enum e) pool) (hg : GrowsIn f (.enum e) pool other)
    (hname : (other.enum e).fullName = (pool.enum e).fullName)
    (hts : ∀ {us}, DeclareEnum us (View.asWritten.enum (pool.enum e)).options
        (View.asWritten.enum (pool.enum e)).values →
      DeclareEnum (us ++ ts) (View.asWritten.enum (other.enum e)).options
        (View.asWritten.enum (other.enum e)).values) :
    Drafted f (es ++ ts) (.enum e) other := by
  cases h with
  | enum outer opened new there named declare =>
    rw [List.append_assoc, List.cons_append]
    refine .enum outer (opened.grow hg new) new (hg.enum e there).1 ?_ (hts declare)
    rw [EnumType.name, hname, ← EnumType.name, named]

theorem enumOf (h : Drafted f es (.enum e) pool) : pool.EnumOf f e := by
  cases h with
  | enum outer opened new there => exact there

/-- While other files are read, a draft stays as it is. -/
theorem kept (h : Drafted f es x pool) (hw : pool.WellFormed) (hw' : other.WellFormed)
    (hk : Kept f pool other) (hf : other.HasFile f) : Drafted f es x other := by
  rw [← List.append_nil es]
  cases x with
  | scope s =>
    have hg := GrowsIn.of_kept hk hf (.scope s)
    refine h.still hw hw' hg ?_ fun hU => ?_
    · cases h with
      | file => exact contents_of_file hk.file
      | message _ _ _ there => exact contents_of_block (hk.block _ there)
      | extend _ _ _ there => exact contents_of_block (hk.block _ there)
    · simpa only [Declarations.append_def, List.append_nil] using hU
  | enum e =>
    have there := h.enumOf
    refine h.growEnum (.of_kept hk hf _) (by rw [hk.enum e there]) fun hU => ?_
    rwa [hk.enum e there, List.append_nil]

/-- No more blocks are closed than were opened. -/
theorem depth_nonneg (h : Drafted f es x pool) : 0 ≤ Event.depth es := by
  induction h with
  | file declare => exact declare.balanced.whole.ge
  | message outer opened new there named declare ih =>
    rw [Event.depth_block, declare.balanced.whole]
    exact add_nonneg (add_nonneg ih zero_le_one) le_rfl
  | extend outer opened new there extend named shown declare ih =>
    rw [Event.depth_block, declare.balanced.whole]
    exact add_nonneg (add_nonneg ih zero_le_one) le_rfl
  | enum outer opened new there named declare ih =>
    rw [Event.depth_block, declare.balanced.whole]
    exact add_nonneg (add_nonneg ih zero_le_one) le_rfl

/-- When all blocks are closed, the statements declare what is there. -/
theorem declare (h : Drafted f es x pool) (hclosed : Event.depth es = 0) :
    Declare es (pool.declared .asWritten (.file f)) := by
  -- the statements in front of an open block do not close more than they open
  have hopen : ∀ {s pool body} {e : Event} {ts : List Event}, Drafted f ts (.scope s) pool →
      e.weight = 1 → Event.Balanced body → Event.depth (ts ++ e :: body) ≠ 0 := by
    intro s pool body e ts outer he hbody heq
    have hnonneg := outer.depth_nonneg
    rw [Event.depth_block, he, hbody.whole] at heq
    omega
  cases h with
  | file declare => exact declare
  | message outer opened new there named declare => exact absurd hclosed (hopen outer rfl declare.balanced)
  | extend outer opened new there extend named shown declare =>
    exact absurd hclosed (hopen outer rfl declare.balanced)
  | enum outer opened new there named declare => exact absurd hclosed (hopen outer rfl declare.balanced)

/-! ### Ends of blocks -/

variable {L : Declarations EnumId BlockId FieldId BlockId}

/-- What was added to a scope since a draft is declared by the statements that were read since. -/
theorem opened (h : Drafted f es (.scope s) pool) (ho : Opened f s pool other L)
    (hw : other.WellFormed)
    (hts : ∀ {us U}, Declare us U → Declare (us ++ ts) (U ++ other.outlineOf .asWritten L)) :
    Drafted f (es ++ ts) (.scope s) other := by
  refine h.grow ho.grows (ho.declared hw) hts ?_
  rintro b rfl hx
  exact absurd (ho.scope.2.symm.trans hx) (by decide)

theorem closeBlock (h : Drafted f es (.scope (.block b)) pool) (hw : pool.WellFormed) :
    Drafted f (es ++ [.close]) (.scope (pool.block b).parent) pool := by
  cases h with
  | @message es s pool₀ _ name _ body outer ho new there named declare =>
    have hparent : (pool.block b).parent = s := by
      refine (hw.mem_messages_iff.mp ?_).2.2
      show b ∈ (pool.contents s).messages
      rw [ho.contents]
      exact List.mem_append_right _ (List.mem_singleton_self b)
    have houtline : pool.outlineOf .asWritten { messages := [b] } =
        { messages := [.mk name.value (pool.declared .asWritten (.block b))] } := by
      rw [← named, ← hw.messageOutline_eq]
      rfl
    rw [hparent, List.append_assoc, List.cons_append]
    refine outer.opened ho hw fun hU => ?_
    rw [houtline]
    exact hU.message declare
  | @extend es s pool₀ _ type _ body fields outer ho new there extend named shown declare =>
    have hparent : (pool.block b).parent = s := by
      refine ((hw.extend_iff s b).mp ?_).2.1
      show b ∈ (pool.contents s).extendBlocks
      rw [ho.contents]
      exact List.mem_append_right _ (List.mem_singleton_self b)
    have houtline : pool.outlineOf .asWritten { extendBlocks := [b] } =
        { extendBlocks := [⟨type.value, fields⟩] } := by
      rw [← named, ← show (pool.declared .asWritten (.block b)).fields = fields by rw [shown]]
      rfl
    rw [hparent, List.append_assoc, List.cons_append]
    refine outer.opened ho hw fun hU => ?_
    rw [houtline]
    exact hU.extend declare

/-- The end of an enum leads back to the scope that it is written in. -/
theorem closeEnum (h : Drafted f es (.enum e) pool) (hw : pool.WellFormed) :
    Drafted f (es ++ [.close]) (.scope (pool.enum e).parent) pool := by
  cases h with
  | @enum es s pool₀ _ name _ body outer ho new there named declare =>
    have hparent : (pool.enum e).parent = s := by
      refine (hw.mem_enums_iff.mp ?_).2
      show e ∈ (pool.contents s).enums
      rw [ho.contents]
      exact List.mem_append_right _ (List.mem_singleton_self e)
    have houtline : pool.outlineOf .asWritten { enums := [e] } =
        { enums := [⟨name.value, (View.asWritten.enum (pool.enum e)).options,
          (View.asWritten.enum (pool.enum e)).values⟩] } := by
      rw [← named]
      rfl
    rw [hparent, List.append_assoc, List.cons_append]
    refine outer.opened ho hw fun hU => ?_
    rw [houtline]
    exact hU.enum declare

end Drafted

end Pool

end ProtoSchema
