import Mathlib.Data.List.Forall2
import ProtoSchema.Proofs.Pool.Outline
import ProtoSchema.Proofs.Renaming.Output

/-! # Files with one outline

Where two files have one outline, their declarations stand side by side: in each scope, those of one kind
are the same in number and in order (`Paired`), and so it goes on inside of messages (`message_pairs`).
So a view that shows no more than the first one leads to one outline as well (`outline_congr`). -/

namespace ProtoSchema

/-! ### Lists side by side -/

section

variable {α β γ : Type} {R S : α → β → Prop} {as : List α} {bs : List β}

theorem map_eq_map_iff {F : α → γ} {G : β → γ} :
    as.map F = bs.map G ↔ List.Forall₂ (fun a b => F a = G b) as bs := by
  rw [← List.forall₂_eq_eq_eq, List.forall₂_map_left_iff, List.forall₂_map_right_iff]

theorem forall₂_imp_of_mem (h : List.Forall₂ R as bs) (hs : ∀ a ∈ as, ∀ b ∈ bs, R a b → S a b) :
    List.Forall₂ S as bs := by
  rw [List.forall₂_iff_zip] at h ⊢
  exact ⟨h.1, fun hm => hs _ (List.of_mem_zip hm).1 _ (List.of_mem_zip hm).2 (h.2 hm)⟩

theorem exists_of_forall₂_right (h : List.Forall₂ R as bs) {b : β} (hb : b ∈ bs) :
    ∃ a ∈ as, R a b := by
  obtain ⟨i, hi, rfl⟩ := List.getElem_of_mem hb
  have hi' : i < as.length := h.length_eq ▸ hi
  exact ⟨as[i], List.getElem_mem hi', h.get hi' hi⟩

theorem exists_of_forall₂_left (h : List.Forall₂ R as bs) {a : α} (ha : a ∈ as) :
    ∃ b ∈ bs, R a b := by
  obtain ⟨i, hi, rfl⟩ := List.getElem_of_mem ha
  have hi' : i < bs.length := h.length_eq ▸ hi
  exact ⟨bs[i], List.getElem_mem hi', h.get hi hi'⟩

end

theorem Block.exists_extend {b : Block} (h : b.isExtend = true) :
    ∃ type target, b.heading = .extend type target := by
  unfold isExtend at h
  split at h
  · cases h
  · next type target hh => exact ⟨type, target, hh⟩

namespace Pool

variable {V V' W W' : View} {pool other : Pool} {f g : FileId} {s s' : Scope}

/-! ### Scopes side by side -/

/-- What is declared in two scopes stands side by side. -/
structure Paired (V V' : View) (pool other : Pool) (s s' : Scope) : Prop where
  options : (pool.contents s).options.map V.option = (other.contents s').options.map V'.option
  reservedRanges : (pool.contents s).reservedRanges = (other.contents s').reservedRanges
  reservedNames : (pool.contents s).reservedNames = (other.contents s').reservedNames
  extensionRanges : (pool.contents s).extensionRanges = (other.contents s').extensionRanges
  enums : List.Forall₂ (fun e e' => pool.enumOutline V e = other.enumOutline V' e')
    (pool.members s).enums.values (other.members s').enums.values
  messages : List.Forall₂ (fun b b' => pool.messageOutline V b = other.messageOutline V' b')
    (pool.members s).messages.values (other.members s').messages.values
  fields : List.Forall₂ (fun d d' => pool.fieldOutline V d = other.fieldOutline V' d')
    (pool.contents s).fields (other.contents s').fields
  extendBlocks : List.Forall₂ (fun b b' => pool.extendOutline V b = other.extendOutline V' b')
    (pool.members s).extendBlocks (other.members s').extendBlocks

theorem declared_eq_iff :
    pool.declared V s = other.declared V' s' ↔ Paired V V' pool other s s' := by
  simp only [declared, outlineOf, outlineAround, Declarations.mk.injEq, map_eq_map_iff]
  constructor
  · rintro ⟨h₁, h₂, h₃, h₄, h₅, h₆, h₇, h₈⟩
    exact ⟨map_eq_map_iff.mpr h₁, h₂, h₃, h₄, h₅, h₆, h₇, h₈⟩
  · rintro ⟨h₁, h₂, h₃, h₄, h₅, h₆, h₇, h₈⟩
    exact ⟨map_eq_map_iff.mp h₁, h₂, h₃, h₄, h₅, h₆, h₇, h₈⟩

variable (hw : pool.WellFormed) (hw' : other.WellFormed)
include hw hw'

theorem messageOutline_eq_iff {b b' : BlockId} :
    pool.messageOutline V b = other.messageOutline V' b' ↔
      (pool.block b).name = (other.block b').name ∧ Paired V V' pool other (.block b) (.block b') := by
  rw [hw.messageOutline_eq, hw'.messageOutline_eq, MessageOutline.mk.injEq, declared_eq_iff]

/-- What is so of messages side by side if it is so of the messages in them is so of all messages with
one outline. -/
theorem message_pairs {P : BlockId → BlockId → Prop}
    (step : ∀ b b', pool.BlockOf f b → other.BlockOf g b' →
      (pool.block b).name = (other.block b').name → Paired V V' pool other (.block b) (.block b') →
      List.Forall₂ P (pool.block b).members.messages.values (other.block b').members.messages.values →
      P b b') (b : BlockId) : ∀ b', pool.BlockOf f b → other.BlockOf g b' →
      pool.messageOutline V b = other.messageOutline V' b' → P b b' := by
  refine hw.message_induction (P := fun b => ∀ b', pool.BlockOf f b → other.BlockOf g b' →
    pool.messageOutline V b = other.messageOutline V' b' → P b b') (fun b ih b' hb hb' h => ?_) b
  obtain ⟨hname, hpaired⟩ := (messageOutline_eq_iff hw hw').mp h
  refine step b b' hb hb' hname hpaired (forall₂_imp_of_mem hpaired.messages fun a ha a' ha' he => ?_)
  exact ih a ha a' (hw.blockOf_of_mem_messages (s := .block b) hb.2 ha)
    (hw'.blockOf_of_mem_messages (s := .block b') hb'.2 ha') he

end Pool

/-! ### Other views -/

/-- What the views `V` and `V'` show alike of two files, `W` and `W'` show alike as well. -/
structure View.Determines (V V' W W' : View) (pool other : Pool) (f g : FileId) : Prop where
  type : ∀ {s s' name name' offset offset' target target'}, pool.Refers f s name offset target →
    other.Refers g s' name' offset' target' → V.type name target = V'.type name' target' →
    W.type name target = W'.type name' target'
  constant : ∀ k k', V.constant k = V'.constant k' → W.constant k = W'.constant k'

namespace View.Determines

variable {V V' W W' : View} {pool other : Pool} {f g : FileId} {s s' : Scope}
  (h : View.Determines V V' W W' pool other f g)
include h

theorem option {o o' : OptionDecl} (he : V.option o = V'.option o') : W.option o = W'.option o' := by
  obtain ⟨hname, hvalue⟩ := OptionDecl.mk.inj he
  exact OptionDecl.mk.injEq .. ▸ ⟨hname, h.constant _ _ hvalue⟩

theorem options {os os' : List OptionDecl} (he : os.map V.option = os'.map V'.option) :
    os.map W.option = os'.map W'.option :=
  map_eq_map_iff.mpr (forall₂_imp_of_mem (map_eq_map_iff.mp he) fun _ _ _ _ => h.option)

theorem enumOutline {e e' : EnumId} (he : pool.enumOutline V e = other.enumOutline V' e') :
    pool.enumOutline W e = other.enumOutline W' e' := by
  obtain ⟨hname, hoptions, hvalues⟩ := EnumOutline.mk.inj he
  refine EnumOutline.mk.injEq .. ▸ ⟨hname, h.options hoptions, ?_⟩
  refine map_eq_map_iff.mpr (forall₂_imp_of_mem (map_eq_map_iff.mp hvalues) fun v _ v' _ hv => ?_)
  obtain ⟨hname, hnumber, hoptions⟩ := ValueDecl.mk.inj hv
  exact ValueDecl.mk.injEq .. ▸ ⟨hname, hnumber, h.options hoptions⟩

theorem fieldOutline {d d' : FieldId} (hd : pool.FieldOf f d) (hd' : other.FieldOf g d')
    (he : pool.fieldOutline V d = other.fieldOutline V' d') :
    pool.fieldOutline W d = other.fieldOutline W' d' := by
  obtain ⟨hform, htype, hname, hnumber, hoptions⟩ := FieldDecl.mk.inj he
  refine FieldDecl.mk.injEq .. ▸ ⟨hform, ?_, hname, hnumber, h.options hoptions⟩
  have htype : V.fieldType (pool.field d).type = V'.fieldType (other.field d').type :=
    congrArg Located.value htype
  refine congrArg Located.unplaced (?_ : W.fieldType (pool.field d).type = W'.fieldType _)
  cases ht : (pool.field d).type with
  | scalar a =>
    cases ht' : (other.field d').type with
    | scalar a' =>
      rw [ht, ht'] at htype
      exact congrArg WrittenType.scalar (WrittenType.scalar.inj htype)
    | named name' target' =>
      rw [ht, ht'] at htype
      cases htype
  | named name target =>
    cases ht' : (other.field d').type with
    | scalar a' =>
      rw [ht, ht'] at htype
      cases htype
    | named name' target' =>
      rw [ht, ht'] at htype
      exact congrArg WrittenType.named
        (h.type (.field hd ht) (.field hd' ht') (WrittenType.named.inj htype))

variable (hw : pool.WellFormed) (hw' : other.WellFormed)
include hw hw'

theorem fields {b b' : BlockId} (hb : pool.BlockOf f b) (hb' : other.BlockOf g b')
    (he : List.Forall₂ (fun d d' => pool.fieldOutline V d = other.fieldOutline V' d')
      (pool.block b).fields.values (other.block b').fields.values) :
    List.Forall₂ (fun d d' => pool.fieldOutline W d = other.fieldOutline W' d')
      (pool.block b).fields.values (other.block b').fields.values :=
  forall₂_imp_of_mem he fun _ hd _ hd' =>
    h.fieldOutline (hw.fieldOf_of_mem_fields hb hd) (hw'.fieldOf_of_mem_fields hb' hd')

theorem extendOutline {b b' : BlockId} (hb : pool.BlockOf f b) (hx : (pool.block b).isExtend = true)
    (hb' : other.BlockOf g b') (hx' : (other.block b').isExtend = true)
    (he : pool.extendOutline V b = other.extendOutline V' b') :
    pool.extendOutline W b = other.extendOutline W' b' := by
  obtain ⟨htype, hfields⟩ := ExtendOutline.mk.inj he
  refine ExtendOutline.mk.injEq .. ▸
    ⟨?_, map_eq_map_iff.mpr (h.fields hw hw' hb hb' (map_eq_map_iff.mp hfields))⟩
  obtain ⟨name, target, hh⟩ := Block.exists_extend hx
  obtain ⟨name', target', hh'⟩ := Block.exists_extend hx'
  simp only [View.extendee, hh, hh'] at htype ⊢
  exact h.type (.extend hb hh) (.extend hb' hh') htype

/-- Scopes side by side are so in the other views, if the messages in them are. -/
theorem paired (hs : pool.scopeFile s = f) (hs' : other.scopeFile s' = g)
    (hb : ∀ b, s = .block b → pool.BlockOf f b) (hb' : ∀ b, s' = .block b → other.BlockOf g b)
    (he : Pool.Paired V V' pool other s s')
    (hmessages : List.Forall₂ (fun b b' => pool.messageOutline W b = other.messageOutline W' b')
      (pool.members s).messages.values (other.members s').messages.values) :
    Pool.Paired W W' pool other s s' where
  options := h.options he.options
  reservedRanges := he.reservedRanges
  reservedNames := he.reservedNames
  extensionRanges := he.extensionRanges
  enums := forall₂_imp_of_mem he.enums fun _ _ _ _ => h.enumOutline
  messages := hmessages
  fields := by
    cases s with
    | file i =>
      have hnil := List.forall₂_nil_left_iff.mp he.fields
      rw [hnil]
      exact .nil
    | block b =>
      cases s' with
      | file i =>
        have hnil := List.forall₂_nil_right_iff.mp he.fields
        rw [hnil]
        exact .nil
      | block b' => exact h.fields hw hw' (hb b rfl) (hb' b' rfl) he.fields
  extendBlocks := forall₂_imp_of_mem he.extendBlocks fun b hm b' hm' =>
    h.extendOutline hw hw' (hw.blockOf_of_mem_extendBlocks hs hm) ((hw.extend_iff s b).mp hm).2.2
      (hw'.blockOf_of_mem_extendBlocks hs' hm') ((hw'.extend_iff s' b').mp hm').2.2

theorem messageOutline {b b' : BlockId} (hb : pool.BlockOf f b) (hb' : other.BlockOf g b')
    (he : pool.messageOutline V b = other.messageOutline V' b') :
    pool.messageOutline W b = other.messageOutline W' b' := by
  refine Pool.message_pairs hw hw' (P := fun b b' => pool.messageOutline W b =
    other.messageOutline W' b') (fun b b' hb hb' hname hpaired hmessages => ?_) b b' hb hb' he
  refine (Pool.messageOutline_eq_iff hw hw').mpr ⟨hname, ?_⟩
  exact h.paired hw hw' hb.2 hb'.2 (fun a ha => Scope.block.inj ha ▸ hb)
    (fun a ha => Scope.block.inj ha ▸ hb') hpaired hmessages

/-- Files with one outline in the first views have one outline in the others. -/
theorem outline (he : pool.outline V f = other.outline V' g) :
    pool.outline W f = other.outline W' g := by
  obtain ⟨hedition, hpackage, himports, hdeclared⟩ := FileOutline.mk.inj he
  refine FileOutline.mk.injEq .. ▸ ⟨hedition, hpackage, himports, ?_⟩
  have hpaired := Pool.declared_eq_iff.mp hdeclared
  refine Pool.declared_eq_iff.mpr (h.paired hw hw' rfl rfl (fun _ ha => by cases ha)
    (fun _ ha => by cases ha) hpaired (forall₂_imp_of_mem hpaired.messages fun b hb b' hb' => ?_))
  exact h.messageOutline hw hw' (hw.blockOf_of_mem_messages (s := .file f) rfl hb)
    (hw'.blockOf_of_mem_messages (s := .file g) rfl hb')

end View.Determines

end ProtoSchema
