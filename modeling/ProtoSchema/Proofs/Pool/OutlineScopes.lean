import ProtoSchema.Proofs.Pool.FullNames
import ProtoSchema.Proofs.Pool.OutlinePairs

/-! # Scopes of files with one outline

The scopes of files with one outline stand side by side and have the same names (`aligned_scopes`).  So
for each type of the one file there is a type of the same name in the other, and messages that have one
name have one outline (`exists_alike`). -/

namespace ProtoSchema

theorem forall₂_flatMap {α β γ δ : Type} {R : γ → δ → Prop} {F : α → List γ} {G : β → List δ}
    {as : List α} {bs : List β} (h : List.Forall₂ (fun a b => List.Forall₂ R (F a) (G b)) as bs) :
    List.Forall₂ R (as.flatMap F) (bs.flatMap G) := by
  induction h with
  | nil => exact .nil
  | cons head _ ih => exact List.rel_append head ih

namespace Pool

variable {V V' : View} {pool other : Pool} {f g : FileId} {s s' : Scope} {t t' : TypeId}

/-! ### Scopes -/

/-- The scopes of a file: the file itself and its messages. -/
def scopesOf (pool : Pool) (f : FileId) : List Scope :=
  .file f :: (pool.messagesIn (.file f)).map .block

theorem WellFormed.scopeFile_of_mem_scopesOf (hw : pool.WellFormed) (h : s ∈ pool.scopesOf f) :
    pool.scopeFile s = f := by
  rcases List.mem_cons.mp h with rfl | h
  · rfl
  · obtain ⟨b, hb, rfl⟩ := List.mem_map.mp h
    exact (hw.mem_messagesIn_iff.mp hb).1.2

/-- The scopes have one name, and what is declared in them stands side by side. -/
structure Aligned (V V' : View) (pool other : Pool) (s s' : Scope) : Prop where
  name : pool.scopeName s = other.scopeName s'
  paired : Paired V V' pool other s s'

variable (hw : pool.WellFormed) (hw' : other.WellFormed)
include hw hw'

theorem aligned_withNested {b b' : BlockId} (hb : pool.BlockOf f b) (hb' : other.BlockOf g b')
    (hx : (pool.block b).isExtend = false) (hx' : (other.block b').isExtend = false)
    (hparent : pool.scopeName (pool.block b).parent = other.scopeName (other.block b').parent)
    (h : pool.messageOutline V b = other.messageOutline V' b') :
    List.Forall₂ (fun a a' => Aligned V V' pool other (.block a) (.block a')) (pool.withNested b)
      (other.withNested b') := by
  refine message_pairs hw hw' (P := fun b b' => (pool.block b).isExtend = false →
    (other.block b').isExtend = false →
    pool.scopeName (pool.block b).parent = other.scopeName (other.block b').parent →
    List.Forall₂ (fun a a' => Aligned V V' pool other (.block a) (.block a')) (pool.withNested b)
      (other.withNested b')) (fun b b' hb hb' hname hpaired hnested hx hx' hparent => ?_) b b' hb hb' h
    hx hx' hparent
  have hfull : pool.scopeName (.block b) = other.scopeName (.block b') := by
    show (pool.block b).fullName = (other.block b').fullName
    rw [hw.fullName_concat hb.1 hx, hw'.fullName_concat hb'.1 hx', hname, hparent]
  rw [withNested, withNested, hw.foldMessage_eq, hw'.foldMessage_eq, ← List.flatMap_def,
    ← List.flatMap_def]
  refine .cons ⟨hfull, hpaired⟩ (forall₂_flatMap (forall₂_imp_of_mem hnested fun a ha a' ha' hrel => ?_))
  obtain ⟨-, hax, hap⟩ := (hw.mem_messages_iff (s := .block b)).mp ha
  obtain ⟨-, hax', hap'⟩ := (hw'.mem_messages_iff (s := .block b')).mp ha'
  exact hrel hax hax' (by rw [hap, hap', hfull])

/-- The scopes of files with one outline are aligned. -/
theorem aligned_scopes (h : pool.outline V f = other.outline V' g) :
    List.Forall₂ (Aligned V V' pool other) (pool.scopesOf f) (other.scopesOf g) := by
  obtain ⟨-, hpackage, -, hdeclared⟩ := FileOutline.mk.inj h
  have hname : pool.scopeName (.file f) = other.scopeName (.file g) :=
    congrArg (·.getD []) hpackage
  have hpaired := declared_eq_iff.mp hdeclared
  refine .cons ⟨hname, hpaired⟩ ?_
  rw [List.forall₂_map_left_iff, List.forall₂_map_right_iff, messagesIn, messagesIn]
  refine forall₂_flatMap (forall₂_imp_of_mem hpaired.messages fun b hb b' hb' he => ?_)
  obtain ⟨-, hx, hp⟩ := (hw.mem_messages_iff (s := .file f)).mp hb
  obtain ⟨-, hx', hp'⟩ := (hw'.mem_messages_iff (s := .file g)).mp hb'
  exact aligned_withNested hw hw' (hw.blockOf_of_mem_messages (s := .file f) rfl hb)
    (hw'.blockOf_of_mem_messages (s := .file g) rfl hb') hx hx' (by rw [hp, hp', hname]) he

theorem aligned_messages (h : pool.outline V f = other.outline V' g) :
    List.Forall₂ (fun b b' => Aligned V V' pool other (.block b) (.block b'))
      (pool.messagesIn (.file f)) (other.messagesIn (.file g)) := by
  have htail := (List.forall₂_cons.mp (aligned_scopes hw hw' h)).2
  rwa [List.forall₂_map_left_iff, List.forall₂_map_right_iff] at htail

/-! ### Types -/

/-- The types have one full name and are declared alike. -/
inductive AlikeTypes (V V' : View) (pool other : Pool) : TypeId → TypeId → Prop
  | message {b b'} (h : Aligned V V' pool other (.block b) (.block b')) :
      AlikeTypes V V' pool other (.message b) (.message b')
  | enum {e e'} (h : (pool.enum e).fullName = (other.enum e').fullName) :
      AlikeTypes V V' pool other (.enum e) (.enum e')

omit hw hw' in
theorem AlikeTypes.typeName (h : AlikeTypes V V' pool other t t') :
    pool.typeName t = other.typeName t' := by
  cases h with
  | message h => exact h.name
  | enum h => exact h

/-- For each type of a file there is one in the other file that is declared alike. -/
theorem exists_alike (h : pool.outline V f = other.outline V' g) (ht' : other.HasType t')
    (hfile : other.typeFile t' = g) :
    ∃ t, pool.HasType t ∧ pool.typeFile t = f ∧ AlikeTypes V V' pool other t t' := by
  cases t' with
  | message b' =>
    obtain ⟨b, hb, hal⟩ := exists_of_forall₂_right (aligned_messages hw hw' h)
      (hw'.mem_messagesIn_iff.mpr ⟨⟨ht'.1, hfile⟩, ht'.2⟩)
    obtain ⟨hb, hx⟩ := hw.mem_messagesIn_iff.mp hb
    exact ⟨.message b, ⟨hb.1, hx⟩, hb.2, .message hal⟩
  | enum e' =>
    obtain ⟨hs', hsf'⟩ := hw'.enum_scope e' ht'
    have hmem : (other.enum e').parent ∈ other.scopesOf g :=
      (hw'.mem_scopes_iff (hw'.hasFile_of_enumOf ⟨ht', hfile⟩)).mpr ⟨hs', hsf'.trans hfile⟩
    obtain ⟨s, hs, hal⟩ := exists_of_forall₂_right (aligned_scopes hw hw' h) hmem
    obtain ⟨e, he, houtline⟩ := exists_of_forall₂_right hal.paired.enums
      (hw'.mem_enums_iff.mpr ⟨ht', rfl⟩)
    obtain ⟨he, hp⟩ := hw.mem_enums_iff.mp he
    have hname : (pool.enum e).name = (other.enum e').name := congrArg EnumOutline.name houtline
    refine ⟨.enum e, he, ?_, .enum ?_⟩
    · exact (hw.enum_scope e he).2.symm.trans (hp ▸ hw.scopeFile_of_mem_scopesOf hs)
    · rw [hw.enum_fullName_concat he, hw'.enum_fullName_concat ht', hp, hal.name, hname]

/-! ### Lookups in files -/

omit hw hw' in
/-- Where a type is declared: the name of the file and behind it the full name of the type. -/
def address (pool : Pool) (t : TypeId) : TypeName :=
  ⟨true, (pool.file (pool.typeFile t)).name :: pool.typeName t⟩

omit hw hw' in
theorem address_eq_iff : pool.address t = other.address t' ↔
    (pool.file (pool.typeFile t)).name = (other.file (other.typeFile t')).name ∧
      pool.typeName t = other.typeName t' := by
  simp [address]

theorem exists_inFile (h : pool.outline V f = other.outline V' g) {N : DottedName}
    (hfind : other.inFile g N = some t') : ∃ t, pool.inFile f N = some t := by
  obtain ⟨hfile', hname'⟩ := hw'.of_inFile hfind
  obtain ⟨t, ht, hfile, halike⟩ := exists_alike hw hw' h (hw'.hasType_of_inFile hfind) hfile'
  refine ⟨t, ?_⟩
  rw [← hfile, ← hname', ← halike.typeName, hw.inFile_typeName ht]

/-- A lookup in the one file finds a type if and only if it finds one in the other file. -/
theorem inFile_address (h : pool.outline V f = other.outline V' g)
    (hname : (pool.file f).name = (other.file g).name) (N : DottedName) :
    (pool.inFile f N).map pool.address = (other.inFile g N).map other.address := by
  cases ht : pool.inFile f N with
  | none =>
    cases ht' : other.inFile g N with
    | none => rfl
    | some t' =>
      obtain ⟨t, hsome⟩ := exists_inFile hw hw' h ht'
      exact absurd (ht.symm.trans hsome) (Option.some_ne_none t).symm
  | some t =>
    obtain ⟨t', ht'⟩ := exists_inFile hw' hw h.symm ht
    obtain ⟨hfile, hfull⟩ := hw.of_inFile ht
    obtain ⟨hfile', hfull'⟩ := hw'.of_inFile ht'
    rw [ht']
    refine congrArg some (address_eq_iff.mpr ⟨?_, hfull.trans hfull'.symm⟩)
    rw [hfile, hfile', hname]

end Pool

end ProtoSchema
