import ProtoSchema.Pool.Resolution
import ProtoSchema.Proofs.Pool.Walks

/-! # What a lookup depends on

A name that is looked up from a scope denotes a type that is there (`resolve?_hasType`).  Looking it
up again in a later pool finds the same type, or one of those that were declared in between
(`resolve?_agrees`): for the declarations of the file and the imports are all that a lookup goes
through. -/

namespace ProtoSchema.Pool

variable {pool other : Pool} {f : FileId}

/-! ### Types that are there -/

def HasType (pool : Pool) : TypeId → Prop
  | .message b => pool.HasBlock b ∧ (pool.block b).isExtend = false
  | .enum e => pool.HasEnum e

/-- The scope in which a type is declared. -/
def typeScope (pool : Pool) : TypeId → Scope
  | .message b => (pool.block b).parent
  | .enum e => (pool.enum e).parent

/-- Where the name of a type is written. -/
def typeSpan (pool : Pool) : TypeId → Span
  | .message b => (pool.block b).span
  | .enum e => (pool.enum e).span

/-- The types that files pass on are there. -/
def TypesSound (pool : Pool) : Prop :=
  ∀ i name t, (pool.file i).types.find? name = some t → pool.HasType t

theorem WellFormed.typeFile_eq (hw : pool.WellFormed) {t : TypeId} (ht : pool.HasType t) :
    pool.typeFile t = pool.scopeFile (pool.typeScope t) := by
  cases t with
  | message b => exact (hw.block_scope b ht.1).2.symm
  | enum e => exact (hw.enum_scope e ht).2.symm

theorem WellFormed.member?_eq_some_iff (hw : pool.WellFormed) {s : Scope} {n : String}
    {t : TypeId} : member? (pool.members s) n = some t ↔
      pool.HasType t ∧ pool.typeScope t = s ∧ pool.typeName t = pool.scopeName s ++ [n] := by
  unfold member?
  cases t with
  | message b =>
    have hm : ((pool.members s).enums.find? n).map TypeId.enum ≠ some (.message b) := by simp
    rw [Option.or_eq_some_iff]
    simp only [hm, and_false, or_false, Option.map_eq_some_iff, TypeId.message.injEq,
      exists_eq_right, hw.message_iff, heading_eq_message_iff]
    constructor
    · rintro ⟨hb, hp, hx, hn⟩
      exact ⟨⟨hb, hx⟩, hp, hn⟩
    · rintro ⟨⟨hb, hx⟩, hp, hn⟩
      exact ⟨hb, hp, hx, hn⟩
  | enum e =>
    rw [Option.or_eq_some_iff]
    simp only [Option.map_eq_some_iff, reduceCtorEq, and_false, exists_false, false_or,
      TypeId.enum.injEq, exists_eq_right, Option.map_eq_none_iff, hw.enum_iff]
    constructor
    · rintro ⟨-, he, hp, hn⟩
      exact ⟨he, hp, hn⟩
    · rintro ⟨he, hp, hn⟩
      refine ⟨?_, he, hp, hn⟩
      rcases hw.message_enum s n with h | h
      · exact h
      · rw [(hw.enum_iff s n e).mpr ⟨he, hp, hn⟩] at h
        cases h

/-- A path down from a scope leads to a type of its file. -/
theorem WellFormed.of_descend (hw : pool.WellFormed) (path : DottedName) : ∀ {s : Scope} {t : TypeId},
    pool.descend (pool.members s) path = some t →
      pool.HasType t ∧ pool.typeFile t = pool.scopeFile s ∧
        pool.typeName t = pool.scopeName s ++ path := by
  induction path with
  | nil =>
    intro s t h
    cases h
  | cons n path ih =>
    intro s t h
    cases path with
    | nil =>
      obtain ⟨ht, hs, hn⟩ := hw.member?_eq_some_iff.mp h
      exact ⟨ht, hs ▸ hw.typeFile_eq ht, hn⟩
    | cons m path =>
      simp only [descend] at h
      split at h
      · next b hb =>
        obtain ⟨hb, hp, hh⟩ := (hw.message_iff s n b).mp hb
        obtain ⟨ht, hfile, hn⟩ := ih (s := .block b) h
        refine ⟨ht, ?_, ?_⟩
        · rw [hfile, ← hp, (hw.block_scope b hb).2]
          rfl
        · rw [hn]
          simp only [scopeName, (heading_eq_message_iff.mp hh).2]
          rw [List.append_assoc]
          rfl
      · cases h

theorem WellFormed.hasType_of_lexical (hw : pool.WellFormed) {s : Scope} {name : DottedName}
    {t : TypeId} (h : pool.lexical s name = some t) : pool.HasType t := by
  obtain ⟨s', -, h⟩ := List.exists_of_findSome?_eq_some h
  exact (hw.of_descend name h).1

theorem WellFormed.hasType_of_inFile (hw : pool.WellFormed) {name : DottedName} {t : TypeId}
    (h : pool.inFile f name = some t) : pool.HasType t := by
  simp only [inFile] at h
  split at h
  · exact (hw.of_descend _ (s := .file f) h).1
  · cases h

theorem TypesSound.hasType_of_inImports (ht : pool.TypesSound) {name : DottedName} {t : TypeId}
    (h : pool.inImports f name = some t) : pool.HasType t := by
  simp only [inImports] at h
  obtain ⟨i, -, h⟩ := List.exists_of_findSome?_eq_some h
  obtain ⟨n, -, h⟩ := List.exists_of_findSome?_eq_some h
  exact ht _ _ _ h

/-- A lookup finds types that are there. -/
theorem WellFormed.resolve?_hasType (hw : pool.WellFormed) (ht : pool.TypesSound) {s : Scope}
    {name : TypeName} {t : TypeId} (h : pool.resolve? f s name = some t) : pool.HasType t := by
  have houtside : ∀ {n}, (pool.inFile f n).or (pool.inImports f n) = some t → pool.HasType t := by
    intro n h
    rcases Option.or_eq_some_iff.mp h with h | ⟨-, h⟩
    · exact hw.hasType_of_inFile h
    · exact ht.hasType_of_inImports h
  simp only [resolve?] at h
  split at h
  · exact houtside h
  · rcases Option.or_eq_some_iff.mp h with h | ⟨-, h⟩
    · exact hw.hasType_of_lexical h
    · exact houtside h

/-! ### The types that files pass on -/

theorem Touches.hasType {g : FileId} (h : Touches g pool other) {t : TypeId}
    (ht : pool.HasType t) : other.HasType t := by
  cases t with
  | message b => exact ⟨(h.block b ht.1).1, (h.block b ht.1).2.1.isExtend.trans ht.2⟩
  | enum e => exact (h.enum e ht).1

theorem TypesSound.of_touches {g : FileId} (ht : pool.TypesSound) (h : Touches g pool other)
    (htypes : ∀ i, (other.file i).types = (pool.file i).types) : other.TypesSound := by
  intro i name t hf
  rw [htypes] at hf
  exact h.hasType (ht i name t hf)

theorem WellFormed.hasType_of_declared (hw : pool.WellFormed) {name : DottedName} {t : TypeId}
    (h : (name, t) ∈ pool.declaredTypes f) : pool.HasType t := by
  simp only [declaredTypes, List.mem_map, List.mem_flatMap, List.mem_append] at h
  obtain ⟨t', ⟨s, -, ht⟩, he⟩ := h
  cases he
  rcases ht with ⟨b, hb, rfl⟩ | ⟨e, he, rfl⟩
  · obtain ⟨hb, hx, -⟩ := hw.mem_messages_iff.mp hb
    exact ⟨hb, hx⟩
  · exact (hw.mem_enums_iff.mp he).1

theorem TypesSound.hasType_of_imported (ht : pool.TypesSound) {name : DottedName} {t : TypeId}
    (h : (name, t) ∈ pool.importedTypes f) : pool.HasType t := by
  simp only [importedTypes, List.mem_flatMap] at h
  obtain ⟨i, -, h⟩ := h
  exact ht _ _ _ (Table.mem_entries_iff.mp h)

/-- The types that are recorded for a file are there. -/
theorem TypesSound.recordTypes (ht : pool.TypesSound) (hw : pool.WellFormed) :
    (pool.recordTypes f).TypesSound := by
  have htouches : Touches f pool (pool.recordTypes f) := .modifyFile _ fun _ => rfl
  intro i name t h
  refine htouches.hasType ?_
  simp only [Pool.recordTypes, file_modifyFile] at h
  split at h
  · rcases Table.of_find?_insertAll h with h | h
    · cases h
    · rcases List.mem_append.mp h with h | h
      · exact hw.hasType_of_declared h
      · exact ht.hasType_of_imported h
  · exact ht i name t h

/-! ### Lookups in a later pool -/

/-- A later lookup finds what an earlier one found, or one of some new types. -/
def Agrees (new : TypeId → Prop) (before after : Option TypeId) : Prop :=
  after = before ∨ ∃ t, new t ∧ after = some t

variable {new : TypeId → Prop}

theorem Agrees.or {a a' b b' : Option TypeId} (h : Agrees new a a') (h' : Agrees new b b') :
    Agrees new (a.or b) (a'.or b') := by
  rcases h with rfl | ⟨t, ht, rfl⟩
  · cases a' with
    | none => simpa using h'
    | some t => exact .inl rfl
  · exact .inr ⟨t, ht, rfl⟩

theorem Agrees.findSome? {α : Type} {k k' : α → Option TypeId} {xs : List α}
    (h : ∀ x ∈ xs, Agrees new (k x) (k' x)) : Agrees new (xs.findSome? k) (xs.findSome? k') := by
  induction xs with
  | nil => exact .inl rfl
  | cons x xs ih =>
    rw [List.forall_mem_cons] at h
    have hor : ∀ k : α → Option TypeId, (x :: xs).findSome? k = (k x).or (xs.findSome? k) := by
      intro k
      rw [List.findSome?_cons]
      cases k x <;> rfl
    rw [hor, hor]
    exact h.1.or (ih h.2)

/-- The scopes of the file `f` hold the same in two pools, apart from some new types. -/
structure SameScopes (f : FileId) (new : TypeId → Prop) (pool other : Pool) : Prop where
  parent : ∀ b, pool.BlockOf f b →
    other.HasBlock b ∧ (other.block b).parent = (pool.block b).parent
  message : ∀ s n, pool.InRange s → pool.scopeFile s = f →
    (other.members s).messages.find? n = (pool.members s).messages.find? n ∨
      (pool.members s).messages.find? n = none ∧ ∃ b,
        (other.members s).messages.find? n = some b ∧ new (.message b) ∧
          (other.block b).members = {}
  enum : ∀ s n, pool.InRange s → pool.scopeFile s = f →
    (other.members s).enums.find? n = (pool.members s).enums.find? n ∨
      ∃ e, (other.members s).enums.find? n = some e ∧ new (.enum e)
  packageName : (other.file f).packageName = (pool.file f).packageName

/-- Two pools show the same from inside the file `f`, apart from some new types. -/
structure SameView (f : FileId) (new : TypeId → Prop) (pool other : Pool) : Prop where
  scopes : SameScopes f new pool other
  imports : (other.file f).imports = (pool.file f).imports
  imported : ∀ i ∈ (pool.file f).imports.values,
    (other.file i.file).packageName = (pool.file i.file).packageName ∧
      (other.file i.file).types = (pool.file i.file).types

theorem SameTree.sameScopes (h : SameTree pool other) : SameScopes f new pool other where
  parent b hb := ⟨by rw [h.blocks]; exact hb.1, (h.block b).2.1⟩
  message s n _ _ := .inl (by rw [h.members])
  enum s n _ _ := .inl (by rw [h.members])
  packageName := congrFun h.scopeName (.file f)

/-- A change outside the tree does not show. -/
theorem SameTree.sameView (h : SameTree pool other)
    (himports : (other.file f).imports = (pool.file f).imports)
    (htypes : ∀ i ∈ (pool.file f).imports.values,
      (other.file i.file).types = (pool.file i.file).types) : SameView f new pool other :=
  ⟨h.sameScopes, himports, fun i hi => ⟨congrFun h.scopeName (.file i.file), htypes i hi⟩⟩

namespace SameScopes

theorem member?_agrees (h : SameScopes f new pool other) {s : Scope} {n : String}
    (hs : pool.InRange s) (hf : pool.scopeFile s = f) :
    Agrees new (member? (pool.members s) n) (member? (other.members s) n) := by
  refine Agrees.or ?_ ?_
  · rcases h.message s n hs hf with h | ⟨-, b, hb, hnew, -⟩
    · exact .inl (by rw [h])
    · exact .inr ⟨_, hnew, by rw [hb]; rfl⟩
  · rcases h.enum s n hs hf with h | ⟨e, he, hnew⟩
    · exact .inl (by rw [h])
    · exact .inr ⟨_, hnew, by rw [he]; rfl⟩

theorem descend_empty (path : DottedName) (pool : Pool) : pool.descend {} path = none := by
  cases path with
  | nil => rfl
  | cons n path => cases path <;> rfl

theorem descend_agrees (h : SameScopes f new pool other) (hw : pool.WellFormed)
    (path : DottedName) : ∀ {s : Scope}, pool.InRange s → pool.scopeFile s = f →
    Agrees new (pool.descend (pool.members s) path) (other.descend (other.members s) path) := by
  induction path with
  | nil => exact fun _ _ => .inl rfl
  | cons n path ih =>
    intro s hs hf
    cases path with
    | nil => exact h.member?_agrees hs hf
    | cons m path =>
      simp only [descend]
      rcases h.message s n hs hf with hm | ⟨hnone, b, hb, -, hempty⟩
      · rw [hm]
        cases hb : (pool.members s).messages.find? n with
        | none => exact .inl rfl
        | some b =>
          obtain ⟨hb, hp, -⟩ := (hw.message_iff s n b).mp hb
          refine ih (s := .block b) hb ?_
          rw [← hf, ← hp, (hw.block_scope b hb).2]
          rfl
      · -- nothing is declared in a new message yet
        rw [hnone, hb]
        simp only [hempty, descend_empty]
        exact .inl rfl

theorem enclosing_eq (h : SameScopes f new pool other) (hw : pool.WellFormed)
    (hw' : other.WellFormed) {s : Scope} (hs : pool.InRange s) (hf : pool.scopeFile s = f) :
    other.enclosing s = pool.enclosing s := by
  induction hr : scopeRank s using Nat.strongRecOn generalizing s with
  | _ n ih =>
    cases s with
    | file i => rw [enclosing_file, enclosing_file]
    | block b =>
      obtain ⟨hb', hp⟩ := h.parent b ⟨hs, hf⟩
      rw [hw.enclosing_block hs, hw'.enclosing_block hb', hp]
      have hrank : scopeRank (pool.block b).parent < n := by
        rw [← hr]
        cases hparent : (pool.block b).parent with
        | file i => exact Nat.succ_pos _
        | block p => exact Nat.succ_lt_succ (hw.block_later b p hs hparent)
      rw [ih _ hrank (hw.block_scope b hs).1.inRange ((hw.block_scope b hs).2.trans hf) rfl]

theorem lexical_agrees (h : SameScopes f new pool other) (hw : pool.WellFormed)
    (hw' : other.WellFormed) {s : Scope} (hs : pool.InRange s) (hf : pool.scopeFile s = f)
    (name : DottedName) : Agrees new (pool.lexical s name) (other.lexical s name) := by
  unfold lexical
  rw [h.enclosing_eq hw hw' hs hf]
  refine Agrees.findSome? fun s' hs' => ?_
  obtain ⟨hin, hfile⟩ := hw.scopeFile_of_mem_enclosing hs hs'
  exact h.descend_agrees hw name hin (hfile.trans hf)

theorem inFile_agrees (h : SameScopes f new pool other) (hw : pool.WellFormed)
    (hf : pool.HasFile f) (name : DottedName) :
    Agrees new (pool.inFile f name) (other.inFile f name) := by
  simp only [inFile, h.packageName]
  split
  · exact h.descend_agrees hw _ (s := .file f) hf rfl
  · exact .inl rfl

end SameScopes

namespace SameView

theorem inImports_agrees (h : SameView f new pool other) (name : DottedName) :
    Agrees new (pool.inImports f name) (other.inImports f name) := by
  simp only [inImports, h.scopes.packageName, h.imports]
  refine Agrees.findSome? fun i hi => .inl ?_
  rw [(h.imported i hi).1, (h.imported i hi).2]

/-- A name that is looked up again denotes the same type or a new one. -/
theorem resolve?_agrees (h : SameView f new pool other) (hw : pool.WellFormed)
    (hw' : other.WellFormed) {s : Scope} (hs : pool.InRange s) (hf : pool.scopeFile s = f)
    (hfile : pool.HasFile f) (name : TypeName) :
    Agrees new (pool.resolve? f s name) (other.resolve? f s name) := by
  have houtside := (h.scopes.inFile_agrees hw hfile name.segments).or
    (h.inImports_agrees name.segments)
  simp only [resolve?]
  split
  · exact houtside
  · exact (h.scopes.lexical_agrees hw hw' hs hf _).or houtside

/-- Where no type is new, a name denotes the same. -/
theorem resolve?_eq (h : SameView f (fun _ => False) pool other) (hw : pool.WellFormed)
    (hw' : other.WellFormed) {s : Scope} (hs : pool.InRange s) (hf : pool.scopeFile s = f)
    (hfile : pool.HasFile f) (name : TypeName) :
    other.resolve? f s name = pool.resolve? f s name := by
  rcases h.resolve?_agrees hw hw' hs hf hfile name with he | ⟨_, hn, -⟩
  · exact he
  · cases hn

end SameView

/-! ### Imports -/

/-- What is found is found too if one more file is imported. -/
theorem inImports_insertImport {target : String} {i : Import} {name : DottedName} {t : TypeId}
    (h : pool.inImports f name = some t) :
    (pool.modifyFile f fun x => { x with imports := x.imports.insert target i }).inImports f name =
      some t := by
  have hlook : ∀ j, ((pool.modifyFile f fun x => { x with
      imports := x.imports.insert target i }).file j).packageName = (pool.file j).packageName ∧
      ((pool.modifyFile f fun x => { x with imports := x.imports.insert target i }).file j).types =
        (pool.file j).types := by
    intro j
    rw [file_modifyFile]
    split <;> exact ⟨rfl, rfl⟩
  simp only [inImports, hlook] at h ⊢
  have himports : ((pool.modifyFile f fun x => { x with
      imports := x.imports.insert target i }).file f).imports.values =
      (pool.file f).imports.values ∨ ∃ j, ((pool.modifyFile f fun x => { x with
      imports := x.imports.insert target i }).file f).imports.values =
      (pool.file f).imports.values ++ [j] := by
    rw [file_modifyFile]
    split
    · exact (pool.file f).imports.values_insert target i
    · exact .inl rfl
  rcases himports with he | ⟨j, he⟩
  · rw [he]
    exact h
  · rw [he, List.findSome?_append, h]
    rfl

theorem WellFormed.resolve?_insertImport (hw : pool.WellFormed) {target : String} {i : Import}
    {s : Scope} {name : TypeName} {t : TypeId} (hs : pool.InRange s) (hf : pool.scopeFile s = f)
    (hfile : pool.HasFile f) (h : pool.resolve? f s name = some t) :
    (pool.modifyFile f fun x => { x with imports := x.imports.insert target i }).resolve? f s name =
      some t := by
  have htree : SameTree pool
      (pool.modifyFile f fun x => { x with imports := x.imports.insert target i }) := by
    refine .modifyFile _ _ ?_
    exact fun _ => ⟨rfl, rfl⟩
  have hscopes : SameScopes f (fun _ => False) pool _ := htree.sameScopes
  have heq : ∀ {a b : Option TypeId}, Agrees (fun _ => False) a b → b = a := by
    rintro a b (h | ⟨_, h, -⟩)
    · exact h
    · cases h
  have hlexical := heq (hscopes.lexical_agrees hw (htree.wellFormed hw) hs hf name.segments)
  have hinFile := heq (hscopes.inFile_agrees hw hfile name.segments)
  have houtside : (pool.inFile f name.segments).or (pool.inImports f name.segments) = some t →
      (pool.inFile f name.segments).or ((pool.modifyFile f fun x => { x with
        imports := x.imports.insert target i }).inImports f name.segments) = some t := by
    intro h
    rcases Option.or_eq_some_iff.mp h with h | ⟨h₁, h₂⟩
    · rw [h]
      rfl
    · rw [h₁, inImports_insertImport h₂]
      rfl
  simp only [resolve?, hlexical, hinFile] at h ⊢
  split at h
  · next ha =>
    rw [if_pos ha]
    exact houtside h
  · next ha =>
    rw [if_neg ha]
    rcases Option.or_eq_some_iff.mp h with h | ⟨h₁, h₂⟩
    · rw [h]
      rfl
    · rw [h₁]
      exact houtside h₂


end ProtoSchema.Pool
