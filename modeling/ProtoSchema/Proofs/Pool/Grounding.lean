import ProtoSchema.Proofs.Pool.References

/-! # What a file mentions

A file passes on its own types and those that its public imports pass on, and it mentions no other
types than its own and those that an import of it passes on: `Visible` says whose types these are.
References are bound to visible types (`Grounded`), since a lookup finds no others
(`visible_of_resolve?`).  So an event leaves a file grounded (`Effect.grounded`), and so do the record
of its types and the sweep. -/

namespace ProtoSchema

namespace Pool

variable {pool other : Pool} {f g : FileId} {s : Scope} {t : TypeId}

/-- The file `f` imports the file `g`. -/
def ImportsFile (pool : Pool) (f g : FileId) : Prop :=
  ∃ i ∈ (pool.file f).imports.values, i.file = g

/-- The file `g` is `f` or imported by it, directly or through others. -/
def Reaches (pool : Pool) : FileId → FileId → Prop := Relation.ReflTransGen pool.ImportsFile

theorem Reaches.refl (f : FileId) : pool.Reaches f f := Relation.ReflTransGen.refl

theorem Reaches.of_eq (h : g = f) : pool.Reaches f g := h ▸ Reaches.refl g

theorem Reaches.mono (hi : ∀ i j, pool.ImportsFile i j → other.ImportsFile i j)
    (h : pool.Reaches f g) : other.Reaches f g := Relation.ReflTransGen.mono hi _ _ h

/-- The file `f` imports the file `g` publicly. -/
def ImportsPublicly (pool : Pool) (f g : FileId) : Prop :=
  ∃ i ∈ (pool.file f).imports.values, i.kind = .publicly ∧ i.file = g

theorem ImportsPublicly.importsFile (h : pool.ImportsPublicly f g) : pool.ImportsFile f g := by
  obtain ⟨i, hi, -, rfl⟩ := h
  exact ⟨i, hi, rfl⟩

/-- The file `f` passes on the types of the file `g`: it is that file, or a chain of public imports leads
to it. -/
def PassesOn (pool : Pool) : FileId → FileId → Prop := Relation.ReflTransGen pool.ImportsPublicly

theorem PassesOn.of_eq (h : g = f) : pool.PassesOn f g := h ▸ Relation.ReflTransGen.refl

theorem PassesOn.reaches (h : pool.PassesOn f g) : pool.Reaches f g :=
  Relation.ReflTransGen.mono (fun _ _ => ImportsPublicly.importsFile) _ _ h

/-- The types of the file `g` are visible in the file `f`: it is that file, or some file that it imports
passes them on. -/
def Visible (pool : Pool) (f g : FileId) : Prop :=
  g = f ∨ ∃ i, pool.ImportsFile f i ∧ pool.PassesOn i g

theorem Visible.reaches (h : pool.Visible f g) : pool.Reaches f g := by
  obtain rfl | ⟨i, hi, hp⟩ := h
  · exact .refl g
  · exact .head hi hp.reaches

/-- No file of `pool` has an import less in `other`. -/
def KeepsImports (pool other : Pool) : Prop :=
  ∀ i, ∀ k ∈ (pool.file i).imports.values, k ∈ (other.file i).imports.values

namespace KeepsImports

variable (h : KeepsImports pool other)
include h

theorem importsFile (hi : pool.ImportsFile f g) : other.ImportsFile f g := by
  obtain ⟨k, hk, he⟩ := hi
  exact ⟨k, h _ k hk, he⟩

theorem passesOn (hp : pool.PassesOn f g) : other.PassesOn f g := by
  refine Relation.ReflTransGen.mono (fun i j hij => ?_) _ _ hp
  obtain ⟨k, hk, he⟩ := hij
  exact ⟨k, h _ k hk, he⟩

theorem visible (hv : pool.Visible f g) : other.Visible f g := by
  obtain rfl | ⟨i, hi, hp⟩ := hv
  · exact .inl rfl
  · exact .inr ⟨i, h.importsFile hi, h.passesOn hp⟩

end KeepsImports

/-- The type `t` is there, in the file `f` or one that it imports, directly or through others. -/
def Sees (pool : Pool) (f : FileId) (t : TypeId) : Prop :=
  pool.HasType t ∧ pool.Reaches f (pool.typeFile t)

/-- References of the file `f` are bound to visible types, and it lists types that it passes on. -/
structure Grounded (pool : Pool) (f : FileId) : Prop where
  bound : ∀ {s name offset t}, Refers pool f s name offset (some t) →
    pool.HasType t ∧ pool.Visible f (pool.typeFile t)
  listed : ∀ {name t}, (pool.file f).types.find? name = some t →
    pool.HasType t ∧ pool.PassesOn f (pool.typeFile t)

theorem Grounded.refers (h : pool.Grounded f) {name : TypeName} {offset : Nat}
    (hr : Refers pool f s name offset (some t)) : pool.Sees f t :=
  ⟨(h.bound hr).1, (h.bound hr).2.reaches⟩

theorem Grounded.types (h : pool.Grounded f) (name : DottedName) (t : TypeId)
    (hfind : (pool.file f).types.find? name = some t) : pool.Sees f t :=
  ⟨(h.listed hfind).1, (h.listed hfind).2.reaches⟩

/-- A file without declarations that passes nothing on. -/
theorem grounded_of_empty (hb : ∀ b, ¬pool.BlockOf f b) (ht : (pool.file f).types = {}) :
    pool.Grounded f := by
  refine ⟨fun hr => ?_, fun h => ?_⟩
  · cases hr with
    | field there => exact absurd there.2 (hb _)
    | extend there => exact absurd there (hb _)
  · rw [ht] at h
    cases h

theorem Touches.hasVisible (ht : Touches g pool other) (hi : KeepsImports pool other)
    (h : pool.HasType t ∧ pool.Visible f (pool.typeFile t)) :
    other.HasType t ∧ other.Visible f (other.typeFile t) := by
  rw [(ht.type_eq h.1).1]
  exact ⟨ht.hasType h.1, hi.visible h.2⟩

theorem Touches.hasPassedOn (ht : Touches g pool other) (hi : KeepsImports pool other)
    (h : pool.HasType t ∧ pool.PassesOn f (pool.typeFile t)) :
    other.HasType t ∧ other.PassesOn f (other.typeFile t) := by
  rw [(ht.type_eq h.1).1]
  exact ⟨ht.hasType h.1, hi.passesOn h.2⟩

/-- A file stays grounded while another one is changed and no imports are taken away. -/
theorem Grounded.of_kept (h : pool.Grounded f) (hk : Kept f pool other) (ht : Touches g pool other)
    (hi : KeepsImports pool other) : other.Grounded f := by
  refine ⟨fun hr => ht.hasVisible hi (h.bound (hk.refers_iff.mp hr)), fun hfind => ?_⟩
  rw [hk.file] at hfind
  exact ht.hasPassedOn hi (h.listed hfind)

/-! ### Lookups -/

/-- A lookup from a scope of the file finds what is visible in the file. -/
theorem visible_of_resolve? (hw : pool.WellFormed) (ht : pool.TypesSound)
    (hg : ∀ i ∈ (pool.file f).imports.values, pool.Grounded i.file) (hs : pool.InRange s)
    (hsf : pool.scopeFile s = f) {name : TypeName} (h : pool.resolve? f s name = some t) :
    pool.HasType t ∧ pool.Visible f (pool.typeFile t) := by
  refine ⟨hw.resolve?_hasType ht h, ?_⟩
  have houtside : ∀ n, (pool.inFile f n).or (pool.inImports f n) = some t →
      pool.Visible f (pool.typeFile t) := by
    intro n h
    rcases Option.or_eq_some_iff.mp h with h | ⟨-, h⟩
    · simp only [inFile] at h
      split at h
      · exact .inl (hw.of_descend _ (s := .file f) h).2.1
      · cases h
    · simp only [inImports] at h
      obtain ⟨i, hi, h⟩ := List.exists_of_findSome?_eq_some h
      obtain ⟨q, -, h⟩ := List.exists_of_findSome?_eq_some h
      exact .inr ⟨i.file, ⟨i, hi, rfl⟩, ((hg i hi).listed h).2⟩
  simp only [resolve?] at h
  split at h
  · exact houtside _ h
  · rcases Option.or_eq_some_iff.mp h with h | ⟨-, h⟩
    · obtain ⟨s', hs', h⟩ := List.exists_of_findSome?_eq_some h
      refine .inl ((hw.of_descend _ h).2.1.trans ?_)
      exact (hw.scopeFile_of_mem_enclosing hs hs').2.trans hsf
    · exact houtside _ h

/-! ### What a file passes on -/

theorem WellFormed.typeFile_of_declared (hw : pool.WellFormed) (hf : pool.HasFile f)
    {name : DottedName} (h : (name, t) ∈ pool.declaredTypes f) : pool.typeFile t = f := by
  simp only [declaredTypes, List.mem_map, List.mem_flatMap, List.mem_append] at h
  obtain ⟨t', ⟨s, hs, ht⟩, he⟩ := h
  cases he
  obtain ⟨-, hsf⟩ := (hw.mem_scopes_iff hf).mp hs
  rcases ht with ⟨b, hb, rfl⟩ | ⟨e, he, rfl⟩
  · obtain ⟨hb, -, hp⟩ := hw.mem_messages_iff.mp hb
    exact (hw.block_scope b hb).2.symm.trans (hp ▸ hsf)
  · obtain ⟨he, hp⟩ := hw.mem_enums_iff.mp he
    exact (hw.enum_scope e he).2.symm.trans (hp ▸ hsf)

theorem imports_recordTypes (pool : Pool) (f i : FileId) :
    ((pool.recordTypes f).file i).imports = (pool.file i).imports := by
  rw [recordTypes, file_modifyFile]
  split <;> rfl

theorem importsFile_recordTypes {i j : FileId} :
    (pool.recordTypes f).ImportsFile i j ↔ pool.ImportsFile i j := by
  rw [ImportsFile, ImportsFile, imports_recordTypes]

theorem keepsImports_recordTypes (pool : Pool) (f : FileId) : KeepsImports pool (pool.recordTypes f) :=
  fun i k hk => by rwa [imports_recordTypes]

/-- The types that are recorded for a file are those that it passes on. -/
theorem Grounded.recordTypes (h : pool.Grounded f) (hw : pool.WellFormed)
    (hf : pool.HasFile f) (hg : ∀ i ∈ (pool.file f).imports.values, pool.Grounded i.file) :
    (pool.recordTypes f).Grounded f := by
  have htouches : Touches f pool (pool.recordTypes f) := .modifyFile _ fun _ => rfl
  have hi := keepsImports_recordTypes pool f
  refine ⟨fun {s name offset t} hr => ?_, fun {name t} hfind => htouches.hasPassedOn hi ?_⟩
  · have hr : Refers pool f s name offset (some t) := by
      cases hr with
      | field there type => exact .field there type
      | extend there heading => exact .extend there heading
    exact htouches.hasVisible hi (h.bound hr)
  · rw [Pool.recordTypes, file_modifyFile, if_pos ⟨rfl, hf⟩] at hfind
    rcases Table.of_find?_insertAll hfind with hfind | hmem
    · cases hfind
    · rcases List.mem_append.mp hmem with hmem | hmem
      · exact ⟨hw.hasType_of_declared hmem, .of_eq (hw.typeFile_of_declared hf hmem)⟩
      · simp only [importedTypes, List.mem_flatMap, List.mem_filter, decide_eq_true_eq] at hmem
        obtain ⟨i, ⟨hi, hkind⟩, hmem⟩ := hmem
        obtain ⟨hthere, hp⟩ := (hg i hi).listed (Table.mem_entries_iff.mp hmem)
        exact ⟨hthere, .head ⟨i, hi, hkind, rfl⟩ hp⟩

end Pool

namespace Cursor

variable {c c' : Cursor} {pool other : Pool} {e : Event} {ks ks' : OpenBlocks}

theorem Effect.keepsImports (h : Effect c pool e c' other) (hn : e.Nests ks ks')
    (hf : c.Fits pool ks) : Pool.KeepsImports pool other := fun i k hk => by
  rwa [((h.tables hn hf).2.2 i).1]

/-- An event leaves its file grounded. -/
theorem Effect.grounded (h : Effect c pool e c' other) (hn : e.Nests ks ks') (hf : c.Fits pool ks)
    (hw : pool.WellFormed) (ht : pool.TypesSound) (hg : pool.Grounded c.file)
    (hi : ∀ i ∈ (pool.file c.file).imports.values, pool.Grounded i.file) : other.Grounded c.file := by
  have htouches := h.touches hn hf
  have hkeeps := h.keepsImports hn hf
  refine ⟨fun {s name offset t} hr => ?_, fun {name t} hfind => htouches.hasPassedOn hkeeps ?_⟩
  · by_cases hp : ∃ name, e = .package name
    · obtain ⟨name, rfl⟩ := hp
      cases h with
      | package first early =>
        cases hr with
        | field there => exact absurd there.2 ((hf.early early).1 _)
        | extend there => exact absurd there ((hf.early early).1 _)
    · rcases (h.adds hn hf hw fun name he => hp ⟨name, he⟩).refers hr with
        hold | ⟨-, htarget, hs, hsf, -⟩
      · exact htouches.hasVisible hkeeps (hg.bound hold)
      · exact htouches.hasVisible hkeeps (Pool.visible_of_resolve? hw ht hi hs hsf htarget.symm)
  · rw [((h.tables hn hf).2.2 _).2] at hfind
    exact hg.listed hfind

end Cursor

end ProtoSchema
